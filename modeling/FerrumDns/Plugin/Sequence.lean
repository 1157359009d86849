import FerrumDns.Plugin.Actions
import FerrumDns.Plugin.Cache

/-! Running the steps of a sequence. Each cache step leaves a write to be done
with the request state just before it; the writes are done together on the way
out, and not at all when a step fails. How a plugin is executed is a parameter
here, since sequences and fallbacks call each other. -/

namespace FerrumDns

open Prog

/-- A cache with the request state it is to be written under. -/
abbrev Write := Cache × CacheLookup

namespace Sequence

variable [Crates] (reg : Registry) (call : Executable → QueryContext → Run Outcome)

/-- The write left by executing a tag, if it names a cache and the query has a key. -/
def noteCache (tag : Tag) (ctx : QueryContext) : List Write :=
  match reg.caches tag with
  | none => []
  | some c => ((c.snapshot ctx).map fun lookup => (c, lookup)).toList

def store (ctx : QueryContext) : List Write → Run Unit
  | [] => done ()
  | (c, lookup) :: writes => (c.storeLookup ctx lookup).bind fun _ => store ctx writes

/-- Execute the plugin with this tag; `before` is what its context is noted from. -/
def callTag (before : QueryContext) (tag : Tag) (ctx : QueryContext) : Run (List Write × Outcome) :=
  match reg.getExec tag with
  | .error e => done ([], ctx, .error e)
  | .ok p => (call p ctx).bind fun o => done (noteCache reg tag before, o)

/-- One step whose matchers hold. -/
def perform (self : Tag) (ctx : QueryContext) : Exec → Run (List Write × Outcome)
  | .Plugin tag =>
    match reg.getExec tag with
    | .error e => done ([], ctx, .error e)
    | .ok _ => callTag reg call ctx tag (ctx.pushTrace self "exec")
  | .Builtin b => done ([], b.apply (ctx.pushTrace self "builtin"))

/-- Leave with the collected writes done. -/
def finish (ctx : QueryContext) (writes : List Write) (a : Action) : Run Outcome :=
  (store ctx writes).bind fun _ => done (ctx, .ok a)

def loop (self : Tag) : List Step → List Write → QueryContext → Run Outcome
  | [], writes, ctx => finish ctx writes .Continue
  | step :: steps, writes, ctx =>
    if step.matchers.all (·.matches ctx) then
      (perform reg call self ctx step.exec).bind fun (new, ctx, result) =>
        match result with
        | .error e => done (ctx, .error e)
        | .ok .Continue => loop self steps (writes ++ new) ctx
        | .ok .Accept => finish ctx (writes ++ new) .Accept
        | .ok .Return => finish ctx (writes ++ new) .Continue
        | .ok (.Goto tag) => (callTag reg call ctx tag ctx).bind fun (last, ctx, result) =>
          match result with
          | .error e => done (ctx, .error e)
          | .ok a => finish ctx (writes ++ new ++ last) a
    else loop self steps writes ctx

def run (seq : Sequence) (ctx : QueryContext) : Run Outcome :=
  loop reg call seq.tag seq.steps [] ctx

end Sequence

end FerrumDns
