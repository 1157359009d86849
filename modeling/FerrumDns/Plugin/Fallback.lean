import FerrumDns.Plugin.Basic

/-! Running a primary plugin with a secondary one in reserve, each on a fork of
the request. The primary has until a threshold to come up with a wanted answer: a timer
is set before it starts and looked at wherever it suspends. In standby mode the secondary
runs next to it from the start. While either runs the request itself is untouched. -/

namespace FerrumDns

open Prog

namespace Fallback

variable (reg : Registry) (call : Executable → QueryContext → Run Outcome)

/-- The primary's fork, if it ended in time without error and has a wanted answer. -/
def wanted : Except QueryContext Outcome → Option QueryContext
  | .ok (pctx, .ok _) => if pctx.hasWantedAns then some pctx else none
  | _ => none

def usePrimary (f : Fallback) (ctx pctx : QueryContext) : Outcome :=
  ((ctx.pushTrace f.tag "primary").absorb pctx, .ok .Continue)

/-- Take over the secondary's fork, and its error if it failed. -/
def useSecondary (f : Fallback) (ctx : QueryContext) (o : Outcome) : Outcome :=
  ((ctx.pushTrace f.tag "secondary").absorb o.1, o.2.map fun _ => .Continue)

/-- The primary under its timer, which is set first. -/
def limited (f : Fallback) (p : Run Outcome) : Run (Except QueryContext Outcome) :=
  act .now fun (start : ℕ) =>
    p.limit (.timer (start + f.threshold)) fun (t : ℕ) => start + f.threshold ≤ t

/-- The primary alone first. -/
def reserve (f : Fallback) (ctx : QueryContext) (primary secondary : Executable) : Run Outcome :=
  ((f.limited (call primary ctx.fork)).hold ctx).bind fun first =>
    match wanted first with
    | some pctx => done (f.usePrimary ctx pctx)
    | none =>
      let traced := ctx.pushTrace f.tag "secondary"
      ((call secondary traced.fork).hold traced).bind fun o => done (f.useSecondary ctx o)

/-- Both at once. A ready secondary still waits for a primary within its threshold. -/
def standby (f : Fallback) (ctx : QueryContext) (primary secondary : Executable) : Run Outcome :=
  ((select (f.limited (call primary ctx.fork)) (call secondary ctx.fork)).hold ctx).bind fun first =>
    match first with
    | .inl (first, rest) =>
      match wanted first with
      | some pctx => done (f.usePrimary ctx pctx)
      | none => (rest.hold ctx).bind fun o => done (f.useSecondary ctx o)
    | .inr (o, rest) => (rest.hold ctx).bind fun first =>
      match wanted first with
      | some pctx => done (f.usePrimary ctx pctx)
      | none => done (f.useSecondary ctx o)

def exec (f : Fallback) (ctx : QueryContext) : Run Outcome :=
  match reg.getExec f.primary with
  | .error e => done (ctx, .error e)
  | .ok primary =>
    match reg.getExec f.secondary with
    | .error e => done (ctx, .error e)
    | .ok secondary =>
      if f.alwaysStandby then standby call f ctx primary secondary
      else reserve call f ctx primary secondary

end Fallback

end FerrumDns
