import FerrumDns.Plugin.Exec
import Mathlib.Logic.Relation

/-! The elementary changes a plugin makes to its query context. Every plugin that
works on the context alone is a chain of them; attaching a subnet and serving a
cache hit are kept apart, because what they need is not visible in the change. -/

namespace FerrumDns

open Relation Dnsutil

def Source.isCacheHit : Source → Bool
  | cacheHit _ => true
  | _ => false

inductive Edit (ctx : QueryContext) : QueryContext → Prop
  | trace (plugin event : String) : Edit ctx (ctx.pushTrace plugin event)
  | respond (source : Source) (msg : Message) (h : source.isCacheHit = false) :
      Edit ctx (ctx.setResponse source msg)
  | dropResponse : Edit ctx ctx.dropResponse
  | clampTtl (low high : U32) : Edit ctx (ctx.applyTtlClamp low high)
  | filter (keep : RecordType → Bool) : Edit ctx (ctx.filterAnswers keep)
  | mark (m : U32) : Edit ctx (ctx.addMark m)
  | rewrite (name : Name) : Edit ctx (ctx.rewriteName name)
  | strip : Edit ctx { ctx with stripEcsOnReply := true }
  | detach : Edit ctx { ctx with query := removeEcs ctx.query }
  | refuse (h : ctx.stripEcsOnReply = true) : Edit ctx { ctx with ecsRefused := true }

/-- Any number of elementary changes. -/
abbrev Edits : QueryContext → QueryContext → Prop := ReflTransGen Edit

theorem Edits.keep {I : QueryContext → Prop} (hI : ∀ {ctx ctx'}, Edit ctx ctx' → I ctx → I ctx')
    {ctx ctx' : QueryContext} (h : Edits ctx ctx') (hi : I ctx) : I ctx' := by
  induction h with
  | refl => exact hi
  | tail _ h ih => exact hI h ih

/-- A change that rewrites no name. -/
structure Amend (ctx ctx' : QueryContext) : Prop where
  edit : Edit ctx ctx'
  rewrites : ctx'.rewrites = ctx.rewrites

/-- Any number of changes that rewrite no name. -/
abbrev Amends : QueryContext → QueryContext → Prop := ReflTransGen Amend

theorem Amend.amends {ctx ctx' : QueryContext} (h : Amend ctx ctx') : Amends ctx ctx' := .single h

theorem Amends.keep {I : QueryContext → Prop} (hI : ∀ {ctx ctx'}, Amend ctx ctx' → I ctx → I ctx')
    {ctx ctx' : QueryContext} (h : Amends ctx ctx') (hi : I ctx) : I ctx' := by
  induction h with
  | refl => exact hi
  | tail _ h ih => exact hI h ih

theorem trace_amend (ctx : QueryContext) (plugin event : String) :
    Amend ctx (ctx.pushTrace plugin event) :=
  ⟨.trace plugin event, ctx.pushTrace_rewrites plugin event⟩

theorem respond_amend (ctx : QueryContext) (source : Source) (msg : Message)
    (h : source.isCacheHit = false) : Amend ctx (ctx.setResponse source msg) :=
  ⟨.respond source msg h, rfl⟩

theorem reject_amend (ctx : QueryContext) (rcode : ResponseCode) : Amend ctx (ctx.reject rcode) :=
  respond_amend ctx .reject _ rfl

/-- Taking a subnet out of the query, to be stripped from the reply too. -/
theorem noEcs_amends (ctx : QueryContext) : Amends ctx
    { ctx with query := removeEcs ctx.query, stripEcsOnReply := true, ecsRefused := true } := by
  have detach : Amend ctx { ctx with query := removeEcs ctx.query } := ⟨.detach, rfl⟩
  exact (detach.amends.tail ⟨.strip, rfl⟩).tail ⟨.refuse rfl, rfl⟩

theorem Builtin.apply_amends (b : Builtin) (ctx : QueryContext) : Amends ctx (b.apply ctx).1 := by
  cases b with
  | Accept => exact .refl
  | Return => exact .refl
  | Reject c => exact (reject_amend ctx c).amends
  | DropResp => exact Amend.amends ⟨.dropResponse, rfl⟩
  | Ttl low high =>
    rw [Builtin.apply]
    split
    · exact .refl
    · exact Amend.amends ⟨.clampTtl low high, rfl⟩
  | PreferV4 => exact Amend.amends ⟨.filter (· ≠ .AAAA), rfl⟩
  | PreferV6 => exact Amend.amends ⟨.filter (· ≠ .A), rfl⟩
  | Mark m => exact Amend.amends ⟨.mark m, rfl⟩
  | Goto t => exact .refl
  | NoEcs => exact noEcs_amends ctx

theorem NoEcs.exec_amends (n : NoEcs) (ctx : QueryContext) : Amends ctx (n.exec ctx) :=
  (noEcs_amends ctx).tail (trace_amend _ _ _)

variable [Crates]

/-- A redirect rewrites the name, or does nothing. -/
theorem Redirect.exec_edits (r : Redirect) (ctx : QueryContext) : Edits ctx (r.exec ctx) := by
  rw [Redirect.exec]
  split
  · exact (ReflTransGen.single (.rewrite _)).tail (.trace _ _)
  · exact .refl

theorem Hosts.exec_amends (h : Hosts) (ctx : QueryContext) : Amends ctx (h.exec ctx) := by
  simp only [Hosts.exec]
  split_ifs
  · exact (trace_amend _ _ _).amends.tail (respond_amend _ _ _ rfl)
  · exact (trace_amend _ _ _).amends.tail (respond_amend _ _ _ rfl)
  · exact .refl

/-! ### Attaching a subnet -/

namespace Ecs

/-- The query with a subnet on it. -/
def attach (ctx : QueryContext) (cs : ClientSubnet) : QueryContext :=
  { ctx with query := setEcs ctx.query cs }

/-- The plugin attaches a subnet at most once, between elementary changes; the flag to strip it is
set if there was none. -/
theorem exec_cases (e : Ecs) (ctx : QueryContext) :
    (e.attaches ctx = none ∧ Amends ctx (e.exec ctx)) ∨
      ∃ cs ctx', e.attaches ctx = some cs ∧ Amends ctx ctx' ∧ ctx'.query = ctx.query ∧
        (ecsOf ctx.query = none → ctx'.stripEcsOnReply = true) ∧
        Amends (attach ctx' cs) (e.exec ctx) := by
  by_cases h : (ecsOf ctx.query).isSome ∧ e.forceOverwrite = false
  · simp only [exec, attaches, if_pos h]
    exact .inl ⟨trivial, (trace_amend _ _ _).amends⟩
  · simp only [exec, attaches, if_neg h]
    cases e.pick ctx with
    | none => exact .inl ⟨rfl, (trace_amend _ _ _).amends⟩
    | some p =>
      refine .inr ⟨_, if (ecsOf ctx.query).isNone then { ctx with stripEcsOnReply := true } else ctx,
        rfl, ?_, ?_, ?_, ?_⟩
      · split_ifs
        · exact Amend.amends ⟨.strip, rfl⟩
        · exact .refl
      · split_ifs <;> rfl
      · intro hn
        simp [hn]
      · split_ifs <;> exact (trace_amend _ _ _).amends

end Ecs

end FerrumDns
