import FerrumDns.Cache.Hit
import FerrumDns.Graph.Chain
import FerrumDns.Pipeline.Invariant

/-! Executing plugins over a closed and shallow call graph. Every plugin that is
called finds the plugins it names, calls nest no deeper than the graph, and no
plugin ends in a failed look-up or asks its caller to leave or jump: builtin
actions alone do that, and the sequence they stand in takes them up. -/

namespace FerrumDns

open FerrumDns.Graph Prog

/-- The tags an action looks up. -/
def Exec.refs : Exec → List Tag
  | .Plugin tag => [tag]
  | .Builtin (.Goto tag) => [tag]
  | .Builtin _ => []

/-- The tags a plugin looks up. -/
def Executable.refs : Executable → List Tag
  | sequence s => s.steps.flatMap fun step => step.exec.refs
  | fallback f => [f.primary, f.secondary]
  | _ => []

namespace Nesting

variable (reg : Registry)

/-- Every tag the plugin looks up names a plugin. -/
def Resolves (p : Executable) : Prop := ∀ tag ∈ p.refs, ∃ q, reg.getExec tag = .ok q

/-- The plugin, and what it calls, fits into `n` nested calls, all tags on the way resolved. -/
def Fits : ℕ → Executable → Prop
  | 0, _ => False
  | n + 1, p => ∀ tag ∈ p.refs, ∃ q, reg.getExec tag = .ok q ∧ Fits n q

/-- Going on, leaving with success, or an error that is not a failed look-up. -/
def Settles : Except Error Action → Prop
  | .ok a => a = .Continue ∨ a = .Accept
  | .error e => ∀ tag, e ≠ .unknownTag tag

/-- A called plugin finds all it names, and no call is nested too deep. -/
def Bound : Eff → Prop
  | .call p _ => Resolves reg p
  | .overflow => False
  | _ => True

def contract : Contract QueryContext Eff Eff.Answer where
  guar := Bound reg
  rely _ _ := True
  held _ := True

variable {reg}

theorem Fits.resolves {n : ℕ} {p : Executable} (h : Fits reg n p) : Resolves reg p := by
  cases n with
  | zero => exact h.elim
  | succ n => exact fun tag ht => (h tag ht).imp fun _ hq => hq.1

/-! ### Promises of nested calls -/

/-- Neither a call nor a call too deep. -/
def Elementary : Eff → Prop
  | .call _ _ | .overflow => False
  | _ => True

/-- A promise about actions which is kept in every call of a plugin that fits into the calls left:
what the plugin looks up fits again, or fails with an error that may come back. -/
structure Nests (reg : Registry) (G : Eff → Prop) (E : Error → Prop) (Fit : ℕ → Executable → Prop) :
    Prop where
  call : ∀ {n p}, Fit (n + 1) p → ∀ ctx, G (.call p ctx)
  other : ∀ {e}, Elementary e → G e
  overflow : ∀ {p}, Fit 0 p → G .overflow
  config : ∀ s, E (.config s)
  found : ∀ {n p tag q}, Fit (n + 1) p → tag ∈ p.refs → reg.getExec tag = .ok q → Fit n q
  missing : ∀ {n p tag e}, Fit (n + 1) p → tag ∈ p.refs → reg.getExec tag = .error e → E e

/-- Going on, leaving with success, or one of these errors. -/
def Settled (E : Error → Prop) : Except Error Action → Prop
  | .ok a => a = .Continue ∨ a = .Accept
  | .error e => E e

/-- Only the actions are restricted. -/
def promise (G : Eff → Prop) : Contract QueryContext Eff Eff.Answer where
  guar := G
  rely _ _ := True
  held _ := True

namespace Nests

variable {G : Eff → Prop} {E : Error → Prop} {Fit : ℕ → Executable → Prop}

/-! ### Leaves -/

theorem counted (h : Nests reg G E Fit) (k : Counter) :
    (Run.count k).Sat (promise G) fun _ => True :=
  ⟨h.other trivial, fun _ _ => trivial⟩

theorem single_sat (h : Nests reg G E Fit) (f : Forward) (ctx : QueryContext) (q : Message)
    (up : Upstream) : (f.single ctx q up).Sat (promise G) fun o => o.2 = .ok .Continue := by
  refine ⟨trivial, h.other trivial, fun r _ => ?_⟩
  obtain ⟨i, r⟩ := r
  cases r with
  | error e => exact (h.counted _).bind fun _ _ => rfl
  | ok msg =>
    dsimp only
    split_ifs
    · exact (h.counted _).bind fun _ _ => rfl
    · exact (h.counted _).bind fun _ _ => rfl

theorem race_sat (h : Nests reg G E Fit) (f : Forward) (ctx : QueryContext) (q : Message) (n : ℕ)
    (pending : List Upstream) (last : Option Message) :
    (f.race ctx q n pending last).Sat (promise G) fun o => o.2 = .ok .Continue := by
  induction n generalizing pending last with
  | zero => exact rfl
  | succ n ih =>
    cases pending with
    | nil => exact rfl
    | cons up pending =>
      refine ⟨trivial, h.other trivial, fun r _ => ?_⟩
      obtain ⟨i, r⟩ := r
      cases r with
      | error e => exact (h.counted _).bind fun _ _ => ih _ _
      | ok msg =>
        dsimp only
        split_ifs
        · exact (h.counted _).bind fun _ _ => rfl
        · exact (h.counted _).bind fun _ _ => ih _ _

theorem forward_sat (h : Nests reg G E Fit) (f : Forward) (ctx : QueryContext) :
    (f.exec ctx).Sat (promise G) fun o => o.2 = .ok .Continue := by
  simp only [Forward.exec]
  split_ifs
  · exact h.single_sat f ctx _ _
  · exact h.race_sat f ctx _ _ _ _

variable [Crates]

theorem cache_sat (h : Nests reg G E Fit) (c : Cache) (ctx : QueryContext) :
    (c.exec ctx).Sat (promise G) fun o => o.2 = .ok .Continue := by
  have hsat : (c.exec ctx).Sat (promise G) fun _ => True :=
    Cache.exec_sat (I := fun _ => True) (fun _ => h.other trivial) (h.other trivial)
      (fun _ _ _ => h.other trivial) (fun _ _ _ => h.other trivial) trivial
      (fun _ _ => trivial) fun _ _ _ => trivial
  refine hsat.of_ends fun tr o ho => ?_
  rcases Cache.exec_ends ho with ⟨-, rfl | rfl⟩ | ⟨_, _, _, _, _, _, _, _, _, _, rfl⟩ <;> rfl

/-! ### Sequences -/

/-- What a step of a sequence can ask for: a jump goes to a tag it names. -/
def Steps (E : Error → Prop) (x : Exec) : Except Error Action → Prop
  | .ok (.Goto tag) => tag ∈ x.refs
  | .ok _ => True
  | .error e => E e

omit [Crates] in
theorem steps_of_settled {r : Except Error Action} (h : Settled E r) (x : Exec) : Steps E x r := by
  cases r with
  | error e => exact h
  | ok a => cases h with
    | inl ha => subst ha; trivial
    | inr ha => subst ha; trivial

omit [Crates] in
theorem apply_steps (h : Nests reg G E Fit) (b : Builtin) (ctx : QueryContext) :
    Steps E (.Builtin b) (b.apply ctx).2 := by
  cases b with
  | Ttl low high =>
    rw [Builtin.apply]
    split_ifs
    · exact h.config _
    · trivial
  | Goto tag => exact List.mem_singleton.2 rfl
  | _ => trivial

theorem store_sat (h : Nests reg G E Fit) (ctx : QueryContext) (writes : List Write) :
    (Sequence.store ctx writes).Sat (promise G) fun _ => True := by
  induction writes with
  | nil => trivial
  | cons w writes ih =>
    have hw : (Cache.storeLookup w.1 ctx w.2).Sat (promise G) fun _ => True :=
      Cache.storeLookup_sat (h.other trivial) fun _ _ _ _ _ _ _ => h.other trivial
    exact hw.bind fun _ _ => ih

theorem finish_sat (h : Nests reg G E Fit) (ctx : QueryContext) (writes : List Write) {a : Action}
    (ha : a = .Continue ∨ a = .Accept) :
    (Sequence.finish ctx writes a).Sat (promise G) fun o => Settled E o.2 :=
  (h.store_sat ctx writes).bind fun _ _ => ha

section Calls

variable {call : Executable → QueryContext → Run Outcome} {n : ℕ}
  (hcall : ∀ {p}, Fit n p → ∀ ctx, (call p ctx).Sat (promise G) fun o => Settled E o.2)

include hcall

theorem callTag_sat (h : Nests reg G E Fit) {p : Executable} (hp : Fit (n + 1) p) {tag : Tag}
    (ht : tag ∈ p.refs) (before ctx : QueryContext) :
    (Sequence.callTag reg call before tag ctx).Sat (promise G) fun o => Settled E o.2.2 := by
  rw [Sequence.callTag]
  cases hq : reg.getExec tag with
  | error e => exact h.missing hp ht hq
  | ok q => exact (hcall (h.found hp ht hq) ctx).bind fun o ho => ho

theorem perform_sat (h : Nests reg G E Fit) {p : Executable} (hp : Fit (n + 1) p) (self : Tag)
    (ctx : QueryContext) {x : Exec} (hx : ∀ tag ∈ x.refs, tag ∈ p.refs) :
    (Sequence.perform reg call self ctx x).Sat (promise G) fun o => Steps E x o.2.2 := by
  cases x with
  | Builtin b => exact h.apply_steps b _
  | Plugin tag =>
    have ht := hx tag (List.mem_singleton.2 rfl)
    have htag := (h.callTag_sat hcall hp ht ctx (ctx.pushTrace self "exec")).mono fun o ho =>
      steps_of_settled ho (.Plugin tag)
    rw [Sequence.perform]
    cases hq : reg.getExec tag with
    | error e => exact h.missing hp ht hq
    | ok q => exact htag

theorem loop_sat (h : Nests reg G E Fit) {p : Executable} (hp : Fit (n + 1) p) (self : Tag)
    {steps : List Step} (hs : ∀ step ∈ steps, ∀ tag ∈ step.exec.refs, tag ∈ p.refs)
    (writes : List Write) (ctx : QueryContext) :
    (Sequence.loop reg call self steps writes ctx).Sat (promise G) fun o => Settled E o.2 := by
  induction steps generalizing writes ctx with
  | nil => exact h.finish_sat ctx writes (.inl rfl)
  | cons step steps ih =>
    have hrest := fun s hm => hs s (List.mem_cons_of_mem step hm)
    rw [Sequence.loop]
    split_ifs
    · refine (h.perform_sat hcall hp self ctx (hs step (by simp))).bind fun o hr => ?_
      obtain ⟨new, ctx, result⟩ := o
      cases result with
      | error e => exact hr
      | ok a =>
        cases a with
        | Continue => exact ih hrest _ _
        | Accept => exact h.finish_sat _ _ (.inr rfl)
        | Return => exact h.finish_sat _ _ (.inl rfl)
        | Goto tag =>
          have ht := hs step (by simp) tag hr
          refine (h.callTag_sat hcall hp ht ctx ctx).bind fun o hr => ?_
          obtain ⟨last, ctx, result⟩ := o
          cases result with
          | error e => exact hr
          | ok a => exact h.finish_sat _ _ hr
    · exact ih hrest _ _

/-! ### Fallbacks -/

omit [Crates] in
theorem fallback_sat (h : Nests reg G E Fit) {f : Fallback} (hf : Fit (n + 1) (.fallback f))
    (ctx : QueryContext) : (f.exec reg call ctx).Sat (promise G) fun o => Settled E o.2 := by
  have mem {tag : Tag} (ht : tag = f.primary ∨ tag = f.secondary) :
      tag ∈ (Executable.fallback f).refs := by
    rcases ht with rfl | rfl <;> simp [Executable.refs]
  have second (o : Outcome) (ho : Settled E o.2) : Settled E (f.useSecondary ctx o).2 := by
    obtain ⟨c, r⟩ := o
    cases r with
    | error e => exact ho
    | ok a => exact .inl rfl
  have clock : (promise G).guar .now ∧ ∀ d, (promise G).guar (.timer d) :=
    ⟨h.other trivial, fun _ => h.other trivial⟩
  exact Fallback.exec_sat clock (fun _ _ _ => .inl rfl) second trivial trivial
    (fun _ _ ht he => h.missing hf (mem ht) he)
    fun _ _ ht hp => (hcall (h.found hf (mem ht) hp) _).loosen

end Calls

/-! ### Whole runs -/

/-- A plugin that fits keeps the promise in all its calls. -/
theorem exec_sat (h : Nests reg G E Fit) {n : ℕ} {p : Executable} (hp : Fit n p) (ctx : QueryContext) :
    (p.exec reg n ctx).Sat (promise G) fun o => Settled E o.2 := by
  induction n generalizing p ctx with
  | zero => exact ⟨h.overflow hp, fun r => r.elim⟩
  | succ n ih =>
    refine ⟨h.call hp ctx, fun _ _ => ?_⟩
    have went {p : QueryContext → Run Outcome}
        (hp : (p ctx).Sat (promise G) fun o => o.2 = .ok .Continue) :
        (p ctx).Sat (promise G) fun o => Settled E o.2 :=
      hp.mono fun o ho => by rw [ho]; exact .inl rfl
    cases p with
    | forward f => exact went (h.forward_sat f ctx)
    | cache c => exact went (h.cache_sat c ctx)
    | sequence s =>
      refine h.loop_sat ih hp s.tag (fun step hm tag ht => ?_) [] ctx
      exact List.mem_flatMap.2 ⟨step, hm, ht⟩
    | fallback f => exact h.fallback_sat ih hp ctx
    | _ => exact .inl rfl

end Nests

/-! ### Closed graphs -/

theorem fits_nests : Nests reg (Bound reg) (fun e => ∀ tag, e ≠ .unknownTag tag) (Fits reg) where
  call h _ := h.resolves
  other {e} he := by
    cases e with
    | call p ctx => exact he.elim
    | overflow => exact he.elim
    | _ => trivial
  overflow h := h
  config s tag := by intro h; cases h
  found {n p tag q} h ht hq := by
    obtain ⟨q', hq', hfits⟩ := h tag ht
    cases hq.symm.trans hq'
    exact hfits
  missing {n p tag e} h ht he := by
    obtain ⟨q, hq, -⟩ := h tag ht
    cases he.symm.trans hq

/-- A plugin that fits is executed within the calls it was given. -/
theorem exec_sat [Crates] {n : ℕ} {p : Executable} (h : Fits reg n p) (ctx : QueryContext) :
    (p.exec reg n ctx).Sat (contract reg) fun o => Settles o.2 := by
  refine Sat.mono (fits_nests.exec_sat h ctx) fun o ho => ?_
  cases hr : o.2 with
  | error e => rwa [hr] at ho
  | ok a => rwa [hr] at ho

end Nesting

end FerrumDns
