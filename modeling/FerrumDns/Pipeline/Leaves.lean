import FerrumDns.Fallback.Isolated
import FerrumDns.Server

/-! Invariants of the query context through whole pipelines. What is asked is that each
plugin that calls no other one keeps the invariant, and so do forking, merging and
refusing; then it holds wherever a pipeline is suspended or ends, for any nesting of
sequences and fallbacks and any outcome of their timers and races. -/

namespace FerrumDns

open Prog Dnsutil

/-- `I` is kept by everything that happens to a context outside sequences and fallbacks, where a
plugin may rely on what is relied on of its call, and `W` holds of the writes that a sequence
collects. -/
structure Leaves [Crates] (reg : Registry) (C : Contract QueryContext Eff Eff.Answer)
    (I : QueryContext → Prop) (W : Write → Prop) : Prop where
  held : ∀ {ctx}, C.held ctx ↔ I ctx
  call : ∀ {p ctx}, I ctx → C.guar (.call p ctx)
  count : ∀ k, C.guar (.count k)
  clock : C.guar .now ∧ ∀ d, C.guar (.timer d)
  overflow : C.guar .overflow
  traced : ∀ {ctx}, I ctx → ∀ plugin event, I (ctx.pushTrace plugin event)
  reject : ∀ {ctx rcode}, I ctx → I (ctx.reject rcode)
  builtin : ∀ {b ctx}, I ctx → I (Builtin.apply b ctx).1
  redirect : ∀ {r ctx}, C.rely (.call (.redirect r) ctx) () → I ctx → I (r.exec ctx)
  ecs : ∀ {e ctx}, C.rely (.call (.ecs e) ctx) () → I ctx → I (e.exec ctx)
  noEcs : ∀ {n ctx}, I ctx → I (NoEcs.exec n ctx)
  hosts : ∀ {t ctx}, I ctx → I (Hosts.exec t ctx)
  forward : ∀ {f ctx}, I ctx → (Forward.exec f ctx).Sat C fun o => I o.1
  fork : ∀ {ctx}, I ctx → I ctx.fork
  absorb : ∀ {ctx other}, I ctx → I other → I (ctx.absorb other)
  cache : ∀ {c ctx}, I ctx → (Cache.exec c ctx).Sat C fun o => I o.1
  note : ∀ {tag c ctx lookup}, reg.caches tag = some c → I ctx →
    Cache.snapshot c ctx = some lookup → W (c, lookup)
  store : ∀ {c lookup ctx}, I ctx → W (c, lookup) →
    (Cache.storeLookup c ctx lookup).Sat C fun _ => True

/-! ### Asking upstream -/

namespace Forward

variable {C : Contract QueryContext Eff Eff.Answer} {I : QueryContext → Prop} {f : Forward}

/-- Asking upstream keeps an invariant if taking an answer that can be relied on does. -/
theorem exec_sat (hheld : ∀ {ctx}, I ctx → C.held ctx) (hcount : ∀ k, C.guar (.count k))
    (htraced : ∀ {ctx}, I ctx → ∀ event, event = "ok" ∨ event = "err" →
      I (ctx.pushTrace f.tag event))
    (hask : ∀ {ctx ups}, I ctx → C.guar (.exchange ups ctx.query))
    (htook : ∀ {ctx ups i msg}, I ctx → C.rely (.exchange ups ctx.query) (i, .ok msg) →
      I (f.took ctx msg)) {ctx : QueryContext} (hi : I ctx) :
    (f.exec ctx).Sat C fun o => I o.1 := by
  have counted (k : Counter) : (Run.count k).Sat C fun _ => True := ⟨hcount k, fun _ _ => trivial⟩
  have took {event : String} (he : event = "ok" ∨ event = "err") {ups : List Upstream}
      {i : Fin ups.length} {msg : Message} (hr : C.rely (.exchange ups ctx.query) (i, .ok msg)) :
      I (f.took (ctx.pushTrace f.tag event) msg) :=
    htook (htraced hi event he) (by rw [QueryContext.pushTrace_query]; exact hr)
  have single (up : Upstream) : (f.single ctx ctx.query up).Sat C fun o => I o.1 := by
    refine ⟨hheld hi, hask hi, fun r hr => ?_⟩
    obtain ⟨i, r⟩ := r
    cases r with
    | error e => exact (counted _).bind fun _ _ => htraced hi _ (.inr rfl)
    | ok msg =>
      dsimp only
      split_ifs
      · exact (counted _).bind fun _ _ => took (.inl rfl) hr
      · exact (counted _).bind fun _ _ => took (.inr rfl) hr
  have race (n : ℕ) (pending : List Upstream) (last : Option Message)
      (hlast : I ((last.map (f.took ctx)).getD ctx)) :
      (f.race ctx ctx.query n pending last).Sat C fun o => I o.1 := by
    induction n generalizing pending last with
    | zero => exact htraced hlast _ (.inr rfl)
    | succ n ih =>
      cases pending with
      | nil => exact htraced hlast _ (.inr rfl)
      | cons up pending =>
        refine ⟨hheld hi, hask hi, fun r hr => ?_⟩
        obtain ⟨i, r⟩ := r
        cases r with
        | error e => exact (counted _).bind fun _ _ => ih _ _ hlast
        | ok msg =>
          dsimp only
          split_ifs
          · exact (counted _).bind fun _ _ => took (.inl rfl) hr
          · exact (counted _).bind fun _ _ => ih _ _ (htook hi hr)
  simp only [exec]
  split_ifs
  · exact single _
  · exact race _ _ _ hi

end Forward

/-! ### Sequences -/

namespace Sequence

/-- `I` is kept by what a sequence does around the plugins it calls, if its built-in steps are among
`B`, and `W` holds of the writes it collects. -/
structure Preserves [Crates] (reg : Registry) (C : Contract QueryContext Eff Eff.Answer)
    (B : Builtin → Prop) (I : QueryContext → Prop) (W : Write → Prop) : Prop where
  traced : ∀ {ctx}, I ctx → ∀ self event, event = "exec" ∨ event = "builtin" →
    I (ctx.pushTrace self event)
  builtin : ∀ {b ctx}, B b → I ctx → I (Builtin.apply b ctx).1
  note : ∀ {tag c ctx lookup}, reg.caches tag = some c → I ctx →
    Cache.snapshot c ctx = some lookup → W (c, lookup)
  store : ∀ {c lookup ctx}, I ctx → W (c, lookup) →
    (Cache.storeLookup c ctx lookup).Sat C fun _ => True

namespace Preserves

variable [Crates] {reg : Registry} {C : Contract QueryContext Eff Eff.Answer} {B : Builtin → Prop}
  {I : QueryContext → Prop} {W : Write → Prop} {call : Executable → QueryContext → Run Outcome}

theorem store_sat (h : Preserves reg C B I W) {ctx : QueryContext} (hi : I ctx) {writes : List Write}
    (hw : ∀ w ∈ writes, W w) : (Sequence.store ctx writes).Sat C fun _ => True := by
  induction writes with
  | nil => trivial
  | cons w writes ih =>
    exact (h.store hi (hw w (by simp))).bind fun _ _ => ih fun w' hw' => hw w' (by simp [hw'])

theorem finish_sat (h : Preserves reg C B I W) {ctx : QueryContext} (hi : I ctx) {writes : List Write}
    (hw : ∀ w ∈ writes, W w) (a : Action) :
    (Sequence.finish ctx writes a).Sat C fun o => I o.1 :=
  (h.store_sat hi hw).bind fun _ _ => hi

theorem noteCache_writes (h : Preserves reg C B I W) {ctx : QueryContext} (hi : I ctx) (tag : Tag) :
    ∀ w ∈ Sequence.noteCache reg tag ctx, W w := by
  intro w hw
  rw [Sequence.noteCache] at hw
  cases hc : reg.caches tag with
  | none => simp [hc] at hw
  | some c =>
    simp only [hc, Option.mem_toList, Option.map_eq_some_iff] at hw
    obtain ⟨lookup, hs, rfl⟩ := hw
    exact h.note hc hi hs

variable (hcall : ∀ {tag p ctx}, reg.getExec tag = .ok p → I ctx →
  (call p ctx).Sat C fun o => I o.1)

include hcall

theorem callTag_sat (h : Preserves reg C B I W) {before ctx : QueryContext} (hb : I before) (hi : I ctx)
    (tag : Tag) : (Sequence.callTag reg call before tag ctx).Sat C fun o =>
      (∀ w ∈ o.1, W w) ∧ I o.2.1 := by
  rw [Sequence.callTag]
  cases hp : reg.getExec tag with
  | error e => exact ⟨by simp, hi⟩
  | ok p => exact (hcall hp hi).bind fun o ho => ⟨h.noteCache_writes hb tag, ho⟩

theorem perform_sat (h : Preserves reg C B I W) {ctx : QueryContext} (hi : I ctx) (self : Tag) {x : Exec}
    (hx : ∀ b, x = .Builtin b → B b) :
    (Sequence.perform reg call self ctx x).Sat C fun o => (∀ w ∈ o.1, W w) ∧ I o.2.1 := by
  cases x with
  | Builtin b => exact ⟨by simp, h.builtin (hx b rfl) (h.traced hi self _ (.inr rfl))⟩
  | Plugin tag =>
    rw [Sequence.perform]
    cases reg.getExec tag with
    | error e => exact ⟨by simp, hi⟩
    | ok p => exact h.callTag_sat hcall hi (h.traced hi self _ (.inl rfl)) tag

theorem loop_sat (h : Preserves reg C B I W) (self : Tag) {steps : List Step}
    (hsteps : ∀ step ∈ steps, ∀ b, step.exec = .Builtin b → B b) {writes : List Write}
    {ctx : QueryContext} (hi : I ctx) (hw : ∀ w ∈ writes, W w) :
    (Sequence.loop reg call self steps writes ctx).Sat C fun o => I o.1 := by
  induction steps generalizing writes ctx with
  | nil => exact h.finish_sat hi hw _
  | cons step steps ih =>
    obtain ⟨hstep, hrest⟩ := List.forall_mem_cons.1 hsteps
    rw [Sequence.loop]
    split_ifs
    · refine (h.perform_sat hcall hi self hstep).bind ?_
      rintro ⟨new, ctx, result⟩ ⟨hnew, hi⟩
      have hw' : ∀ w ∈ writes ++ new, W w := fun w hm =>
        (List.mem_append.1 hm).elim (hw w) (hnew w)
      cases result with
      | error e => exact hi
      | ok a =>
        cases a with
        | Continue => exact ih hrest hi hw'
        | Accept => exact h.finish_sat hi hw' _
        | Return => exact h.finish_sat hi hw' _
        | Goto tag =>
          refine (h.callTag_sat hcall hi hi tag).bind ?_
          rintro ⟨last, ctx, result⟩ ⟨hlast, hi⟩
          cases result with
          | error e => exact hi
          | ok a =>
            exact h.finish_sat hi (fun w hm => (List.mem_append.1 hm).elim (hw' w) (hlast w)) a
    · exact ih hrest hi hw

end Preserves

end Sequence

namespace Leaves

variable [Crates] {reg : Registry} {C : Contract QueryContext Eff Eff.Answer} {I : QueryContext → Prop}
  {W : Write → Prop}

theorem count_sat (h : Leaves reg C I W) (k : Counter) : (Run.count k).Sat C fun _ => True :=
  ⟨h.count k, fun _ _ => trivial⟩

/-- What sequences need is kept. -/
theorem preserves (h : Leaves reg C I W) : Sequence.Preserves reg C (fun _ => True) I W where
  traced hi self event _ := h.traced hi self event
  builtin _ hi := h.builtin hi
  note := h.note
  store := h.store

theorem fallback_sat {call : Executable → QueryContext → Run Outcome}
    (hcall : ∀ p ctx, I ctx → (call p ctx).Sat C fun o => I o.1) (h : Leaves reg C I W)
    (f : Fallback) {ctx : QueryContext} (hi : I ctx) : (f.exec reg call ctx).Sat C fun o => I o.1 := by
  have taken (event : String) (o : Outcome) (ho : I o.1) :
      I ((ctx.pushTrace f.tag event).absorb o.1) := h.absorb (h.traced hi _ _) ho
  exact Fallback.exec_sat h.clock (fun pctx a => taken "primary" (pctx, .ok a)) (taken "secondary")
    (h.held.2 hi) (h.held.2 (h.traced hi _ _)) (fun _ _ _ _ => hi)
    fun _ p _ _ => (hcall p _ (h.fork hi)).loosen

/-! ### Whole pipelines -/

/-- Every plugin of every registry keeps the invariant. -/
theorem exec_sat (h : Leaves reg C I W) (depth : ℕ) (p : Executable)
    (ctx : QueryContext) (hi : I ctx) : (p.exec reg depth ctx).Sat C fun o => I o.1 := by
  induction depth generalizing p ctx with
  | zero => exact ⟨h.overflow, fun r => r.elim⟩
  | succ depth ih =>
    refine ⟨h.call hi, fun _ hr => ?_⟩
    cases p with
    | blackhole b => exact h.reject hi
    | redirect r => exact h.redirect hr hi
    | ecs e => exact h.ecs hr hi
    | noEcs n => exact h.noEcs hi
    | hosts t => exact h.hosts hi
    | forward f => exact h.forward hi
    | cache c => exact h.cache hi
    | sequence s =>
      exact h.preserves.loop_sat (fun _ => ih _ _) s.tag (fun _ _ _ _ => trivial) hi (by simp)
    | fallback f => exact fallback_sat ih h f hi

/-- The context a request is concluded with keeps the invariant. -/
theorem keeps_recover (h : Leaves reg C I W) {r : Except QueryContext Outcome}
    (hr : C.Timed (fun o => I o.1) r) : I (Server.recover r) := by
  match r with
  | .ok (ctx, .ok a) => exact hr
  | .ok (ctx, .error e) =>
    rw [Server.recover]
    split_ifs
    · exact hr
    · exact h.reject hr
  | .error ctx => exact h.reject (h.held.1 hr)

/-- A request that was not dropped ends with the reply made from a context that keeps the
invariant. -/
theorem handle_sat (h : Leaves reg C I W) (depth : ℕ) (entry : Tag)
    (ctx : QueryContext) (hi : I ctx) (hb : I (ctx.beginPipeline entry)) :
    (Server.handle reg depth entry ctx).Sat C fun o =>
      o.2 = .ok () → classifyIncoming ctx.query ≠ .Drop → ∃ c, I c ∧ o.1 = Server.finalized c := by
  have conclude {c : QueryContext} (hc : I c) : (Server.conclude c).Sat C fun o =>
      o.2 = .ok () → classifyIncoming ctx.query ≠ .Drop → ∃ c, I c ∧ o.1 = Server.finalized c :=
    (h.count_sat _).bind fun _ _ => (h.count_sat _).bind fun _ _ _ _ => ⟨c, hc, rfl⟩
  rw [Server.handle]
  split
  · next hd => exact fun _ hn => absurd hd hn
  · exact conclude (h.reject hi)
  · dsimp only
    cases reg.getExec entry with
    | error e => exact fun he => by cases he
    | ok p => exact (h.exec_sat depth p _ hb).timeout.bind fun r hr => conclude (h.keeps_recover hr)

end Leaves

end FerrumDns
