import FerrumDns.Pipeline.Edit
import FerrumDns.Pipeline.Leaves

/-! Invariants that every elementary change keeps. Given that, and what the steps that
touch shared state promise, they hold through whole pipelines. -/

namespace FerrumDns

open Prog Dnsutil

/-! ### The cache's own actions -/

namespace Cache

variable [Crates] {C : Contract QueryContext Eff Eff.Answer} {c : Cache} {ctx : QueryContext}

/-- A write-back promises what its insertion promises, if it comes to one. -/
theorem storeLookup_sat {lookup : CacheLookup} (hnow : C.guar .now)
    (hins : ∀ response wire now, ctx.servedFromCache = false →
      (∀ r, ctx.response = some r → cacheableEdns r = true) →
      ctx.responseForQuery lookup.query lookup.rewriteStart = some response →
      admits response = some wire →
      C.guar (.insert c lookup ctx.source (c.entryAt wire (minTtl response) now))) :
    (c.storeLookup ctx lookup).Sat C fun _ => True := by
  rw [storeLookup]
  split
  · trivial
  next hs =>
    simp only [Bool.or_eq_true, not_or, Bool.not_eq_true] at hs
    have hedns (r : Message) (hr : ctx.response = some r) : cacheableEdns r = true := by
      simpa [hr] using hs.2
    cases hr : ctx.responseForQuery lookup.query lookup.rewriteStart with
    | none => trivial
    | some response =>
      simp only [store]
      cases ha : admits response with
      | none => trivial
      | some wire =>
        exact ⟨hnow, fun now _ => ⟨hins response wire now hs.1 hedns hr ha, fun _ _ => trivial⟩⟩

/-- Executing a cache step ends in a context with a miss on its trace, or in one that holds the served
form of an entry the look-up was answered with. -/
theorem exec_sat_of_hit {I : QueryContext → Prop} (hcount : ∀ k, C.guar (.count k))
    (hnow : C.guar .now)
    (hlookup : ∀ key, keyOf ctx.query c.cacheEverything = some key → ctx.skipCache = false →
      C.guar (.lookup c key ctx.query))
    (hkick : ∀ key entry, ctx.skipCache = false →
      C.guar (.kick c key ctx.cloneForLazy (ctx.pipelineEntry.getD entry)))
    (hi : I ctx) (hmiss : I (ctx.pushTrace c.tag "miss"))
    (hhit : ∀ event key hit msg now, event = "hit" ∨ event = "lazy_hit" → ctx.skipCache = false →
      C.rely (.lookup c key ctx.query) (some hit) → decode hit.wire = .ok msg → C.rely .now now →
      I (c.withHit (ctx.pushTrace c.tag event) (c.served msg hit now))) :
    (c.exec ctx).Sat C fun o => I o.1 := by
  have counted (k : Counter) : (Run.count k).Sat C fun _ => True := ⟨hcount k, fun _ _ => trivial⟩
  have missed : (c.miss ctx).Sat C fun o => I o.1 := (counted _).bind fun _ _ => hmiss
  rw [exec]
  cases hk : keyOf ctx.query c.cacheEverything with
  | none => exact hi
  | some key =>
    dsimp only
    split_ifs with hs
    · exact missed
    · simp only [Bool.not_eq_true] at hs
      refine ⟨hlookup key hk hs, fun hit hr => ?_⟩
      change Option Hit at hit
      cases hit with
      | none => exact missed
      | some hit =>
        dsimp only
        cases hd : decode hit.wire with
        | error e => exact missed
        | ok msg =>
          refine ⟨hnow, fun now hn => ?_⟩
          have kicked : (c.kickRefresh (ctx.pushTrace c.tag "lazy_hit") key).Sat C
              fun _ => True := by
            rw [kickRefresh, QueryContext.pushTrace_skipCache, if_neg (by simp [hs]),
              QueryContext.pushTrace_cloneForLazy, QueryContext.pushTrace_pipelineEntry]
            cases c.refresh with
            | none => trivial
            | some entry => exact ⟨hkick _ _ hs, fun _ _ => trivial⟩
          simp only [serve]
          split_ifs
          · exact (counted _).bind fun _ _ => kicked.bind fun _ _ => (counted _).bind fun _ _ =>
              hhit _ _ _ _ _ (.inr rfl) hs hr hd hn
          · exact (counted _).bind fun _ _ => hhit _ _ _ _ _ (.inl rfl) hs hr hd hn

/-- Executing a cache step ends in a traced context, or in one that holds the served message. -/
theorem exec_sat {I : QueryContext → Prop} (hcount : ∀ k, C.guar (.count k)) (hnow : C.guar .now)
    (hlookup : ∀ key, keyOf ctx.query c.cacheEverything = some key → ctx.skipCache = false →
      C.guar (.lookup c key ctx.query))
    (hkick : ∀ key entry, ctx.skipCache = false →
      C.guar (.kick c key ctx.cloneForLazy (ctx.pipelineEntry.getD entry)))
    (hi : I ctx) (htrace : ∀ plugin event, I (ctx.pushTrace plugin event))
    (hhit : ∀ event msg, ctx.skipCache = false → I (c.withHit (ctx.pushTrace c.tag event) msg)) :
    (c.exec ctx).Sat C fun o => I o.1 :=
  exec_sat_of_hit hcount hnow hlookup hkick hi (htrace _ _) fun event _ _ _ _ _ hs _ _ _ =>
    hhit event _ hs

end Cache

/-! ### Any invariant -/

/-- `I` is kept by everything a plugin does to its own context, where a redirect may rely on what is
relied on of its call, and `W` holds of the writes that a sequence collects. -/
structure Guarded [Crates] (C : Contract QueryContext Eff Eff.Answer) (I : QueryContext → Prop)
    (W : Write → Prop) : Prop where
  held : ∀ {ctx}, C.held ctx ↔ I ctx
  call : ∀ {p ctx}, I ctx → C.guar (.call p ctx)
  count : ∀ k, C.guar (.count k)
  clock : C.guar .now ∧ ∀ d, C.guar (.timer d)
  exchange : ∀ ups q, C.guar (.exchange ups q)
  overflow : C.guar .overflow
  amend : ∀ {ctx ctx'}, Amend ctx ctx' → I ctx → I ctx'
  redirect : ∀ {r ctx}, C.rely (.call (.redirect r) ctx) () → I ctx → I (r.exec ctx)
  attach : ∀ {e ctx ctx' cs}, C.rely (.call (.ecs e) ctx) () → e.attaches ctx = some cs → I ctx' →
    ctx'.query = ctx.query → (ecsOf ctx.query = none → ctx'.stripEcsOnReply = true) →
    I (Ecs.attach ctx' cs)
  fork : ∀ {ctx}, I ctx → I ctx.fork
  absorb : ∀ {ctx other}, I ctx → I other → I (ctx.absorb other)
  cache : ∀ {c ctx}, I ctx → (Cache.exec c ctx).Sat C fun o => I o.1
  note : ∀ {c ctx lookup}, I ctx → Cache.snapshot c ctx = some lookup → W (c, lookup)
  store : ∀ {c lookup ctx}, I ctx → W (c, lookup) →
    (Cache.storeLookup c ctx lookup).Sat C fun _ => True

/-- `I` is kept by everything a plugin does to its own context, and `W` holds of the writes that a
sequence collects. -/
structure Preserved [Crates] (C : Contract QueryContext Eff Eff.Answer) (I : QueryContext → Prop)
    (W : Write → Prop) : Prop where
  held : ∀ {ctx}, C.held ctx ↔ I ctx
  call : ∀ {p ctx}, I ctx → C.guar (.call p ctx)
  count : ∀ k, C.guar (.count k)
  clock : C.guar .now ∧ ∀ d, C.guar (.timer d)
  exchange : ∀ ups q, C.guar (.exchange ups q)
  overflow : C.guar .overflow
  edit : ∀ {ctx ctx'}, Edit ctx ctx' → I ctx → I ctx'
  attach : ∀ {e ctx ctx' cs}, C.rely (.call (.ecs e) ctx) () → e.attaches ctx = some cs → I ctx' →
    ctx'.query = ctx.query → I (Ecs.attach ctx' cs)
  fork : ∀ {ctx}, I ctx → I ctx.fork
  absorb : ∀ {ctx other}, I ctx → I other → I (ctx.absorb other)
  cache : ∀ {c ctx}, I ctx → (Cache.exec c ctx).Sat C fun o => I o.1
  note : ∀ {c ctx lookup}, I ctx → Cache.snapshot c ctx = some lookup → W (c, lookup)
  store : ∀ {c lookup ctx}, I ctx → W (c, lookup) →
    (Cache.storeLookup c ctx lookup).Sat C fun _ => True

namespace Guarded

variable [Crates] {C : Contract QueryContext Eff Eff.Answer} {I : QueryContext → Prop}
  {W : Write → Prop}

theorem amends (h : Guarded C I W) {ctx ctx' : QueryContext} (he : Amends ctx ctx') (hi : I ctx) :
    I ctx' :=
  he.keep h.amend hi

/-! ### Leaves -/

theorem keeps_ecs (h : Guarded C I W) {e : Ecs} {ctx : QueryContext} (hi : I ctx)
    (hr : C.rely (.call (.ecs e) ctx) ()) : I (e.exec ctx) := by
  rcases e.exec_cases ctx with ⟨_, he⟩ | ⟨cs, ctx', hcs, he, hq, hs, he'⟩
  · exact h.amends he hi
  · exact h.amends he' (h.attach hr hcs (h.amends he hi) hq hs)

theorem leaves (h : Guarded C I W) (reg : Registry) : Leaves reg C I W where
  held := h.held
  call := h.call
  count := h.count
  clock := h.clock
  overflow := h.overflow
  traced hi plugin event := h.amend (trace_amend _ plugin event) hi
  reject hi := h.amend (reject_amend _ _) hi
  builtin {b ctx} hi := h.amends (b.apply_amends ctx) hi
  redirect := h.redirect
  ecs hr hi := h.keeps_ecs hi hr
  noEcs {n ctx} hi := h.amends (n.exec_amends ctx) hi
  hosts {t ctx} hi := h.amends (t.exec_amends ctx) hi
  forward hi := Forward.exec_sat h.held.2 h.count
    (fun hi event _ => h.amend (trace_amend _ _ event) hi) (fun _ => h.exchange _ _)
    (fun hi _ => h.amend (respond_amend _ _ _ rfl) hi) hi
  fork := h.fork
  absorb := h.absorb
  cache := h.cache
  note _ := h.note
  store := h.store

end Guarded

namespace Preserved

variable [Crates] {C : Contract QueryContext Eff Eff.Answer} {I : QueryContext → Prop}
  {W : Write → Prop}

/-- An invariant that every rewrite keeps needs to rely on nothing. -/
theorem guarded (h : Preserved C I W) : Guarded C I W where
  held := h.held
  call := h.call
  count := h.count
  exchange := h.exchange
  clock := h.clock
  overflow := h.overflow
  amend ha := h.edit ha.edit
  redirect {r ctx} _ hi := (r.exec_edits ctx).keep h.edit hi
  attach hr ha hi hq _ := h.attach hr ha hi hq
  fork := h.fork
  absorb := h.absorb
  cache := h.cache
  note := h.note
  store := h.store

theorem exec_sat (h : Preserved C I W) (reg : Registry) (depth : ℕ) (p : Executable)
    (ctx : QueryContext) (hi : I ctx) : (p.exec reg depth ctx).Sat C fun o => I o.1 :=
  (h.guarded.leaves reg).exec_sat depth p ctx hi

theorem handle_sat (h : Preserved C I W) (reg : Registry) (depth : ℕ) (entry : Tag)
    (ctx : QueryContext) (hi : I ctx) (hb : I (ctx.beginPipeline entry)) :
    (Server.handle reg depth entry ctx).Sat C fun o =>
      o.2 = .ok () → classifyIncoming ctx.query ≠ .Drop → ∃ c, I c ∧ o.1 = Server.finalized c :=
  (h.guarded.leaves reg).handle_sat depth entry ctx hi hb

end Preserved

/-! ### Invariants that need no promise -/

/-- `I` is kept by everything that can happen to a context. What a call is made with may be relied
on; nothing else is promised but that every call is made with such a context. -/
structure Kept [Crates] (rely : (e : Eff) → e.Answer → Prop) (I : QueryContext → Prop) : Prop where
  amend : ∀ {ctx ctx'}, Amend ctx ctx' → I ctx → I ctx'
  redirect : ∀ {r ctx}, rely (.call (.redirect r) ctx) () → I ctx → I (r.exec ctx)
  attach : ∀ {e ctx ctx' cs}, rely (.call (.ecs e) ctx) () → e.attaches ctx = some cs → I ctx' →
    ctx'.query = ctx.query → (ecsOf ctx.query = none → ctx'.stripEcsOnReply = true) →
    I (Ecs.attach ctx' cs)
  fork : ∀ {ctx}, I ctx → I ctx.fork
  absorb : ∀ {ctx other}, I ctx → I other → I (ctx.absorb other)
  hit : ∀ {c ctx msg}, I ctx → I (Cache.withHit c ctx msg)

namespace Kept

variable [Crates] {rely : (e : Eff) → e.Answer → Prop} {I : QueryContext → Prop}

/-- `I` holds of every context a plugin starts with and of every one a request can be left with. -/
@[reducible] def contract (rely : (e : Eff) → e.Answer → Prop) (I : QueryContext → Prop) :
    Contract QueryContext Eff Eff.Answer where
  guar
    | .call _ ctx => I ctx
    | _ => True
  rely := rely
  held := I

theorem guarded (h : Kept rely I) : Guarded (contract rely I) I fun _ => True where
  held := .rfl
  call hi := hi
  count _ := trivial
  exchange _ _ := trivial
  clock := ⟨trivial, fun _ => trivial⟩
  overflow := trivial
  amend := h.amend
  redirect := h.redirect
  attach := h.attach
  fork := h.fork
  absorb := h.absorb
  cache {c ctx} hi := by
    have traced (plugin event : String) : I (ctx.pushTrace plugin event) :=
      h.amend (trace_amend _ _ _) hi
    exact Cache.exec_sat (fun _ => trivial) trivial (fun _ _ _ => trivial) (fun _ _ _ => trivial) hi
      traced fun _ _ _ => h.hit (traced _ _)
  note _ _ := trivial
  store _ _ := Cache.storeLookup_sat trivial fun _ _ _ _ _ _ _ => trivial

/-- A request that is not dropped ends with the reply made from a context with the invariant. -/
theorem reply (h : Kept rely I) {reg : Registry} {depth : ℕ} {entry : Tag} {ctx ctx' : QueryContext}
    {tr : Trace} (hi : I ctx) (hb : I (ctx.beginPipeline entry))
    (he : Ends (Server.handle reg depth entry ctx) tr (ctx', .ok ()))
    (hr : ∀ ev ∈ tr, rely ev.1 ev.2) (hd : classifyIncoming ctx.query ≠ .Drop) :
    ∃ c, I c ∧ ctx' = Server.finalized c :=
  (((h.guarded.leaves reg).handle_sat depth entry ctx hi hb).ends he hr).2 rfl hd

/-- Every plugin a request calls starts with the invariant. -/
theorem called (h : Kept rely I) {reg : Registry} {depth : ℕ} {entry : Tag} {ctx : QueryContext}
    {tr : Trace} {o : QueryContext × Except Error Unit} (hi : I ctx) (hb : I (ctx.beginPipeline entry))
    (he : Ends (Server.handle reg depth entry ctx) tr o) (hr : ∀ ev ∈ tr, rely ev.1 ev.2)
    {p : Executable} {c : QueryContext} (hev : ⟨.call p c, ()⟩ ∈ tr) : I c :=
  (((h.guarded.leaves reg).handle_sat depth entry ctx hi hb).ends he hr).1 _ hev

/-- A sequence that starts with the invariant ends with it. -/
theorem run (h : Kept rely I) {reg : Registry} {depth : ℕ} {seq : Sequence} {ctx : QueryContext}
    {tr : Trace} {o : Outcome} (hi : I ctx)
    (he : Ends (seq.run reg (Executable.exec reg depth) ctx) tr o)
    (hr : ∀ ev ∈ tr, rely ev.1 ev.2) : I o.1 :=
  have hl := h.guarded.leaves reg
  have hloop := hl.preserves.loop_sat (fun _ => hl.exec_sat depth _ _) seq.tag
    (fun _ _ _ _ => trivial) hi (by simp)
  (hloop.ends he hr).2

end Kept

end FerrumDns
