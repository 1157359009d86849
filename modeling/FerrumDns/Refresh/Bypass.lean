import FerrumDns.Cache.Hit
import FerrumDns.Pipeline.Pass

/-! A refresh goes past the caches. The flag that tells it to do so survives every
edit, fork and merge, so no look-up and no further refresh happens anywhere in it, and
no response of it is marked as served from a cache. What it ends with is therefore
written to every cache whose step it executed, wherever the response can be stored. -/

namespace FerrumDns

open Prog Dnsutil Sequence

namespace Bypass

/-- The context passes caches by, and has no cached response unless `start` had one. -/
structure Kept (start ctx : QueryContext) : Prop where
  skip : ctx.skipCache = true
  own : start.servedFromCache = false → ctx.servedFromCache = false

theorem Kept.edit {start ctx ctx' : QueryContext} (he : Edit ctx ctx') (h : Kept start ctx) :
    Kept start ctx' := by
  cases he with
  | trace plugin event => exact ⟨by simpa using h.skip, by simpa using h.own⟩
  | respond source msg hs => exact ⟨h.skip, fun _ => rfl⟩
  | dropResponse => exact ⟨h.skip, fun _ => rfl⟩
  | rewrite name =>
    obtain ⟨_, _, hr⟩ := ctx.rewriteName_eq name
    rw [hr]
    exact ⟨h.skip, h.own⟩
  | _ => exact ⟨h.skip, h.own⟩

/-- Nothing is looked up, no refresh is started, and plugins are executed on kept contexts. -/
def Allowed (start : QueryContext) : Eff → Prop
  | .lookup _ _ _ | .kick _ _ _ _ => False
  | .call _ ctx => Kept start ctx
  | _ => True

variable [Crates]

def contract (start : QueryContext) : Contract QueryContext Eff Eff.Answer where
  guar := Allowed start
  rely _ _ := True
  held := Kept start

theorem preserved (start : QueryContext) :
    Preserved (contract start) (Kept start) fun _ => True where
  held := .rfl
  call h := h
  count _ := trivial
  exchange _ _ := trivial
  clock := ⟨trivial, fun _ => trivial⟩
  overflow := trivial
  edit := .edit
  attach _ _ h _ := ⟨h.skip, h.own⟩
  fork h := ⟨h.skip, fun _ => rfl⟩
  absorb _ h := ⟨h.skip, h.own⟩
  cache {c ctx} h := by
    have never {P : Prop} (hs : ctx.skipCache = false) : P := by simp [h.skip] at hs
    exact Cache.exec_sat (fun _ => trivial) trivial (fun _ _ => never) (fun _ _ => never) h
      (fun _ _ => h.edit (.trace _ _)) fun _ _ => never
  note _ _ := trivial
  store _ _ := Cache.storeLookup_sat trivial fun _ _ _ _ _ _ _ => trivial

/-- The final response and its wire form as they can be stored for a request. -/
def Admissible (final : QueryContext) (lookup : CacheLookup) (response : Message) (wire : Bytes) :
    Prop :=
  (∀ r, final.response = some r → Cache.cacheableEdns r) ∧
    final.responseForQuery lookup.query lookup.rewriteStart = some response ∧
      Cache.admits response = some wire

theorem written_of_admissible {final : QueryContext} {lookup : CacheLookup} {response : Message}
    {wire : Bytes} (hf : final.servedFromCache = false)
    (h : Admissible final lookup response wire) :
    Cache.written final lookup = some (response, wire) := by
  obtain ⟨hedns, hresp, hadm⟩ := h
  obtain ⟨r, hr, -⟩ := Option.map_eq_some_iff.1 hresp
  have hopen : (final.servedFromCache ||
      (final.response.map fun r => !Cache.cacheableEdns r).getD false) = false := by
    simp [hf, hr, hedns r hr]
  rw [Cache.written, hopen]
  simp [hresp, hadm]

/-- Every cache whose step a finished run executed gets what can be stored for it. -/
def Fills (reg : Registry) (vs : List Visit) (final : QueryContext) (own : Trace) : Prop :=
  ∀ tag before c lookup response wire, (tag, before) ∈ vs → reg.caches tag = some c →
    c.snapshot before = some lookup → Admissible final lookup response wire →
      ∃ now, ⟨.insert c lookup final.source (c.entryAt wire (minTtl response) now), ()⟩ ∈ own

variable {reg : Registry} {depth : ℕ}

theorem fills_run {seq : Sequence} {start ctx : QueryContext} {tr : Trace} {final : QueryContext}
    {a : Action} (hstart : start.servedFromCache = false) (hk : Kept start ctx)
    (h : Ends (seq.run reg (Executable.exec reg depth) ctx) tr (final, .ok a)) :
    ∃ inner own vs, tr = inner ++ own ∧
      Pass reg (Executable.exec reg depth) seq.tag seq.steps ctx inner vs (final, .ok a) ∧
      Fills reg vs final own := by
  obtain ⟨inner, own, vs, rfl, hpass, hown⟩ := run_pass h
  refine ⟨inner, own, vs, rfl, hpass, ?_⟩
  intro tag before c lookup response wire hv hc hs hadm
  have hfinal : Kept start final :=
    (hpass.keeps (preserved start) (fun _ _ => trivial) ((preserved start).exec_sat reg depth) hk).1
  have hwritten := written_of_admissible (hfinal.own hstart) hadm
  obtain ⟨tr', hstore, hsub⟩ := store_performs hown (notes_of_mem hv hc hs)
  rcases Cache.storeLookup_ends hstore with ⟨hnone, -⟩ | ⟨response', wire', now, hsome, rfl⟩
  · rw [hwritten] at hnone
    cases hnone
  · rw [hwritten] at hsome
    cases hsome
    exact ⟨now, hsub _ (by simp)⟩

/-- However far a pipeline gets from a context that passes caches by: it looks nothing up and starts
no refresh, every plugin in it starts from, is suspended in and ends with a context that passes
caches by and is not newly marked as cached, no cache step changes the response, and every sequence
run that ends without error fills the caches it executed. -/
theorem never_feeds (reg : Registry) (depth : ℕ) (p : Executable) (ctx : QueryContext) (tr : Trace)
    (q : Run Outcome) (hs : ctx.skipCache = true) (h : Leads (p.exec reg depth ctx) tr q) :
    (∀ ev ∈ tr, Allowed ctx ev.1) ∧ (∀ o, q = done o → Kept ctx o.1) ∧
    (∀ s k, q = await s k → Kept ctx s) ∧
    (∀ c ctx' tr' o, Kept ctx ctx' → Ends (Cache.exec c ctx') tr' o →
      o.1.response = ctx'.response) ∧
    ∀ depth' seq ctx' tr' final a, ctx.servedFromCache = false → Kept ctx ctx' →
      Ends (Sequence.run reg (Executable.exec reg depth') seq ctx') tr' (final, .ok a) →
        ∃ inner own vs, tr' = inner ++ own ∧
          Pass reg (Executable.exec reg depth') seq.tag seq.steps ctx' inner vs (final, .ok a) ∧
          Fills reg vs final own := by
  have hsat := (preserved ctx).exec_sat reg depth p ctx ⟨hs, id⟩
  obtain ⟨hev, hq⟩ := hsat.leads h fun _ _ => trivial
  refine ⟨hev, ?_, ?_, ?_, fun _ _ _ _ _ _ hstart hk hrun => fills_run hstart hk hrun⟩
  · rintro o rfl
    exact hq
  · rintro s k rfl
    exact hq.1
  · intro c ctx' tr' o hk ho
    rcases Cache.exec_ends ho with ⟨-, rfl | rfl⟩ | ⟨_, _, _, _, _, _, -, hskip, -⟩
    · rfl
    · simp
    · simp [hk.skip] at hskip

omit [Crates] in
/-- A refresh of the sample query finds nothing cached and stores its answer. -/
theorem never_feeds_refresh : ∃ tr o,
    Ends (@Executable.exec Sample.codec Sample.resolver 4 (.sequence Sample.main)
      Sample.context.cloneForLazy) tr o ∧ Kept Sample.context.cloneForLazy o.1 ∧
    ∀ ev ∈ tr, Allowed Sample.context.cloneForLazy ev.1 := by
  have h : ((@Executable.exec Sample.codec Sample.resolver 4 (.sequence Sample.main)
      Sample.context.cloneForLazy).play
        (@Resolver.oracle Sample.codec Sample.resolver 4 (Sample.answering Sample.answer)) false
          Sample.world).isSome := by decide +kernel
  obtain ⟨⟨tr, o, w, new⟩, hp⟩ := Option.isSome_iff_exists.1 h
  obtain ⟨hev, ho, -⟩ := @never_feeds Sample.codec Sample.resolver 4 _ _ tr _ rfl (play_ends hp)
  exact ⟨tr, o, play_ends hp, ho o rfl, hev⟩

end Bypass

end FerrumDns
