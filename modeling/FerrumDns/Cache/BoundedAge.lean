import FerrumDns.Sample
import FerrumDns.Pipeline.Tasks

/-! No response read from a cache is written to one. A context that is not marked
as served from a cache holds a response that another step installed, through every
edit, fork and merge; a write-back looks at that mark. So an entry is as old as the
response of the step that made it, however often it is served. -/

namespace FerrumDns

open Prog Resolver

namespace BoundedAge

/-- A response not marked as served from a cache was installed by a step other than a cache hit. -/
structure Own (ctx : QueryContext) : Prop where
  known : ctx.response.isSome → ctx.source.isSome
  notHit : ctx.servedFromCache = false → ∀ s, ctx.source = some s → s.isCacheHit = false

theorem own_new (q : Message) (peer : Option IpAddr) (proto : ClientProto) (traced : Bool) :
    Own { QueryContext.new q peer proto with traceEnabled := traced } :=
  ⟨nofun, nofun⟩

theorem own_cloneForLazy (ctx : QueryContext) : Own ctx.cloneForLazy := by
  rw [QueryContext.cloneForLazy]
  cases ctx.entryState <;> exact ⟨nofun, nofun⟩

theorem own_edit {ctx ctx' : QueryContext} (h : Edit ctx ctx') (ho : Own ctx) : Own ctx' := by
  cases h with
  | trace plugin event => exact ⟨by simpa using ho.known, by simpa using ho.notHit⟩
  | respond source msg hs => exact ⟨fun _ => rfl, fun _ s h => Option.some.inj h ▸ hs⟩
  | dropResponse => exact ⟨nofun, nofun⟩
  | clampTtl low high =>
    exact ⟨fun h => ho.known (by simpa [QueryContext.applyTtlClamp] using h), ho.notHit⟩
  | filter keep =>
    exact ⟨fun h => ho.known (by simpa [QueryContext.filterAnswers] using h), ho.notHit⟩
  | rewrite name =>
    obtain ⟨_, _, hr⟩ := ctx.rewriteName_eq name
    rw [hr]
    exact ⟨ho.known, ho.notHit⟩
  | _ => exact ⟨ho.known, ho.notHit⟩

variable [Crates]

/-- The entry is the response that a step other than a cache hit installed in some context, rebound
to the request it is stored for. -/
def Installed (lookup : CacheLookup) (source : Option Source) (e : Entry) : Prop :=
  ∃ (ctx : QueryContext) (resp : Message) (s : Source), ctx.source = source ∧ source = some s ∧
    s.isCacheHit = false ∧
    ctx.responseForQuery lookup.query lookup.rewriteStart = some resp ∧
    Cache.admits resp = some e.wire

/-- Insertions are of installed responses, refreshes start from own contexts. -/
def contract : Contract QueryContext Eff Eff.Answer where
  guar
    | .insert _ lookup source e => Installed lookup source e
    | .kick _ _ bg _ => Own bg
    | _ => True
  rely _ _ := True
  held := Own

theorem preserved : Preserved contract Own fun _ => True where
  held := .rfl
  call _ := trivial
  count _ := trivial
  exchange _ _ := trivial
  clock := ⟨trivial, fun _ => trivial⟩
  overflow := trivial
  edit := own_edit
  attach _ _ ho _ := ⟨ho.known, ho.notHit⟩
  fork _ := ⟨nofun, nofun⟩
  absorb _ ho := ⟨ho.known, ho.notHit⟩
  cache {c ctx} ho := by
    refine Cache.exec_sat (fun _ => trivial) trivial (fun _ _ _ => trivial)
      (fun _ _ _ => own_cloneForLazy ctx) ho (fun _ _ => own_edit (.trace _ _) ho) ?_
    exact fun _ _ _ => ⟨fun _ => rfl, nofun⟩
  note _ _ := trivial
  store {c lookup ctx} ho _ := by
    refine Cache.storeLookup_sat trivial fun response wire now hs _ hr ha => ?_
    obtain ⟨r, hresp, -⟩ := Option.map_eq_some_iff.1 hr
    obtain ⟨s, hsome⟩ := Option.isSome_iff_exists.1 (ho.known (by simp [hresp]))
    exact ⟨ctx, response, s, rfl, hsome, ho.notHit hs s hsome, hr, ha⟩

theorem starts : Starts contract Own where
  upgrade := trivial
  entered {ctx} entry ho := by
    rw [QueryContext.beginPipeline]
    split_ifs
    · exact ⟨ho.known, ho.notHit⟩
    · exact ho
  request := own_new
  refresh hg := hg

/-- In every run of the resolver each entry in a cache was inserted in the run, with a response that
a step other than a cache hit installed; and one found at the end of a stretch of the run was there,
the same in every field, at its start, or was inserted in between. -/
theorem bounded_age (reg : Registry) (depth : ℕ) (p q r : State) (tr tr' : Trace) (hp : Fresh p)
    (h : Runs reg depth p tr q) (h' : Runs reg depth q tr' r) (tag : Tag) (key : Text) (e : Entry)
    (hs : r.world.Stores tag key e) :
    (∃ c lookup source, ⟨.insert c lookup source e, ()⟩ ∈ tr ++ tr' ∧ c.tag = tag ∧
      lookup.key = key ∧ Installed lookup source e) ∧
    (q.world.Stores tag key e ∨ ∃ ev ∈ tr', Inserts tag key e ev) := by
  refine ⟨?_, stores_run h' hs⟩
  rcases stores_run (h.trans h') hs with hs | ⟨⟨ev, r⟩, hev, c, lookup, source, rfl, htag, hkey⟩
  · exact absurd hs (hp.not_stores tag key e)
  · exact ⟨c, lookup, source, hev, htag, hkey,
      preserved.promised starts (fun _ _ => trivial) hp (h.trans h') _ hev⟩

omit [Crates] in
theorem bounded_age_first : ∃ tr, ∃ r : State, @Runs Sample.codec Sample.resolver 4
      ⟨Sample.world, []⟩ tr r ∧ r.world.Stores "cache" Sample.key Sample.entry ∧
    ∃ c lookup source, ⟨.insert c lookup source Sample.entry, ()⟩ ∈ tr ∧ c.tag = "cache" ∧
      lookup.key = Sample.key ∧ @Installed Sample.codec lookup source Sample.entry := by
  obtain ⟨tr, w, hp, -, hl⟩ := Sample.first_stores
  have hrun := Sample.played_runs hp []
  have hs : World.Stores w "cache" Sample.key Sample.entry := CacheState.stores_of_found hl
  exact ⟨tr, _, hrun, hs, (@bounded_age Sample.codec Sample.resolver 4 _ _ _ [] tr Sample.fresh
    (.refl _) hrun "cache" Sample.key Sample.entry hs).1⟩

end BoundedAge

end FerrumDns
