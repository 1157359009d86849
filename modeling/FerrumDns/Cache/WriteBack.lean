import FerrumDns.Pipeline.Pass
import FerrumDns.Sample

/-! What a sequence writes to caches on its own account. After its steps a run writes
back to the caches whose steps it executed, each under the key of the query just before
that step, with the final response rebound to that query. The list of rewrites only
grows, so what stands behind the position noted at the step was rewritten after it. -/

namespace FerrumDns

open Prog Dnsutil Sequence

namespace WriteBack

/-! ### Rewrites accumulate -/

/-- `ctx` has the rewrites of `start` and those made since. -/
def Extends (start ctx : QueryContext) : Prop := start.rewrites <+: ctx.rewrites

theorem Extends.edit {start ctx ctx' : QueryContext} (he : Edit ctx ctx') (h : Extends start ctx) :
    Extends start ctx' := by
  cases he with
  | trace plugin event => simpa [Extends] using h
  | rewrite name => exact h.trans (ctx.rewrites_rewriteName name)
  | _ => exact h

variable [Crates]

/-- Nothing is promised, and the rewrites of `start` stay. -/
def contract (start : QueryContext) : Contract QueryContext Eff Eff.Answer where
  guar _ := True
  rely _ _ := True
  held := Extends start

theorem preserved (start : QueryContext) :
    Preserved (contract start) (Extends start) fun _ => True where
  held := .rfl
  call _ := trivial
  count _ := trivial
  exchange _ _ := trivial
  clock := ⟨trivial, fun _ => trivial⟩
  overflow := trivial
  edit := .edit
  attach _ _ h _ := h
  fork h := h
  absorb _ h := h
  cache {c ctx} h := by
    refine Cache.exec_sat (fun _ => trivial) trivial (fun _ _ _ => trivial) (fun _ _ _ => trivial) h
      (fun _ _ => h.edit (.trace _ _)) fun event msg _ => ?_
    have htraced : Extends start (ctx.pushTrace c.tag event) := h.edit (.trace c.tag event)
    exact htraced
  note _ _ := trivial
  store _ _ := Cache.storeLookup_sat trivial fun _ _ _ _ _ _ _ => trivial

variable {reg : Registry} {depth : ℕ}

/-- The final context of a pass has the rewrites that a visit had, and those made since. -/
theorem extends_visit {self : Tag} {steps : List Step} {ctx : QueryContext} {tr : Trace}
    {vs : List Visit} {o : Outcome}
    (h : Pass reg (Executable.exec reg depth) self steps ctx tr vs o) :
    ∀ v ∈ vs, Extends v.2 o.1 := by
  have hcall (start : QueryContext) := (preserved start).exec_sat reg depth
  have since {steps : List Step} {ctx : QueryContext} {tr : Trace} {vs : List Visit} {o : Outcome}
      (h : Pass reg (Executable.exec reg depth) self steps ctx tr vs o) (x : Exec) :
      ∀ v ∈ visits ctx x, Extends v.2 o.1 := by
    have hfinal := (h.keeps (preserved ctx) (fun _ _ => trivial) (hcall ctx) (List.prefix_refl _)).1
    cases x with
    | Builtin b => simp [visits]
    | Plugin tag => simpa [visits] using hfinal
  induction h with
  | stop => simp
  | skip hm h ih => exact ih
  | next hm hp h ih =>
    intro v hv
    rcases List.mem_append.1 hv with hv | hv
    · exact since (.next hm hp h) _ v hv
    · exact ih v hv
  | @leave step steps ctx tr ws c r r' hm hp hr =>
    have hpass : Pass reg (Executable.exec reg depth) self (step :: steps) ctx tr _ _ :=
      .leave hm hp hr
    exact since hpass step.exec
  | @jump step steps ctx tr ws c tag tr' ws' o hm hp hc =>
    have hpass : Pass reg (Executable.exec reg depth) self (step :: steps) ctx _ _ _ :=
      .jump hm hp hc
    intro v hv
    rcases List.mem_append.1 hv with hv | hv
    · exact since hpass step.exec v hv
    · rw [List.mem_singleton.1 hv]
      have hpreserves := ((preserved c).guarded.leaves reg).preserves
      have hpre := List.prefix_refl c.rewrites
      have hcalled := (hpreserves.callTag_sat (fun _ => hcall c _ _) hpre hpre tag).ends hc
        fun _ _ => trivial
      exact hcalled.2.2

/-! ### The write-backs of a run -/

omit [Crates] in
/-- Only the aliases handed over are put before the answers. -/
theorem answers_bindResponse (response query : Message) (aliases : List (Name × Name)) :
    ∃ made, (QueryContext.bindResponse response query aliases).answers = made ++ response.answers ∧
      ∀ r ∈ made, ∃ hop ∈ aliases, r.name = hop.1 ∧ r.rdata = .CNAME hop.2 := by
  simp only [QueryContext.bindResponse]
  split_ifs
  · refine ⟨_, rfl, fun r hr => ?_⟩
    obtain ⟨hop, hhop, rfl⟩ := List.mem_map.1 hr
    refine ⟨hop, List.mem_of_mem_filter hhop, ?_⟩
    simp only [QueryContext.aliasRecord]
    split <;> exact ⟨rfl, rfl⟩
  · exact ⟨[], rfl, by simp⟩

/-- The insertion is the write-back of a visited cache step: its key and request are those of the
query just before the step, and what it stores is the final response rebound to that query, with
CNAME records put before the answers only for rewrites made after the step. -/
def OfVisit (reg : Registry) (vs : List Visit) (final : QueryContext) (c : Cache)
    (lookup : CacheLookup) (e : Entry) : Prop :=
  ∃ before response aliases made stored, (c.tag, before) ∈ vs ∧ reg.caches c.tag = some c ∧
    Cache.keyOf before.query c.cacheEverything = some lookup.key ∧ lookup.query = before.query ∧
    final.response = some response ∧ final.rewrites = before.rewrites ++ aliases ∧
    stored = QueryContext.bindResponse response before.query aliases ∧
    stored.answers = made ++ response.answers ∧
    (∀ r ∈ made, ∃ hop ∈ aliases, r.name = hop.1 ∧ r.rdata = .CNAME hop.2) ∧
    encode stored = .ok e.wire

theorem ofVisit_of_written {vs : List Visit} {final : QueryContext} {c : Cache}
    {lookup : CacheLookup} {response : Message} {wire : Bytes} {e : Entry}
    (hvs : ∀ v ∈ vs, Extends v.2 final) (hw : (c, lookup) ∈ notes reg vs)
    (hr : Cache.written final lookup = some (response, wire)) (he : e.wire = wire) :
    OfVisit reg vs final c lookup e := by
  obtain ⟨tag, before, hv, hc, hs⟩ := mem_notes hw
  obtain ⟨key, hkey, hl⟩ := Option.map_eq_some_iff.1 hs
  obtain rfl : c.tag = tag := reg.caches_tag tag c hc
  obtain ⟨aliases, hext⟩ := hvs _ hv
  dsimp only at hl hc
  subst hl
  rw [Cache.written] at hr
  split_ifs at hr
  obtain ⟨resp, hresp, ha⟩ := Option.bind_eq_some_iff.1 hr
  obtain ⟨wire', ha, hpair⟩ := Option.map_eq_some_iff.1 ha
  cases hpair
  obtain ⟨r, hr', rfl⟩ := Option.map_eq_some_iff.1 hresp
  have hdrop : final.rewrites.drop before.rewriteCount = aliases := by
    rw [← hext, QueryContext.rewriteCount, List.drop_left]
  rw [hdrop] at ha
  obtain ⟨made, hmade, haliases⟩ := answers_bindResponse r before.query aliases
  exact ⟨before, r, aliases, made, _, hv, hc, hkey, rfl, hr', hext.symm, rfl, hmade, haliases,
    he ▸ (Cache.admits_eq_some.1 ha).2.2.2.1⟩

/-- A finished run of a sequence goes through its steps and then does its own write-backs: none
after an error, and otherwise only those of the cache steps it executed. -/
theorem only_executed (reg : Registry) (depth : ℕ) (seq : Sequence) (ctx : QueryContext) (tr : Trace)
    (o : Outcome) (h : Ends (seq.run reg (Executable.exec reg depth) ctx) tr o) :
    ∃ inner own vs, tr = inner ++ own ∧
      Pass reg (Executable.exec reg depth) seq.tag seq.steps ctx inner vs o ∧
      (∀ e, o.2 = .error e → own = []) ∧
      ∀ ev ∈ own, ev.1 = .now ∨
        ∃ c lookup source e, ev.1 = .insert c lookup source e ∧ OfVisit reg vs o.1 c lookup e := by
  obtain ⟨inner, own, vs, rfl, hpass, hown⟩ := run_pass h
  refine ⟨inner, own, vs, rfl, hpass, ?_, fun ev hev => ?_⟩
  · rintro e he
    obtain ⟨final, r⟩ := o
    cases he
    exact (ends_done hown).1
  · obtain ⟨final, r⟩ := o
    cases r with
    | error e =>
      rw [(ends_done hown).1] at hev
      cases hev
    | ok a =>
      obtain ⟨⟨c, lookup⟩, hw, tr', hstore, hev⟩ := store_event hown hev
      rcases Cache.storeLookup_ends hstore with ⟨-, rfl⟩ | ⟨response, wire, now, hr, rfl⟩
      · cases hev
      · rcases List.mem_cons.1 hev with rfl | hev
        · exact .inl rfl
        · rw [List.mem_singleton.1 hev]
          exact .inr ⟨c, lookup, final.source, _, rfl,
            ofVisit_of_written (extends_visit hpass) hw hr rfl⟩

omit [Crates] in
/-- The sample sequence visits its cache and does what its visits leave to be done. -/
theorem only_executed_answer : ∃ inner own vs o,
    Ends (@Sequence.run Sample.codec Sample.resolver
      (@Executable.exec Sample.codec Sample.resolver 3) Sample.main Sample.context) (inner ++ own) o ∧
    @Pass Sample.codec Sample.resolver (@Executable.exec Sample.codec Sample.resolver 3) "main"
      Sample.main.steps Sample.context inner vs o ∧
    ∀ ev ∈ own, ev.1 = .now ∨ ∃ c lookup source e, ev.1 = .insert c lookup source e ∧
      @OfVisit Sample.codec Sample.resolver vs o.1 c lookup e := by
  have h : ((@Sequence.run Sample.codec Sample.resolver
      (@Executable.exec Sample.codec Sample.resolver 3) Sample.main Sample.context).play
        (@Resolver.oracle Sample.codec Sample.resolver 3 (Sample.answering Sample.answer)) false
          Sample.world).isSome := by decide +kernel
  obtain ⟨⟨tr, o, w, new⟩, hp⟩ := Option.isSome_iff_exists.1 h
  obtain ⟨inner, own, vs, rfl, hpass, -, hown⟩ :=
    @only_executed Sample.codec Sample.resolver 3 Sample.main Sample.context tr o (play_ends hp)
  exact ⟨inner, own, vs, o, play_ends hp, hpass, hown⟩

end WriteBack

end FerrumDns
