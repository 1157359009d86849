import FerrumDns.Transparency.Shape

/-! What runs through a pipeline of redirects leave. A run that asks stores the response
to its question at the cache, with the aliases made behind it; a run that finds an entry
leaves with it; a run that finds none leaves with the response that is given. -/

namespace FerrumDns

open Prog Dnsutil QueryContext Sequence Resolver

variable [Crates] {reg : Registry} {depth : ℕ}

/-! ### Runs through the pipeline -/

/-- All actions are of this kind, whatever they answer. -/
def only (P : Eff → Prop) : Contract QueryContext Eff Eff.Answer where
  guar := P
  rely _ _ := True
  held _ := True

/-- Executing a cache step inserts nothing. -/
theorem Cache.exec_inserts {c : Cache} {ctx : QueryContext} {tr : Trace} {o : Outcome}
    (h : Ends (c.exec ctx) tr o) :
    ∀ ev ∈ tr, ∀ c' lookup source e, ev.1 ≠ .insert c' lookup source e := by
  have hsat : (c.exec ctx).Sat (only fun e => ∀ c' lookup source entry,
      e ≠ .insert c' lookup source entry) fun _ => True :=
    Cache.exec_sat (I := fun _ => True) (by simp [only]) (by simp [only]) (by simp [only])
      (by simp [only]) trivial (fun _ _ => trivial) fun _ _ _ => trivial
  exact (hsat.ends h fun _ _ => trivial).1

omit [Crates] in
theorem Cache.serve_apart {c : Cache} {ctx : QueryContext} {key : Text} {msg : Message} {hit : Hit}
    {now : ℕ} {tr : Trace} {o : Outcome} (h : Ends (c.serve ctx key msg hit now) tr o) :
    ∀ ev ∈ tr, Apart ev.1 := by
  have counted (k : Counter) : (Run.count k).Sat (only Apart) fun _ => True :=
    ⟨by simp [only, Apart], fun _ _ => trivial⟩
  have kicked (ctx : QueryContext) : (c.kickRefresh ctx key).Sat (only Apart) fun _ => True := by
    rw [kickRefresh]
    split_ifs
    · trivial
    · cases c.refresh with
      | none => trivial
      | some entry => exact ⟨by simp [only, Apart], fun _ _ => trivial⟩
  have hsat : (c.serve ctx key msg hit now).Sat (only Apart) fun _ => True := by
    simp only [serve]
    split_ifs
    · exact (counted _).bind fun _ _ => (kicked _).bind fun _ _ => (counted _).bind fun _ _ => trivial
    · exact (counted _).bind fun _ _ => trivial
  exact (hsat.ends h fun _ _ => trivial).1

/-- A look-up that answered with an entry that decodes was served. -/
theorem Cache.exec_served {c c' : Cache} {ctx : QueryContext} {tr : Trace} {o : Outcome}
    {key : Text} {q : Message} {hit : Hit} {msg : Message} (h : Ends (c.exec ctx) tr o)
    (hl : (⟨.lookup c' key q, some hit⟩ : Event Eff Eff.Answer) ∈ tr)
    (hd : decode hit.wire = .ok msg) :
    keyOf ctx.query c.cacheEverything = some key ∧ ∃ now tr' event,
      tr = ⟨.lookup c key ctx.query, some hit⟩ :: ⟨.now, now⟩ :: tr' ∧ (∀ ev ∈ tr', Apart ev.1) ∧
      o = (c.withHit (ctx.pushTrace c.tag event) (c.served msg hit now), .ok .Continue) := by
  have missed {tr : Trace} (hm : Ends (c.miss ctx) tr o) : tr = [⟨.count .cacheMisses, ()⟩] := by
    obtain ⟨r, tr', rfl, hm'⟩ := ends_act hm
    rw [(ends_done hm').1]
  have hexec := h
  rw [exec] at h
  split at h
  · rw [(ends_done h).1] at hl
    cases hl
  next key₀ hk =>
    split_ifs at h with hs
    · rw [missed h] at hl
      simp at hl
    · obtain ⟨r, tr₁, rfl, h₁⟩ := ends_act h
      cases r with
      | none =>
        rw [missed h₁] at hl
        simp at hl
      | some hit₀ =>
        dsimp only at h₁
        split at h₁
        next e he =>
          rw [missed h₁] at hl
          simp at hl
          rw [hl.2, he] at hd
          cases hd
        next msg₀ hd₀ =>
          obtain ⟨now, tr₂, rfl, h₂⟩ := ends_act h₁
          have hapart := serve_apart h₂
          simp only [List.mem_cons] at hl
          rcases hl with hl | hl | hl
          · cases hl
            obtain ⟨event, ho⟩ := exec_hit hd hexec
            exact ⟨hk, now, tr₂, event, rfl, hapart, ho⟩
          · cases hl
          · exact absurd rfl ((hapart _ hl).1 _ _ _)

/-- What is written back is the context's response, bound. -/
theorem Cache.written_eq_some {ctx : QueryContext} {lookup : CacheLookup} {response : Message}
    {wire : Bytes} (h : Cache.written ctx lookup = some (response, wire)) :
    ∃ m, ctx.response = some m ∧
      response = bindResponse m lookup.query (ctx.rewrites.drop lookup.rewriteStart) ∧
      admits response = some wire := by
  rw [written] at h
  split_ifs at h
  obtain ⟨response', hr, hw⟩ := Option.bind_eq_some_iff.1 h
  obtain ⟨wire', ha, hpair⟩ := Option.map_eq_some_iff.1 hw
  cases hpair
  obtain ⟨m, hm, rfl⟩ := Option.map_eq_some_iff.1 hr
  exact ⟨m, hm, rfl, ha⟩

omit [Crates] in
theorem QueryContext.Traced.withHit {a b : QueryContext} (h : Traced a b) (c : Cache)
    (msg : Message) : Traced (c.withHit a msg) (c.withHit b msg) := by
  obtain ⟨t, rfl⟩ := h
  exact ⟨t, rfl⟩

namespace Pipeline

variable (p : Pipeline reg)

/-- The query at the cache. -/
def asked (q : Message) : Message := { q with queries := (p.atCache q.queries).1 }

/-- The query that the answering plugin gets for the one at the cache. -/
def askedUp (q : Message) : Message := { q with queries := (p.atUp q.queries).1 }

variable {p} {up : Message → Except Error Message}

/-- A run of the pipeline: a pass, and the write-back it leaves. -/
theorem run {ctx : QueryContext} {tr : Trace} {o : Outcome}
    (h : Ends ((Executable.sequence p.sequence).exec reg depth ctx) tr o) :
    ∃ d inner own vs ctx', tr = ⟨.call (.sequence p.sequence) ctx', ()⟩ :: inner ++ own ∧
      Pass reg (Executable.exec reg d) p.tag p.sequence.steps ctx inner vs o ∧
      Ends (flushed (notes reg vs) o) own () := by
  obtain ⟨d, tr', rfl, rfl, h'⟩ := Executable.exec_ends h
  obtain ⟨inner, own, vs, rfl, hpass, hown⟩ := run_pass h'
  exact ⟨d, inner, own, vs, ctx, rfl, hpass, hown⟩

/-- Nothing is written back from a context that was served from a cache. -/
theorem flushed_served {writes : List Write} {ctx : QueryContext} {a : Action} {own : Trace}
    (h : Ends (flushed writes (ctx, .ok a)) own ()) (hs : ctx.servedFromCache = true) : own = [] := by
  apply List.eq_nil_iff_forall_not_mem.2
  intro ev hev
  obtain ⟨w, -, tr', hw, hev'⟩ := store_event h hev
  rcases Cache.storeLookup_ends hw with ⟨-, rfl⟩ | ⟨response, wire, now, hwritten, -⟩
  · cases hev'
  · simp [Cache.written, hs] at hwritten

/-- Nothing is looked up for a write-back. -/
theorem flushed_lookups {writes : List Write} {o : Outcome} {own : Trace}
    (h : Ends (flushed writes o) own ()) :
    ∀ ev ∈ own, ∀ c key q, ev.1 ≠ .lookup c key q := by
  intro ev hev c key q heq
  obtain ⟨ctx, r⟩ := o
  cases r with
  | error e =>
    rw [(ends_done h).1] at hev
    cases hev
  | ok a =>
    obtain ⟨w, -, tr', hw, hev'⟩ := store_event h hev
    rcases Cache.storeLookup_ends hw with ⟨-, rfl⟩ | ⟨response, wire, now, -, rfl⟩
    · cases hev'
    · simp only [List.mem_cons, List.not_mem_nil, or_false] at hev'
      rcases hev' with rfl | rfl <;> cases heq

omit [Crates] in
/-- A cache step that found nothing leaves the context as the redirects did. -/
theorem traced_of_missed {a x y : QueryContext} {plugin event event' : String} (hx : Traced a x)
    (hy : y = x.pushTrace plugin event ∨
      y = (x.pushTrace plugin event).pushTrace p.cache.tag event') : Traced a y := by
  rcases hy with rfl | rfl
  · exact hx.push _ _
  · exact (hx.push _ _).push _ _

/-- An insertion that a run performs is of the response to the query at the cache, bound with the
aliases made behind it. -/
theorem stored (hup : Answers reg p.up.2 up) {ctx : QueryContext} (hr : ctx.response = none)
    {tr : Trace} {o : Outcome} (h : Ends ((Executable.sequence p.sequence).exec reg depth ctx) tr o)
    (hasked : Asked up tr) {c : Cache} {lookup : CacheLookup} {source : Option Source} {e : Entry}
    (hins : (⟨.insert c lookup source e, ()⟩ : Event Eff Eff.Answer) ∈ tr) :
    c = p.cache ∧ Cache.keyOf (p.asked ctx.query) p.cache.cacheEverything = some lookup.key ∧
      ∃ m wire now, up (p.askedUp (p.asked ctx.query)) = .ok m ∧
        Cache.admits (bindResponse m (p.asked ctx.query) (p.atUp (p.asked ctx.query).queries).2) =
          some wire ∧
        e = p.cache.entryAt wire (minTtl
          (bindResponse m (p.asked ctx.query) (p.atUp (p.asked ctx.query).queries).2)) now := by
  obtain ⟨d, inner, own, vs, ctx', rfl, hpass, hown⟩ := run h
  obtain ⟨x, y, trc, hx, hnotes, hc, -, hevents, hway⟩ := p.pass hup hpass fun ups q r hev =>
    hasked ups q r (by simp [hev])
  -- The insertion is one of the write-backs.
  have hins' : (⟨.insert c lookup source e, ()⟩ : Event Eff Eff.Answer) ∈ own := by
    simp only [List.mem_append, List.mem_cons] at hins
    rcases hins with (hins | hins) | hins
    · cases hins
    · rcases hevents _ hins with hins | hins
      · exact absurd rfl (Cache.exec_inserts hc _ hins _ _ _ _)
      · exact absurd rfl (hins.2.1 _ _ _ _)
    · exact hins
  obtain ⟨oc, r⟩ := o
  rcases Cache.exec_ends hc with ⟨-, ho⟩ | ⟨_, _, _, _, _, event, -, -, -, -, ho⟩
  · have hy : Traced (ctx.moved (p.atCache ctx.query.queries)) y := traced_of_missed hx
      (ho.imp (congrArg Prod.fst) (congrArg Prod.fst))
    rcases hway with ⟨hresp, -, -⟩ | ⟨-, hcont, z, hz, htook⟩
    · rw [hy.hasResp] at hresp
      simp [hasResp, QueryContext.moved, hr] at hresp
    · obtain rfl : r = .ok .Continue := hcont
      obtain ⟨w, hw, tr', hwrite, hev⟩ := store_event hown hins'
      rw [hnotes] at hw
      obtain ⟨t, rfl⟩ := hx
      obtain ⟨t', rfl⟩ := hy
      obtain ⟨t'', rfl⟩ := hz
      simp only [noteCache, p.cache_execs, Option.mem_toList, Option.map_eq_some_iff, Cache.snapshot]
        at hw
      obtain ⟨_, ⟨key, hkey, rfl⟩, rfl⟩ := hw
      rcases Cache.storeLookup_ends hwrite with ⟨-, rfl⟩ | ⟨response, wire, now, hwritten, rfl⟩
      · cases hev
      simp only [List.mem_cons, List.not_mem_nil, or_false] at hev
      rcases hev with hev | hev
      · cases hev
      cases hev
      obtain ⟨m', hm', hresponse, hadmits⟩ := Cache.written_eq_some hwritten
      refine ⟨rfl, hkey, ?_⟩
      cases hm : up (p.askedUp (p.asked ctx.query)) with
      | error e =>
        have htook' : Took _ (up (p.askedUp (p.asked ctx.query))) oc := htook
        rw [hm] at htook'
        obtain ⟨t₃, rfl⟩ := htook'
        cases hr.symm.trans hm'
      | ok m =>
        have htook' : Took _ (up (p.askedUp (p.asked ctx.query))) oc := htook
        rw [hm] at htook'
        obtain ⟨source, t₃, rfl⟩ := htook'
        cases hm'
        have hdrop : response = bindResponse m (p.asked ctx.query)
            (p.atUp (p.asked ctx.query).queries).2 := by
          rw [hresponse]
          simp only [setResponse, rewriteCount, QueryContext.moved, List.drop_left]
          exact bindResponse_stamped m _ _ _
        exact ⟨m, wire, now, rfl, hdrop ▸ hadmits, by rw [hdrop]⟩
  · have hserved : y = p.cache.withHit _ _ := congrArg Prod.fst ho
    rcases hway with ⟨-, haccept, ⟨t, hoc⟩⟩ | ⟨hresp, -⟩
    · obtain rfl : r = .ok .Accept := haccept
      have hs : oc.servedFromCache = true := by
        rw [show oc = _ from hoc, hserved]
        rfl
      rw [flushed_served hown hs] at hins'
      cases hins'
    · rw [hserved] at hresp
      cases hresp

/-- A run that finds a decodable entry leaves with it. -/
theorem hit (hup : Answers reg p.up.2 up) {ctx : QueryContext} {tr : Trace} {o : Outcome}
    (h : Ends ((Executable.sequence p.sequence).exec reg depth ctx) tr o) (hasked : Asked up tr)
    {c : Cache} {key : Text} {q msg : Message} {hit : Hit} {now : ℕ}
    (hl : (⟨.lookup c key q, some hit⟩ : Event Eff Eff.Answer) ∈ tr)
    (hd : decode hit.wire = .ok msg) (hnow : (⟨.now, now⟩ : Event Eff Eff.Answer) ∈ tr) :
    Cache.keyOf (p.asked ctx.query) p.cache.cacheEverything = some key ∧ o.2 = .ok .Accept ∧
      Traced (p.cache.withHit (ctx.moved (p.atCache ctx.query.queries)) (p.cache.served msg hit now))
        o.1 := by
  obtain ⟨d, inner, own, vs, ctx', rfl, hpass, hown⟩ := run h
  obtain ⟨x, y, trc, hx, -, hc, hsub, hevents, hway⟩ := p.pass hup hpass fun ups q r hev =>
    hasked ups q r (by simp [hev])
  obtain ⟨oc, r⟩ := o
  have hlc : (⟨.lookup c key q, some hit⟩ : Event Eff Eff.Answer) ∈ trc := by
    simp only [List.mem_append, List.mem_cons] at hl
    rcases hl with (hl | hl) | hl
    · cases hl
    · exact (hevents _ hl).resolve_right fun hapart => hapart.1 _ _ _ rfl
    · exact absurd rfl (flushed_lookups hown _ hl _ _ _)
  obtain ⟨hkey, now', tr', event, rfl, hapart, ho⟩ := Cache.exec_served hc hlc hd
  obtain rfl : y = p.cache.withHit _ _ := congrArg Prod.fst ho
  rcases hway with ⟨-, haccept, hoc⟩ | ⟨hresp, -⟩
  · obtain rfl : r = .ok .Accept := haccept
    have hs : oc.servedFromCache = true := by
      obtain ⟨t, rfl⟩ := hoc
      rfl
    obtain rfl := flushed_served hown hs
    have hnowc : (⟨.now, now⟩ : Event Eff Eff.Answer) = ⟨.now, now'⟩ := by
      simp only [List.append_nil, List.mem_cons] at hnow
      rcases hnow with hnow | hnow
      · cases hnow
      · rcases (hevents _ hnow).resolve_right fun hapart => hapart.2.2 rfl with _ | ⟨_, _ | ⟨_, hmem⟩⟩
        · rfl
        · exact absurd rfl (hapart _ hmem).2.2
    cases hnowc
    refine ⟨?_, rfl, ?_⟩
    · obtain ⟨t, rfl⟩ := hx
      rw [QueryContext.pushTrace_query] at hkey
      exact hkey
    · exact (((hx.push _ _).push _ _).withHit p.cache _).trans hoc
  · cases hresp

/-- A run that finds nothing asks, and has the response that is given. -/
theorem missed (hup : Answers reg p.up.2 up) {ctx : QueryContext} (hr : ctx.response = none)
    {tr : Trace} {o : Outcome} (h : Ends ((Executable.sequence p.sequence).exec reg depth ctx) tr o)
    (hasked : Asked up tr)
    (hnone : ∀ c key q hit, (⟨.lookup c key q, some hit⟩ : Event Eff Eff.Answer) ∉ tr) :
    o.2 = .ok .Continue ∧ ∃ z, Traced ((ctx.moved (p.atCache ctx.query.queries)).moved
      (p.atUp (p.asked ctx.query).queries)) z ∧
        Took z (up (p.askedUp (p.asked ctx.query))) o.1 := by
  obtain ⟨d, inner, own, vs, ctx', rfl, hpass, -⟩ := run h
  obtain ⟨x, y, trc, hx, -, hc, hsub, -, hway⟩ := p.pass hup hpass fun ups q r hev =>
    hasked ups q r (by simp [hev])
  rcases Cache.exec_ends hc with ⟨-, ho⟩ | ⟨_, hit, _, _, _, event, -, -, -, rfl, -⟩
  · have hy : Traced (ctx.moved (p.atCache ctx.query.queries)) y := traced_of_missed hx
      (ho.imp (congrArg Prod.fst) (congrArg Prod.fst))
    rcases hway with ⟨hresp, -, -⟩ | ⟨-, hcont, z, hz, htook⟩
    · rw [hy.hasResp] at hresp
      simp [hasResp, QueryContext.moved, hr] at hresp
    · obtain ⟨t, rfl⟩ := hy
      obtain ⟨t', rfl⟩ := hz
      exact ⟨hcont, _, ⟨t', rfl⟩, htook⟩
  · have hmem := hsub _ (List.mem_cons_self ..)
    exact absurd (List.mem_append_left _ (List.mem_cons_of_mem _ hmem)) (hnone _ _ _ hit)

end Pipeline

end FerrumDns
