import FerrumDns.Cache.HitTtl

/-! Single-flight refreshes. The set of running refreshes of a cache holds exactly
the keys whose guard a live task owns, and no key has two guards, however lazy hits
interleave and refreshes finish, fail, are cancelled or lose their runtime. So a
key is never refreshed twice at once, and never stays blocked. -/

namespace FerrumDns

open Prog Resolver

namespace SingleFlight

/-- The guards that live tasks own. -/
def guards (ts : List Owner) : List Guard := ts.filterMap id

@[simp] theorem mem_guards {ts : List Owner} {g : Guard} : g ∈ guards ts ↔ some g ∈ ts := by
  simp [guards]

@[simp] theorem guards_append (ts ts' : List Owner) : guards (ts ++ ts') = guards ts ++ guards ts' :=
  List.filterMap_append

@[simp] theorem guards_none (ts : List Owner) : guards (none :: ts) = guards ts := rfl

@[simp] theorem guards_some (g : Guard) (ts : List Owner) : guards (some g :: ts) = g :: guards ts :=
  rfl

/-- The running refreshes are those of the live guards, one guard for each. -/
structure Exact (w : World) (ts : List Owner) : Prop where
  held : ∀ g, w.held g ↔ g ∈ guards ts
  nodup : (guards ts).Nodup

/-! ### What single moves do to the running refreshes -/

theorem held_setCache {w : World} {tag : Tag} {st : CacheState}
    (h : st.inflight = (w.caches tag).inflight) (g : Guard) :
    (w.setCache tag st).held g ↔ w.held g := by
  rw [World.held, World.held, World.caches_setCache]
  split_ifs with heq
  · rw [h, heq]
  · rfl

theorem held_claim (w : World) (g g' : Guard) : (w.claim g).held g' ↔ g' = g ∨ w.held g' := by
  rw [World.held, World.held, World.claim, World.caches_setCache]
  obtain ⟨tag, key⟩ := g
  obtain ⟨tag', key'⟩ := g'
  by_cases h : tag' = tag
  · subst h; simp
  · simp [h]

theorem held_free (w : World) (g g' : Guard) : (w.free g).held g' ↔ g' ≠ g ∧ w.held g' := by
  rw [World.held, World.held, World.free, World.caches_setCache]
  obtain ⟨tag, key⟩ := g
  obtain ⟨tag', key'⟩ := g'
  by_cases h : tag' = tag
  · subst h; simp
  · simp [h]

theorem Exact.congr {w w' : World} {ts : List Owner} (h : Exact w ts)
    (hw : ∀ g, w'.held g ↔ w.held g) : Exact w' ts :=
  ⟨fun g => (hw g).trans (h.held g), h.nodup⟩

theorem Exact.release {w : World} {l l' : List Owner} {t : Owner} (h : Exact w (l ++ t :: l')) :
    Exact (release t w) (l ++ l') := by
  cases t with
  | none => exact ⟨by simpa [Resolver.release] using h.held, by simpa using h.nodup⟩
  | some g =>
    have hnd := h.nodup
    simp only [guards_append, guards_some, List.nodup_middle, List.nodup_cons] at hnd
    refine ⟨fun g' => ?_, by simpa using hnd.2⟩
    rw [Resolver.release, held_free, h.held]
    constructor
    · rintro ⟨hne, hm⟩
      simpa [hne] using hm
    · intro hm
      rw [guards_append] at hm
      refine ⟨fun heq => hnd.1 (heq ▸ hm), ?_⟩
      simp only [guards_append, guards_some, List.mem_append, List.mem_cons] at hm ⊢
      exact hm.imp_right .inr

theorem Exact.drift {w w' : World} {ts : List Owner} (h : Exact w ts) (hd : Drift w w') :
    Exact w' ts := by
  cases hd with
  | tick ht => exact h.congr fun _ => .rfl
  | flush tag i => exact h.congr (held_setCache rfl)
  | drop => exact h.congr fun _ => .rfl

variable [Crates] {reg : Registry} {depth : ℕ}

/-- A lazy hit's refresh starts exactly when its key is free. -/
theorem perform_kick {w w' : World} {c : Cache} {key : Text} {bg : QueryContext} {entry : Tag}
    {new : List Task} (h : perform reg depth w (.kick c key bg entry) () w' new) :
    (w.held ⟨c.tag, key⟩ ∧ w' = w ∧ new = []) ∨
      (¬ w.held ⟨c.tag, key⟩ ∧ w' = w.claim ⟨c.tag, key⟩ ∧
        new = [(some ⟨c.tag, key⟩, refreshTask reg depth bg entry)]) := by
  simp only [perform] at h
  split_ifs at h with hh
  · exact .inl ⟨hh, h⟩
  · exact .inr ⟨hh, h⟩

theorem Exact.perform {w w' : World} {e : Eff} {r : e.Answer} {new : List Task} {ts : List Owner}
    (h : Exact w ts) (hp : Resolver.perform reg depth w e r w' new) :
    Exact w' (ts ++ new.map Prod.fst) := by
  cases e with
  | kick c key bg entry =>
    rcases perform_kick hp with ⟨-, rfl, rfl⟩ | ⟨hfree, rfl, rfl⟩
    · simpa using h
    · refine ⟨fun g => ?_, ?_⟩
      · rw [held_claim, h.held]
        simp [or_comm]
      · rw [h.held] at hfree
        simpa [guards, List.nodup_append] using ⟨h.nodup, fun g hg heq => hfree (by simpa [← heq])⟩
  | lookup c key q =>
    obtain ⟨-, rfl, rfl⟩ := hp
    rw [List.map_nil, List.append_nil]
    exact h.congr (held_setCache rfl)
  | insert c lookup source entry =>
    obtain ⟨rfl, rfl⟩ := hp
    rw [List.map_nil, List.append_nil]
    exact h.congr (held_setCache rfl)
  | count k =>
    obtain ⟨rfl, rfl⟩ := hp
    rw [List.map_nil, List.append_nil]
    exact h.congr fun _ => .rfl
  | call p ctx =>
    obtain ⟨rfl, rfl⟩ := hp
    simpa using h
  | exchange ups q =>
    obtain ⟨rfl, rfl⟩ := hp
    simpa using h
  | now =>
    obtain ⟨-, rfl, rfl⟩ := hp
    simpa using h
  | timer d =>
    obtain ⟨-, rfl, rfl⟩ := hp
    simpa using h
  | upgrade =>
    obtain ⟨-, rfl, rfl⟩ := hp
    simpa using h
  | overflow => exact hp.elim

theorem exact_keeps : Pool.Keeps (machine reg depth) Cache.admission Exact :=
  Cache.admission_preserved.keeps Cache.admission_starts
    (fun h _ hp => ⟨trivial, h.perform hp⟩) (fun h => h.release) (fun h hd => h.drift hd)
    fun h => ⟨by simpa using h.held, by simpa [guards] using h.nodup⟩

theorem exact_run {p q : State} {tr : Trace} (hp : Fresh p) (h : Runs reg depth p tr q) :
    Exact q.world q.tags := by
  have hstart : Pool.Inv Cache.admission Exact p :=
    ⟨⟨by simp [Pool.tags, hp.quiet, World.held, hp.idle, guards],
      by simp [Pool.tags, hp.quiet, guards]⟩, by simp [hp.quiet]⟩
  exact (exact_keeps.run h hstart).1.1

/-- A lazy hit tries to start the refresh of its key. -/
theorem lazy_hit_kicks {c : Cache} {ctx : QueryContext} {key : Text} {hit : Hit} {now : ℕ}
    {tr : Trace} {o : Outcome} {msg : Message} {entry : Tag} (hb : c.refresh = some entry)
    (hl : hit.past = true) (hd : Dnsutil.decode hit.wire = .ok msg)
    (h : Ends (c.exec ctx) (⟨.lookup c key ctx.query, some hit⟩ :: ⟨.now, now⟩ :: tr) o) :
    ⟨.kick c key ctx.cloneForLazy (ctx.pipelineEntry.getD entry), ()⟩ ∈ tr := by
  rw [Cache.exec] at h
  split at h
  · cases (ends_done h).1
  · split_ifs at h with hs
    · obtain ⟨r, tr', htr, -⟩ := ends_act h
      cases htr
    · obtain ⟨r, tr₁, htr, h₁⟩ := ends_act h
      cases htr
      simp only [hd] at h₁
      obtain ⟨now', tr₂, htr, h₂⟩ := ends_act h₁
      cases htr
      simp only [Cache.serve, hl, if_true] at h₂
      obtain ⟨tr₃, tr₄, _, rfl, -, h₃⟩ := ends_bind h₂
      obtain ⟨tr₅, tr₆, _, rfl, h₄, -⟩ := ends_bind h₃
      simp only [Cache.kickRefresh, QueryContext.pushTrace_skipCache, if_neg hs, hb] at h₄
      obtain ⟨r, tr₇, rfl, -⟩ := ends_act h₄
      simp

/-- In every run: the running refreshes of each cache are exactly the live guards, one task to a
key; a lazy hit tries to start a refresh, and starts it when no task has the key's guard; and a
task that ends, wherever it stands, leaves its key free. -/
theorem single_flight (reg : Registry) (depth : ℕ) (p q : State) (tr : Trace) (hp : Fresh p)
    (h : Runs reg depth p tr q) :
    (∀ g, q.world.held g ↔ some g ∈ q.tags) ∧ (guards q.tags).Nodup ∧
    (∀ c key bg entry w new, some ⟨c.tag, key⟩ ∉ q.tags →
      perform reg depth q.world (.kick c key bg entry) () w new →
        new = [(some ⟨c.tag, key⟩, refreshTask reg depth bg entry)]) ∧
    (∀ l g t l', q.tasks = l ++ (some g, t) :: l' →
      ¬ (release (some g) q.world).held g ∧ some g ∉ (l ++ l').map Prod.fst) ∧
    ∀ c ctx key hit now tr' o msg entry, c.refresh = some entry → hit.past = true →
      Dnsutil.decode hit.wire = .ok msg →
      Ends (Cache.exec c ctx) (⟨.lookup c key ctx.query, some hit⟩ :: ⟨.now, now⟩ :: tr') o →
        ⟨.kick c key ctx.cloneForLazy (ctx.pipelineEntry.getD entry), ()⟩ ∈ tr' := by
  have hx := exact_run hp h
  refine ⟨by simpa using hx.held, hx.nodup, ?_, ?_, fun c ctx key hit now tr' o msg entry hb hl hd =>
    lazy_hit_kicks hb hl hd⟩
  · intro c key bg entry w new hfree hk
    rcases perform_kick hk with ⟨hh, -, -⟩ | ⟨-, -, hnew⟩
    · exact absurd (mem_guards.1 ((hx.held _).1 hh)) hfree
    · exact hnew
  · intro l g t l' ht
    have htags : q.tags = l.map Prod.fst ++ some g :: l'.map Prod.fst := by
      simp [Pool.tags, ht]
    have hrel := (htags ▸ hx).release
    have hnot : ¬ (release (some g) q.world).held g := by
      simp [Resolver.release, held_free]
    refine ⟨hnot, fun hm => hnot ((hrel.held g).2 ?_)⟩
    rw [List.map_append] at hm
    exact mem_guards.2 hm

omit [Crates] in
/-- Two requests a minute apart leave one refresh running. -/
theorem single_flight_once : ∃ tr, ∃ q : State, @Runs Sample.codec Sample.resolver 4
      ⟨Sample.world, []⟩ tr q ∧ q.tags = [some ⟨"cache", Sample.key⟩] ∧
    q.world.held ⟨"cache", Sample.key⟩ := by
  obtain ⟨tr, w, tr', w', task, hp, ht, hp'⟩ := Sample.second_kicks
  have htick : @Runs Sample.codec Sample.resolver 4 ⟨w, []⟩ [] ⟨{ w with clock := secs 60 }, []⟩ :=
    .step (.drift (Drift.tick ht)) (.refl _)
  have hrun := (Sample.played_runs hp []).trans (htick.trans (Sample.played_runs hp' []))
  have hflight := @single_flight Sample.codec _ _ _ _ _ Sample.fresh hrun
  exact ⟨_, _, hrun, rfl, (hflight.1 _).2 (by simp [Pool.tags])⟩

end SingleFlight

end FerrumDns
