import FerrumDns.Api.Origin
import FerrumDns.Cache.Shard
import FerrumDns.Sample

/-! Emptying caches while requests use them. The handler empties one shard after another,
and anything may happen in between: what was looked up before can be stored in a shard
that was emptied already. Still nothing that was there when the handler began is served
after it returned. -/

namespace FerrumDns

open Prog Resolver

namespace Api

variable [Crates] {reg : Registry} {depth : ℕ}

/-- The resolver before, between and after the shards are emptied. -/
inductive Amid (reg : Registry) (depth : ℕ) :
    State → List (Event (Tag × Fin 16) fun _ => Unit) → Trace → State → Prop
  | run {p q tr} (h : Resolver.Runs reg depth p tr q) : Amid reg depth p [] tr q
  | flush {p q r tr tr' evs} (ev : Event (Tag × Fin 16) fun _ => Unit)
      (h : Resolver.Runs reg depth p tr q)
      (h' : Amid reg depth { q with world := after q.world [ev] } evs tr' r) :
      Amid reg depth p (ev :: evs) (tr ++ tr') r

variable {p q r : State} {evs : List (Event (Tag × Fin 16) fun _ => Unit)} {tr tr' : Trace}
  {tag : Tag} {key : Text} {e : Entry}

omit [Crates] in
theorem found_after_flush {w : World} {ev : Event (Tag × Fin 16) fun _ => Unit}
    (h : ((after w [ev]).caches tag).found key = some e) :
    (tag, CacheState.shard key) ≠ ev.1 ∧ (w.caches tag).found key = some e := by
  rw [CacheState.found, after_shards] at h
  by_cases hshard : (tag, CacheState.shard key) = ev.1
  · rw [if_pos (by simp [hshard])] at h
    cases h
  · rw [if_neg (by simpa using hshard)] at h
    exact ⟨hshard, h⟩

/-- What is found in the end was there at the start, or was inserted meanwhile. -/
theorem Amid.found (h : Amid reg depth p evs tr q)
    (he : (q.world.caches tag).found key = some e) :
    (p.world.caches tag).found key = some e ∨ ∃ ev ∈ tr, Inserts tag key e ev := by
  induction h with
  | run h => exact found_run h he
  | flush ev h h' ih =>
    rcases ih he with hfound | ⟨ev', hev', hins⟩
    · obtain ⟨-, hfound⟩ := found_after_flush hfound
      exact (found_run h hfound).imp_right fun ⟨ev', hev', hins⟩ =>
        ⟨ev', List.mem_append_left _ hev', hins⟩
    · exact .inr ⟨ev', List.mem_append_right _ hev', hins⟩

/-- What is found in a shard that was emptied was inserted meanwhile. -/
theorem Amid.forgets (h : Amid reg depth p evs tr q)
    (hshard : (tag, CacheState.shard key) ∈ evs.map Sigma.fst)
    (he : (q.world.caches tag).found key = some e) : ∃ ev ∈ tr, Inserts tag key e ev := by
  induction h with
  | run h => cases hshard
  | @flush p q r tr tr' evs ev h h' ih =>
    rw [List.map_cons, List.mem_cons] at hshard
    have hlater : ∃ ev ∈ tr', Inserts tag key e ev := by
      rcases hshard with hshard | hshard
      · exact (h'.found he).resolve_left fun hfound => (found_after_flush hfound).1 hshard
      · exact ih hshard he
    obtain ⟨ev', hev', hins⟩ := hlater
    exact ⟨ev', List.mem_append_right _ hev', hins⟩

variable [WebCrates]

/-- Whatever goes on while caches are emptied and afterwards, an entry of theirs was inserted since
that began, and so was one that a look-up finds once it is over. -/
theorem flushed_stays_out {caches : CacheMap reg} {request : Request} {reply : Response}
    (hf : Ends (flush caches request) evs reply) (hok : reply.status = 200)
    (h : Amid reg depth p evs tr q) (h' : Resolver.Runs reg depth q tr' r) :
    ∃ tags, reply = flushedReply tags ∧
      (∀ tag ∈ tags, ∀ key e, (r.world.caches tag).found key = some e →
        ∃ ev ∈ tr ++ tr', Inserts tag key e ev) ∧
      ∀ c ∈ {c : Cache | c.tag ∈ tags}, ∀ key q hit tr₁ tr₂,
        tr' = tr₁ ++ ⟨.lookup c key q, some hit⟩ :: tr₂ →
          ∃ e : Entry, hit.wire = e.wire ∧ ∃ ev ∈ tr ++ tr₁, Inserts c.tag key e ev := by
  rcases ends_flush hf with ⟨tags, hreply, hmem⟩ | ⟨hstatus, -⟩
  · have inserted {r : State} {tr' : Trace} (h' : Resolver.Runs reg depth q tr' r) {tag : Tag}
        (htag : tag ∈ tags) {key : Text} {e : Entry}
        (he : (r.world.caches tag).found key = some e) :
        ∃ ev ∈ tr ++ tr', Inserts tag key e ev := by
      rcases found_run h' he with hfound | ⟨ev, hev, hins⟩
      · obtain ⟨ev, hev, hins⟩ := h.forgets ((hmem tag _).2 htag) hfound
        exact ⟨ev, List.mem_append_left _ hev, hins⟩
      · exact ⟨ev, List.mem_append_right _ hev, hins⟩
    refine ⟨tags, hreply, fun tag htag key e he => inserted h' htag he, ?_⟩
    rintro c hc key query hit tr₁ tr₂ rfl
    obtain ⟨a, b, ha, hstep, -⟩ := h'.split
    obtain ⟨_, hlookup, -⟩ := hstep.performed
    obtain ⟨e, he, -, rfl⟩ := CacheState.lookup_eq_some hlookup.symm
    exact ⟨e, rfl, inserted ha hc he⟩
  · exact absurd hok hstatus

/-! ### A request in between -/

omit [Crates] [WebCrates] in
theorem flushShards_ends (shards : List (Tag × Fin 16)) :
    Ends (flushShards shards) (shards.map fun shard => ⟨shard, ()⟩) () := by
  induction shards with
  | nil => exact .refl _
  | cons shard shards ih =>
    rw [List.map_cons, flushShards]
    exact Leads.act (k := fun _ => flushShards shards) () ih

omit [Crates] [WebCrates] in
theorem after_clock (w : World) (evs : List (Event (Tag × Fin 16) fun _ => Unit)) :
    (after w evs).clock = w.clock := by
  induction evs generalizing w with
  | nil => rfl
  | cons ev evs ih => exact ih _

omit [WebCrates] in
/-- Shards emptied at once. -/
theorem Amid.after_flushes {evs' : List (Event (Tag × Fin 16) fun _ => Unit)}
    (h : Amid reg depth { p with world := after p.world evs } evs' tr q) :
    Amid reg depth p (evs ++ evs') tr q := by
  induction evs generalizing p with
  | nil => exact h
  | cons ev evs ih => exact .flush ev (.refl p) (ih h)

omit [WebCrates] in
theorem Amid.after_run (h : Resolver.Runs reg depth p tr q) (h' : Amid reg depth q evs tr' r) :
    Amid reg depth p evs (tr ++ tr') r := by
  cases h' with
  | run h' => exact .run (h.trans h')
  | flush ev h' h'' =>
    rw [← List.append_assoc]
    exact .flush ev (h.trans h') h''

namespace Sample

open FerrumDns.Sample (answer codec entry played played_runs resolver world)

omit [Crates] [WebCrates]

/-- The caches of the sample registry. -/
def sampleCaches : CacheMap resolver where
  tags := ["cache"]
  nodup := by simp
  mem_tags tag := by
    have hcaches : (resolver.caches tag).isSome ↔ ∃ c, resolver.execs tag = some (.cache c) := by
      simp only [Option.isSome_iff_exists, resolver.caches_execs]
    rw [hcaches, List.mem_singleton]
    constructor
    · rintro rfl
      exact ⟨_, rfl⟩
    · rintro ⟨c, hc⟩
      obtain ⟨l₁, l₂, hl, -⟩ := List.lookup_eq_some_iff.1 hc
      have hmem : (tag, Executable.cache c) ∈ l₁ ++ (tag, Executable.cache c) :: l₂ := by simp
      rw [← hl] at hmem
      simp at hmem
      exact hmem.1

/-- Each shard of the cache once. -/
def shards : List (Event (Tag × Fin 16) fun _ => Unit) :=
  ((List.finRange 16).map fun i => ("cache", i)).map fun shard => ⟨shard, ()⟩

theorem flush_ends_shards :
    Ends (@flush crates _ sampleCaches pageRequest) shards (flushedReply ["cache"]) := by
  have hcache := flushShards_ends ((List.finRange 16).map fun i => ("cache", i))
  have hcaches : Ends (flushCaches ["cache"]) (shards ++ []) () := hcache.bind (.refl _)
  rw [List.append_nil] at hcaches
  rw [← List.append_nil shards]
  exact hcaches.bind (.refl _)

/-- The world ten seconds on, with the first ten shards empty. -/
def halfway (w : World) : World := { after w (shards.take 10) with clock := secs 10 }

/-- An answer is stored, and stored again while the shards are emptied. -/
theorem stored_meanwhile : ∃ w tr w' e,
    (w.caches "cache").found Sample.key = some entry ∧ w.clock ≤ secs 10 ∧
      played answer (halfway w) = some (tr, (), w', []) ∧
      ((after w' (shards.drop 10)).caches "cache").found Sample.key = some e ∧ e ≠ entry := by
  have h : ((played answer world).bind fun x => (played answer (halfway x.2.2.1)).map fun y =>
      ((x.2.2.1.caches "cache").found Sample.key, x.2.2.1.clock, y.2.2.2.length,
        ((after y.2.2.1 (shards.drop 10)).caches "cache").found Sample.key)) =
      some (some entry, 0, 0, some ⟨entry.wire, secs 10, secs 70, secs 610⟩) := by decide +kernel
  obtain ⟨⟨_, _, w, _⟩, -, h⟩ := Option.bind_eq_some_iff.1 h
  obtain ⟨⟨tr, u, w', new⟩, hp, h⟩ := Option.map_eq_some_iff.1 h
  simp only [Prod.mk.injEq, List.length_eq_zero_iff] at h
  obtain ⟨hfound, hclock, rfl, hfound'⟩ := h
  exact ⟨w, tr, w', _, hfound, by omega, hp, hfound', by decide⟩

/-- What was stored is gone, and what is found was inserted meanwhile. -/
theorem flushed_stays_out_meanwhile : ∃ p q : State, ∃ evs tr e,
    (p.world.caches "cache").found Sample.key = some entry ∧
      Ends (@flush crates _ sampleCaches pageRequest) evs (flushedReply ["cache"]) ∧
      @Amid codec resolver 4 p evs tr q ∧
      (q.world.caches "cache").found Sample.key = some e ∧ e ≠ entry ∧
      ∃ ev ∈ tr, Inserts "cache" Sample.key e ev := by
  let := codec
  let := crates
  obtain ⟨w, tr, w', e, hstored, hclock, hplayed, hfound, hne⟩ := stored_meanwhile
  have htick : Resolver.Runs resolver 4 ⟨after w (shards.take 10), []⟩ [] ⟨halfway w, []⟩ := by
    refine .step (.drift (Resolver.Drift.tick ?_)) (.refl _)
    rwa [after_clock]
  have hrun := htick.trans (played_runs hplayed [])
  have hrest : Amid resolver 4 ⟨w', []⟩ (shards.drop 10 ++ []) []
      ⟨after w' (shards.drop 10), []⟩ := .after_flushes (.run (.refl _))
  have hamid := Amid.after_flushes (p := ⟨w, []⟩) (Amid.after_run hrun hrest)
  rw [List.append_nil, List.take_append_drop, List.append_nil] at hamid
  obtain ⟨tags, hreply, hkept, -⟩ := flushed_stays_out flush_ends_shards rfl hamid (.refl _)
  have htag : "cache" ∈ tags := by
    simp only [flushedReply, Response.mk.injEq, Body.flushed.injEq, true_and] at hreply
    exact List.mem_mergeSort.1 (hreply ▸ List.mem_mergeSort.2 (List.mem_singleton_self _))
  obtain ⟨ev, hev, hins⟩ := hkept "cache" htag _ e hfound
  rw [List.append_nil] at hev
  exact ⟨_, _, shards, _, e, hstored, flush_ends_shards, hamid, hfound, hne, ev, hev, hins⟩

end Sample

end Api

end FerrumDns
