import FerrumDns.Resolver

/-! What the shards of a cache hold, and where it comes from: an entry found in a
cache was there before, or an insertion put it there. Looking up, flushing,
refreshing and the passing of time add nothing and change no entry. -/

namespace FerrumDns

open Prog

/-! ### One shard -/

namespace Shard

theorem remove_sublist (key : Text) (map : List (Text × Entry)) : (remove key map).Sublist map :=
  List.filter_sublist

theorem evict_sublist (cap : ℕ) (lru : List Text) (map : List (Text × Entry)) :
    (evict cap lru map).2.Sublist map := by
  induction lru generalizing map with
  | nil => exact .refl _
  | cons old lru ih =>
    rw [evict]
    split_ifs
    · exact (ih _).trans (remove_sublist old map)
    · exact .refl _

@[simp] theorem get_map (s : Shard) (key : Text) : (s.get key).2.map = s.map := by
  rw [get]
  split
  · dsimp only
    split_ifs <;> rfl
  · rfl

theorem get_fst (s : Shard) (key : Text) : (s.get key).1 = s.map.lookup key := by
  rw [get]
  cases s.map.lookup key <;> rfl

/-- Besides the new entry an insertion leaves only what was there. -/
theorem insert_map (s : Shard) (key : Text) (entry : Entry) :
    ∃ rest, rest.Sublist s.map ∧ (s.insert key entry).map = (key, entry) :: rest := by
  rw [insert]
  split_ifs
  · exact ⟨_, remove_sublist key s.map, rfl⟩
  · exact ⟨_, evict_sublist s.cap s.lru s.map, rfl⟩

theorem lookup_remove {key old : Text} {map : List (Text × Entry)} {e : Entry}
    (h : (remove old map).lookup key = some e) : map.lookup key = some e := by
  induction map with
  | nil => exact h
  | cons x map ih =>
    obtain ⟨k, e'⟩ := x
    by_cases hk : k = old
    · have hne : key ≠ old := by
        rintro rfl
        obtain ⟨l₁, l₂, hl, -⟩ := List.lookup_eq_some_iff.1 h
        have hmem : (key, e) ∈ remove key ((k, e') :: map) := by simp [hl]
        simp [remove] at hmem
      have hdrop : remove old ((k, e') :: map) = remove old map := by simp [remove, hk]
      have hbeq : (key == k) = false := by simpa [hk] using hne
      rw [List.lookup_cons, hbeq]
      exact ih (hdrop ▸ h)
    · have hkeep : remove old ((k, e') :: map) = (k, e') :: remove old map := by simp [remove, hk]
      rw [hkeep, List.lookup_cons] at h
      rw [List.lookup_cons]
      cases hb : key == k with
      | true => simpa [hb] using h
      | false =>
        rw [hb] at h
        exact ih h

theorem lookup_evict {cap : ℕ} {key : Text} {lru : List Text} {map : List (Text × Entry)} {e : Entry}
    (h : (evict cap lru map).2.lookup key = some e) : map.lookup key = some e := by
  induction lru generalizing map with
  | nil => exact h
  | cons old lru ih =>
    rw [evict] at h
    split_ifs at h
    · exact lookup_remove (ih h)
    · exact h

theorem lookup_insert_self (s : Shard) (key : Text) (e : Entry) :
    (s.insert key e).map.lookup key = some e := by
  obtain ⟨rest, -, hmap⟩ := s.insert_map key e
  simp [hmap]

/-- What is found after an insertion was found before, or is the new entry. -/
theorem lookup_insert {s : Shard} {key key' : Text} {e e' : Entry}
    (h : (s.insert key' e').map.lookup key = some e) :
    (key = key' ∧ e = e') ∨ s.map.lookup key = some e := by
  by_cases hk : key = key'
  · subst hk
    rw [lookup_insert_self] at h
    exact .inl ⟨rfl, (Option.some.inj h).symm⟩
  · have hbeq : (key == key') = false := by simpa using hk
    rw [insert] at h
    split_ifs at h
    · simp only [List.lookup_cons, hbeq] at h
      exact .inr (lookup_remove h)
    · simp only [List.lookup_cons, hbeq] at h
      exact .inr (lookup_evict h)

end Shard

/-! ### One cache -/

namespace CacheState

/-- The entry is in one of the shards under this key. -/
def Stores (st : CacheState) (key : Text) (e : Entry) : Prop :=
  ∃ i, (key, e) ∈ (st.shards i).map

theorem stores_insert {st : CacheState} {key key' : Text} {e e' : Entry}
    (h : (st.insert key' e').Stores key e) : (key = key' ∧ e = e') ∨ st.Stores key e := by
  obtain ⟨i, hi⟩ := h
  rw [insert] at hi
  by_cases heq : i = shard key'
  · subst heq
    obtain ⟨rest, hsub, hmap⟩ := (st.shards (shard key')).insert_map key' e'
    simp only [Function.update_self, hmap, List.mem_cons, Prod.mk.injEq] at hi
    exact hi.imp_right fun hi => ⟨_, hsub.mem hi⟩
  · simp only [Function.update_of_ne heq] at hi
    exact .inr ⟨i, hi⟩

/-- The entry that is found under a key, expired or not. -/
def found (st : CacheState) (key : Text) : Option Entry :=
  (st.shards (shard key)).map.lookup key

theorem found_insert_self (st : CacheState) (key : Text) (e : Entry) :
    (st.insert key e).found key = some e := by
  simp [found, insert, Shard.lookup_insert_self]

theorem found_insert {st : CacheState} {key key' : Text} {e e' : Entry}
    (h : (st.insert key' e').found key = some e) : (key = key' ∧ e = e') ∨ st.found key = some e := by
  rw [found, insert] at h
  by_cases heq : shard key = shard key'
  · simp only [heq, Function.update_self] at h
    rw [found, heq]
    exact Shard.lookup_insert h
  · simp only [Function.update_of_ne heq] at h
    exact .inr h

/-- A property of what is in the shards that only an insertion can bring about. -/
structure Inserted (P : CacheState → Prop) : Prop where
  congr : ∀ {st st'}, st'.shards = st.shards → P st' → P st
  lookup : ∀ {st c key now}, P (CacheState.lookup st c key now).2 → P st
  flush : ∀ {st i}, P (CacheState.flush st i) → P st

/-- Looking up and flushing leave in each shard what was there, or nothing. -/
theorem map_lookup (st : CacheState) (c : Cache) (key : Text) (now : ℕ) (i : Fin 16) :
    ((st.lookup c key now).2.shards i).map = (st.shards i).map := by
  rw [lookup]
  by_cases heq : i = shard key
  · subst heq
    simp only [Function.update_self, Shard.get_map]
  · simp only [Function.update_of_ne heq]

theorem map_flush (st : CacheState) (i j : Fin 16) :
    ((st.flush i).shards j).map = if j = i then [] else (st.shards j).map := by
  rw [flush]
  by_cases heq : j = i
  · subst heq
    simp only [Function.update_self, if_true]
    rfl
  · simp only [Function.update_of_ne heq, if_neg heq]

theorem inserted_stores (key : Text) (e : Entry) : Inserted (Stores · key e) where
  congr hs h := by
    obtain ⟨i, hi⟩ := h
    exact ⟨i, hs ▸ hi⟩
  lookup h := by
    obtain ⟨i, hi⟩ := h
    exact ⟨i, by rwa [map_lookup] at hi⟩
  flush {st i} h := by
    obtain ⟨j, hj⟩ := h
    rw [map_flush] at hj
    split_ifs at hj
    · cases hj
    · exact ⟨j, hj⟩

theorem inserted_found (key : Text) (e : Entry) : Inserted (found · key = some e) where
  congr hs h := by
    rwa [found, hs] at h
  lookup h := by
    rwa [found, map_lookup] at h
  flush {st i} h := by
    rw [found, map_flush] at h
    split_ifs at h
    · cases h
    · exact h

/-- A served entry is in its key's shard, and has not expired. -/
theorem lookup_eq_some {st : CacheState} {c : Cache} {key : Text} {now : ℕ} {hit : Hit}
    (h : (st.lookup c key now).1 = some hit) :
    ∃ e, st.found key = some e ∧ now < e.expire ∧
      hit = ⟨e.wire, e.ttlDeadline ≤ now && 0 < c.lazyTtl, e.stored⟩ := by
  simp only [lookup, Shard.get_fst] at h
  rw [found]
  cases he : (st.shards (shard key)).map.lookup key with
  | none => simp [he] at h
  | some e =>
    simp only [he] at h
    split_ifs at h with hx
    exact ⟨e, rfl, not_le.1 hx, (Option.some.inj h).symm⟩

theorem lookup_of_lt {st : CacheState} {c : Cache} {key : Text} {now : ℕ} {e : Entry}
    (h : st.found key = some e) (hx : now < e.expire) :
    (st.lookup c key now).1 =
      some ⟨e.wire, e.ttlDeadline ≤ now && 0 < c.lazyTtl, e.stored⟩ := by
  rw [found] at h
  simp only [lookup, Shard.get_fst, h, if_neg (not_le.2 hx)]

theorem stores_of_found {st : CacheState} {key : Text} {e : Entry} (h : st.found key = some e) :
    st.Stores key e := by
  obtain ⟨l₁, l₂, hl, -⟩ := List.lookup_eq_some_iff.1 h
  exact ⟨shard key, by simp [hl]⟩

end CacheState

/-! ### The world -/

namespace World

def Stores (w : World) (tag : Tag) (key : Text) (e : Entry) : Prop := (w.caches tag).Stores key e

@[simp] theorem caches_setCache (w : World) (tag tag' : Tag) (st : CacheState) :
    (w.setCache tag st).caches tag' = if tag' = tag then st else w.caches tag' := by
  simp [setCache, Function.update_apply]

theorem of_setCache {P : CacheState → Prop} {w : World} {tag tag' : Tag} {st : CacheState}
    (h : P ((w.setCache tag' st).caches tag)) (hst : P st → P (w.caches tag')) : P (w.caches tag) := by
  rw [caches_setCache] at h
  split_ifs at h with heq
  · subst heq
    exact hst h
  · exact h

end World

namespace Resolver

variable [Crates] {reg : Registry} {depth : ℕ}

/-- The event inserted this entry. -/
def Inserts (tag : Tag) (key : Text) (e : Entry) (ev : Event Eff Eff.Answer) : Prop :=
  ∃ c lookup source, ev.1 = .insert c lookup source e ∧ c.tag = tag ∧ lookup.key = key

/-- The event is an insertion that brings the property about in some state of this cache. -/
def Begets (P : CacheState → Prop) (tag : Tag) (ev : Event Eff Eff.Answer) : Prop :=
  ∃ c lookup source e st, ev.1 = .insert c lookup source e ∧ c.tag = tag ∧
    P (CacheState.insert st lookup.key e) ∧ ¬ P st

variable {P : CacheState → Prop}

theorem inserted_perform (hP : CacheState.Inserted P) {w w' : World} {e : Eff} {r : e.Answer}
    {new : List Task} (h : perform reg depth w e r w' new) {tag : Tag} (hs : P (w'.caches tag)) :
    P (w.caches tag) ∨ Begets P tag ⟨e, r⟩ := by
  cases e with
  | lookup c k q =>
    obtain ⟨-, rfl, -⟩ := h
    exact .inl (World.of_setCache hs hP.lookup)
  | insert c lookup source entry =>
    obtain ⟨rfl, -⟩ := h
    by_cases hold : P (w.caches tag)
    · exact .inl hold
    · rw [World.caches_setCache] at hs
      split_ifs at hs with heq
      · exact .inr ⟨c, lookup, source, entry, _, rfl, heq.symm, hs, heq ▸ hold⟩
      · exact .inl hs
  | kick c k bg entry =>
    simp only [perform] at h
    split_ifs at h
    · exact .inl (h.1 ▸ hs)
    · obtain ⟨rfl, -⟩ := h
      exact .inl (World.of_setCache hs (hP.congr rfl))
  | count k =>
    obtain ⟨rfl, -⟩ := h
    exact .inl hs
  | call p ctx => exact .inl (h.1 ▸ hs)
  | now => exact .inl (h.2.1 ▸ hs)
  | timer d => exact .inl (h.2.1 ▸ hs)
  | exchange ups q => exact .inl (h.1 ▸ hs)
  | upgrade => exact .inl (h.2.1 ▸ hs)
  | overflow => exact h.elim

omit [Crates] in
theorem inserted_drift (hP : CacheState.Inserted P) {w w' : World} (h : Drift w w') {tag : Tag}
    (hs : P (w'.caches tag)) : P (w.caches tag) := by
  cases h with
  | tick h => exact hs
  | flush tag' i => exact World.of_setCache hs hP.flush
  | drop => exact hs

omit [Crates] in
theorem inserted_release (hP : CacheState.Inserted P) {w : World} {o : Owner} {tag : Tag}
    (hs : P ((release o w).caches tag)) : P (w.caches tag) := by
  cases o with
  | none => exact hs
  | some g => exact World.of_setCache hs (hP.congr rfl)

/-- What a run leaves in a cache was there at its start, or one of its insertions brought it. -/
theorem inserted_run (hP : CacheState.Inserted P) {p q : State} {tr : Trace}
    (h : Runs reg depth p tr q) {tag : Tag} (hs : P (q.world.caches tag)) :
    P (p.world.caches tag) ∨ ∃ ev ∈ tr, Begets P tag ev := by
  induction h with
  | refl p => exact .inl hs
  | @step p q r ev tr hstep _ ih =>
    rcases ih hs with hq | ⟨ev', hev', hins⟩
    · cases hstep with
      | act h =>
        rcases inserted_perform hP h hq with hp | hins
        · exact .inl hp
        · exact .inr ⟨_, by simp, hins⟩
      | await => exact .inl hq
      | choose b => exact .inl hq
      | leave => exact .inl (inserted_release hP hq)
      | drift h => exact .inl (inserted_drift hP h hq)
      | arrive h => exact .inl hq
    · exact .inr ⟨ev', List.mem_append_right _ hev', hins⟩

theorem stores_run {p q : State} {tr : Trace} (h : Runs reg depth p tr q) {tag : Tag} {key : Text}
    {e : Entry} (hs : q.world.Stores tag key e) :
    p.world.Stores tag key e ∨ ∃ ev ∈ tr, Inserts tag key e ev := by
  refine (inserted_run (CacheState.inserted_stores key e) h hs).imp_right ?_
  rintro ⟨ev, hev, c, lookup, source, e', st, he, htag, hnew, hold⟩
  obtain ⟨hkey, rfl⟩ := (CacheState.stores_insert hnew).resolve_right hold
  exact ⟨ev, hev, c, lookup, source, he, htag, hkey.symm⟩

theorem found_run {p q : State} {tr : Trace} (h : Runs reg depth p tr q) {tag : Tag} {key : Text}
    {e : Entry} (hs : (q.world.caches tag).found key = some e) :
    (p.world.caches tag).found key = some e ∨ ∃ ev ∈ tr, Inserts tag key e ev := by
  refine (inserted_run (CacheState.inserted_found key e) h hs).imp_right ?_
  rintro ⟨ev, hev, c, lookup, source, e', st, he, htag, hnew, hold⟩
  obtain ⟨hkey, rfl⟩ := (CacheState.found_insert hnew).resolve_right hold
  exact ⟨ev, hev, c, lookup, source, he, htag, hkey.symm⟩

/-- After an insertion only its entry or a later one is found. -/
theorem found_after {p q : State} {tr tr' : Trace} {c : Cache} {lookup : CacheLookup}
    {source : Option Source} {e e' : Entry} {u : Unit}
    (h : Runs reg depth p (tr ++ ⟨.insert c lookup source e, u⟩ :: tr') q)
    (hs : (q.world.caches c.tag).found lookup.key = some e') :
    e' = e ∨ ∃ ev ∈ tr', Inserts c.tag lookup.key e' ev := by
  obtain ⟨a, b, -, hstep, hrest⟩ := h.split
  refine (found_run hrest hs).imp_left fun hb => ?_
  obtain ⟨new, hperf⟩ := hstep.performed
  obtain ⟨hw, -⟩ : b.world = _ ∧ _ := hperf
  rw [hw, World.caches_setCache, if_pos rfl, CacheState.found_insert_self] at hb
  exact (Option.some.inj hb).symm

omit [Crates] in
theorem Fresh.not_stores {p : State} (h : Fresh p) (tag : Tag) (key : Text) (e : Entry) :
    ¬ p.world.Stores tag key e := by
  rintro ⟨i, hi⟩
  simp [h.empty] at hi

end Resolver

end FerrumDns
