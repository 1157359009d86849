import FerrumDns.Lru.Recency
import FerrumDns.Resolver
import FerrumDns.Runtime.Build
import Mathlib.Algebra.Order.BigOperators.Group.List
import Mathlib.Algebra.Order.Group.Nat

/-! A shard is a bounded map in recency order. Its queue of keys and its hash map are
changed one after the other by every operation; what keeps them together is that the
map's pairs are those of the reference, in some order, and the queue is the reference's
keys. The shards of a cache share no key, so together they hold at most as many
entries as they have room for. -/

namespace FerrumDns

open Keyed

/-! ### One shard -/

namespace Shard

/-- The shard holds what the reference holds, with its queue in the reference's order. -/
structure Tracks (s : Shard) (l : Recency Text Entry) : Prop where
  cap : s.cap = l.cap
  lru : s.lru = l.keys
  map : s.map.Perm l.entries

/-- One operation under the shard's lock. -/
def step (s : Shard) : Recency.Op Text Entry → Option Entry × Shard
  | .insert key entry => (none, s.insert key entry)
  | .get key => s.get key
  | .flush => (none, s.flush)

theorem new_tracks (cap : ℕ) : (new cap).Tracks (.empty (max cap 1) (by omega)) :=
  ⟨rfl, rfl, .refl _⟩

namespace Tracks

variable {s : Shard} {l : Recency Text Entry}

theorem distinct (h : s.Tracks l) : Distinct s.map := (h.map.map Prod.fst).nodup_iff.2 l.distinct

theorem nodup (h : s.Tracks l) : s.lru.Nodup := h.lru ▸ l.distinct

theorem len_eq (h : s.Tracks l) : s.len = l.entries.length := h.map.length_eq

theorem len_le (h : s.Tracks l) : s.len ≤ s.cap := by
  rw [h.len_eq, h.cap]
  exact l.fits

theorem lookup (h : s.Tracks l) (key : Text) : s.map.lookup key = l.find key :=
  lookup_perm h.distinct h.map

theorem mem_lru (h : s.Tracks l) {key : Text} : key ∈ s.lru ↔ (s.map.lookup key).isSome := by
  rw [h.lru, h.lookup]
  exact Recency.find_isSome.symm

theorem get (h : s.Tracks l) (key : Text) :
    (s.get key).1 = l.find key ∧ (s.get key).2.Tracks (l.touch key) := by
  rw [Shard.get, Recency.touch, h.lookup]
  cases hv : l.find key with
  | none => exact ⟨rfl, h⟩
  | some e =>
    have hk : key ∈ l.keys := Recency.find_isSome.1 (by rw [hv]; rfl)
    have hentries := l.entries_put_of_mem e hk
    simp only [h.lru, if_pos hk]
    refine ⟨trivial, h.cap, ?_, ?_⟩
    · simp only [Recency.keys, hentries, List.map_append, map_fst_without key l.distinct]
      rfl
    · rw [hentries]
      exact h.map.trans (perm_without l.distinct ((lookup_eq_some l.distinct).1 hv))

/-- The eviction loop stops at once below the capacity. -/
theorem evict_of_lt {cap : ℕ} (lru : List Text) {map : List (Text × Entry)}
    (h : map.length < cap) : evict cap lru map = (lru, map) := by
  cases lru with
  | nil => rfl
  | cons old lru => rw [evict, if_neg (by omega)]

/-- At the capacity the loop goes round once. -/
theorem evict_of_full (h : s.Tracks l) (hfull : l.entries.length = l.cap) :
    ∃ old e rest, l.entries = (old, e) :: rest ∧
      evict s.cap s.lru s.map = (rest.map Prod.fst, without old s.map) := by
  have hpos := l.pos
  cases he : l.entries with
  | nil =>
    rw [he, List.length_nil] at hfull
    omega
  | cons x rest =>
    obtain ⟨old, e⟩ := x
    have hlru : s.lru = old :: rest.map Prod.fst := by rw [h.lru, Recency.keys, he]; rfl
    have hlen : s.map.length = s.cap := by rw [h.map.length_eq, hfull, h.cap]
    have hmem : old ∈ s.map.map Prod.fst := by
      rw [(h.map.map Prod.fst).mem_iff, he]
      exact List.mem_cons_self
    have hshort := length_without h.distinct hmem
    refine ⟨old, e, rest, rfl, ?_⟩
    rw [hlru, evict, if_pos (by omega)]
    exact evict_of_lt _ (by change (without old s.map).length < s.cap; omega)

theorem insert (h : s.Tracks l) (key : Text) (entry : Entry) :
    (s.insert key entry).Tracks (l.put key entry) := by
  rw [Shard.insert, h.lookup]
  by_cases hk : key ∈ l.keys
  · have hentries := l.entries_put_of_mem entry hk
    rw [if_pos (Recency.find_isSome.2 hk)]
    refine ⟨h.cap, ?_, ?_⟩
    · simp only [Recency.keys, hentries, List.map_append, map_fst_without key l.distinct, h.lru]
      rfl
    · rw [hentries]
      exact (List.perm_append_singleton _ _).symm.trans ((h.map.filter _).append_right _)
  · rw [if_neg (mt Recency.find_isSome.1 hk)]
    rcases lt_or_eq_of_le l.fits with hroom | hfull
    · have hentries := l.entries_put_of_room entry hk hroom
      rw [evict_of_lt s.lru (by rw [h.map.length_eq, h.cap]; exact hroom)]
      refine ⟨h.cap, ?_, ?_⟩
      · simp only [Recency.keys, hentries, List.map_append, h.lru]
        rfl
      · rw [hentries]
        exact (List.perm_append_singleton _ _).symm.trans (h.map.append_right _)
    · have hentries := l.entries_put_of_full entry hk hfull
      obtain ⟨old, e, rest, hl, hevict⟩ := h.evict_of_full hfull
      rw [hevict]
      rw [hl, List.tail_cons] at hentries
      refine ⟨h.cap, ?_, ?_⟩
      · simp only [Recency.keys, hentries, List.map_append]
        rfl
      · have hrest : without old l.entries = rest := by
          have hd := l.distinct
          rw [Distinct, hl] at hd
          have hnew : old ∉ rest.map Prod.fst := (List.nodup_cons.1 hd).1
          rw [hl, without, List.filter_cons_of_neg (by simp)]
          exact without_of_notMem hnew
        have hperm : (without old s.map).Perm rest := hrest ▸ h.map.filter _
        rw [hentries]
        exact (List.perm_append_singleton _ _).symm.trans (hperm.append_right _)

theorem flush (h : s.Tracks l) : s.flush.Tracks l.clear := ⟨h.cap, rfl, .refl _⟩

/-- One operation answers alike and keeps the shard in step. -/
theorem step (h : s.Tracks l) (op : Recency.Op Text Entry) :
    (s.step op).1 = (l.step op).1 ∧ (s.step op).2.Tracks (l.step op).2 := by
  cases op with
  | insert key entry => exact ⟨rfl, h.insert key entry⟩
  | get key => exact h.get key
  | flush => exact ⟨rfl, h.flush⟩

/-- A new key in a full shard drives out the least recent one, and no other. -/
theorem lru_insert_of_full (h : s.Tracks l) {key : Text} (entry : Entry) (hk : key ∉ s.lru)
    (hfull : s.len = s.cap) : (s.insert key entry).lru = s.lru.tail ++ [key] := by
  have hlen : l.entries.length = l.cap := by rw [← h.len_eq, hfull, h.cap]
  rw [(h.insert key entry).lru, Recency.keys, l.entries_put_of_full entry (h.lru ▸ hk) hlen,
    List.map_append, List.map_tail, h.lru]
  rfl

end Tracks

end Shard

/-! ### All shards of a cache -/

namespace CacheState

/-- One operation on a cache: a look-up, an insertion, or a flush of one shard. -/
inductive Op where
  | lookup (c : Cache) (key : Text) (now : ℕ)
  | insert (key : Text) (entry : Entry)
  | flush (i : Fin 16)

def step (st : CacheState) : Op → CacheState
  | .lookup c key now => (st.lookup c key now).2
  | .insert key entry => st.insert key entry
  | .flush i => st.flush i

def run (st : CacheState) (ops : List Op) : CacheState := ops.foldl step st

/-- The shard an operation locks. -/
def Op.target : Op → Fin 16
  | lookup _ key _ => shard key
  | insert key _ => shard key
  | flush i => i

/-- What an operation does in the shard it locks. -/
def Op.local : Op → Recency.Op Text Entry
  | lookup _ key _ => .get key
  | insert key entry => .insert key entry
  | flush _ => .flush

/-- An operation is one operation on the shard it locks, and leaves the others alone. -/
theorem shards_step (st : CacheState) (op : Op) (i : Fin 16) : (st.step op).shards i =
    if i = op.target then ((st.shards i).step op.local).2 else st.shards i := by
  by_cases hi : i = op.target
  · subst hi
    rw [if_pos rfl]
    cases op with
    | lookup c key now =>
      simp only [step, CacheState.lookup, Op.target, Function.update_self]
      rfl
    | insert key entry => exact Function.update_self _ _ _
    | flush j => exact Function.update_self _ _ _
  · rw [if_neg hi]
    cases op with
    | lookup c key now =>
      simp only [step, CacheState.lookup]
      exact Function.update_of_ne hi _ _
    | insert key entry => exact Function.update_of_ne hi _ _
    | flush j => exact Function.update_of_ne hi _ _

/-- Every shard tracks a reference of capacity `cap` that has only keys of that shard. -/
def Balanced (cap : ℕ) (st : CacheState) : Prop :=
  ∀ i, ∃ l : Recency Text Entry, (st.shards i).Tracks l ∧ l.cap = cap ∧ ∀ key ∈ l.keys, shard key = i

theorem new_balanced (cap : ℕ) : (new cap).Balanced (max cap 1) :=
  fun _ => ⟨_, Shard.new_tracks cap, rfl, by simp [Recency.empty, Recency.keys]⟩

theorem Balanced.step {cap : ℕ} {st : CacheState} (h : st.Balanced cap) (op : Op) :
    (st.step op).Balanced cap := by
  intro i
  obtain ⟨l, htracks, hcap, hkeys⟩ := h i
  rw [shards_step]
  split_ifs with hi
  · refine ⟨(l.step op.local).2, (htracks.step op.local).2, (l.cap_step _).trans hcap, ?_⟩
    intro key hkey
    rcases Recency.keys_step hkey with hold | ⟨e, hins⟩
    · exact hkeys key hold
    · cases op with
      | lookup c key' now => cases hins
      | insert key' e' =>
        cases hins
        exact hi.symm
      | flush j => cases hins
  · exact ⟨l, htracks, hcap, hkeys⟩

theorem Balanced.run {cap : ℕ} {st : CacheState} (h : st.Balanced cap) (ops : List Op) :
    (st.run ops).Balanced cap := by
  induction ops generalizing st with
  | nil => exact h
  | cons op ops ih => exact ih (h.step op)

theorem Balanced.len_le {cap : ℕ} {st : CacheState} (h : st.Balanced cap) : st.len ≤ 16 * cap := by
  have hshard : ∀ n ∈ (List.finRange 16).map fun i => (st.shards i).len, n ≤ cap := by
    intro n hn
    obtain ⟨i, -, rfl⟩ := List.mem_map.1 hn
    obtain ⟨l, htracks, hcap, -⟩ := h i
    exact htracks.len_le.trans (by rw [htracks.cap, hcap])
  have hsum := List.sum_le_card_nsmul _ cap hshard
  rwa [List.length_map, List.length_finRange] at hsum

theorem Balanced.shard_eq {cap : ℕ} {st : CacheState} (h : st.Balanced cap) {i : Fin 16}
    {key : Text} (hk : ((st.shards i).map.lookup key).isSome) : shard key = i := by
  obtain ⟨l, htracks, -, hkeys⟩ := h i
  rw [htracks.lookup] at hk
  exact hkeys key (Recency.find_isSome.1 hk)

end CacheState

/-! ### The caches of the resolver -/

namespace Resolver

open CacheState

variable [Crates] {reg : Registry} {depth : ℕ}

/-- The caches of the world keep within their capacities. -/
def Roomy (cap : Tag → ℕ) (w : World) : Prop := ∀ tag, (w.caches tag).Balanced (cap tag)

omit [Crates] in
theorem Roomy.setCache {cap : Tag → ℕ} {w : World} (h : Roomy cap w) (tag : Tag) {st : CacheState}
    (hst : st.Balanced (cap tag)) : Roomy cap (w.setCache tag st) := by
  intro tag'
  by_cases ht : tag' = tag
  · subst ht
    simpa [World.setCache] using hst
  · simpa [World.setCache, Function.update_of_ne ht] using h tag'

/-- What one action does to the caches is a look-up or an insertion in one of them. -/
theorem Roomy.perform {cap : Tag → ℕ} {w w' : World} {e : Eff} {r : e.Answer} {new : List Task}
    (h : Roomy cap w) (hp : Resolver.perform reg depth w e r w' new) : Roomy cap w' := by
  cases e with
  | lookup c key q =>
    obtain ⟨-, rfl, -⟩ := hp
    exact h.setCache c.tag ((h c.tag).step (.lookup c key w.clock))
  | insert c lookup source entry =>
    obtain ⟨rfl, -⟩ := hp
    exact h.setCache c.tag ((h c.tag).step (.insert lookup.key entry))
  | kick c key bg entry =>
    simp only [Resolver.perform] at hp
    split_ifs at hp
    · exact hp.1 ▸ h
    · exact hp.1 ▸ h.setCache c.tag (h c.tag)
  | count k => exact hp.1 ▸ h
  | call p ctx => exact hp.1 ▸ h
  | now => exact hp.2.1 ▸ h
  | timer d => exact hp.2.1 ▸ h
  | exchange ups q => exact hp.1 ▸ h
  | upgrade => exact hp.2.1 ▸ h
  | overflow => exact hp.elim

/-- Requests, refreshes, flushes and the passing of time keep every cache within its capacity. -/
theorem Roomy.run {cap : Tag → ℕ} {p q : State} {tr : Trace} (h : Roomy cap p.world)
    (hrun : Runs reg depth p tr q) : Roomy cap q.world := by
  induction hrun with
  | refl p => exact h
  | step hstep _ ih =>
    refine ih ?_
    cases hstep with
    | act hp => exact h.perform hp
    | await => exact h
    | choose b => exact h
    | @leave w l l' t p =>
      cases t with
      | none => exact h
      | some g => exact h.setCache g.cache (h g.cache)
    | drift hd =>
      cases hd with
      | tick ht => exact h
      | flush tag i => exact h.setCache tag ((h tag).step (.flush i))
      | drop => exact h
    | arrive ha => exact h

end Resolver

/-- The number of entries that `size` in the arguments asks for. -/
def Cache.configuredSize (args : Value) : ℕ := (((args.get "size").bind Value.asU64).getD 8192).toNat

/-- Every run of a new shard answers as the reference list does, and holds the same entries in the
same order. A key lives in the shard it hashes to, and all shards together stay within the
configured size. -/
theorem Shard.lru_refines :
    (∀ (cap : ℕ) (ops : List (Recency.Op Text Entry)),
      let shard := Recency.runWith Shard.step (Shard.new cap) ops
      let list := Recency.runWith Recency.step (Recency.empty (max cap 1) (by omega)) ops
      shard.1 = list.1 ∧ shard.2.Tracks list.2 ∧ list.2.cap = max cap 1 ∧
      shard.2.lru.Nodup ∧ (∀ key, key ∈ shard.2.lru ↔ (shard.2.map.lookup key).isSome) ∧
      (∀ key, (shard.2.get key).1 =
        if key ∈ shard.2.lru then Recency.lastPut key none ops else none) ∧
      (∀ key entry, key ∉ shard.2.lru → shard.2.len = max cap 1 →
        (shard.2.insert key entry).lru = shard.2.lru.tail ++ [key])) ∧
    (∀ (tag : Tag) (args : Value) (ops : List CacheState.Op),
      let st := (CacheState.new (Cache.fromArgs tag args).cap).run ops
      (∀ i key, ((st.shards i).map.lookup key).isSome → CacheState.shard key = i) ∧
      (∀ op i, i ≠ op.target → (st.step op).shards i = st.shards i) ∧
      st.len ≤ 16 * max (Cache.configuredSize args / 16) 32) := by
  refine ⟨fun cap ops => ?_, fun tag args ops => ?_⟩
  · intro shard list
    have hrun : shard.1 = list.1 ∧ shard.2.Tracks list.2 :=
      Recency.runWith_related (fun h op => h.step op) (Shard.new_tracks cap) ops
    have hcap : list.2.cap = max cap 1 := Recency.cap_run _ ops
    refine ⟨hrun.1, hrun.2, hcap, hrun.2.nodup, fun key => hrun.2.mem_lru, fun key => ?_, ?_⟩
    · rw [(hrun.2.get key).1]
      split_ifs with hk
      · obtain ⟨e, he⟩ := Option.isSome_iff_exists.1 (Recency.find_isSome.2 (hrun.2.lru ▸ hk))
        exact he.trans (Recency.find_run (by intro v hv; cases hv) ops he).symm
      · exact Option.not_isSome_iff_eq_none.1 fun h => hk (hrun.2.lru ▸ Recency.find_isSome.1 h)
    · intro key entry hk hfull
      exact hrun.2.lru_insert_of_full entry hk (by rw [hfull, hrun.2.cap, hcap])
  · have hbal := (CacheState.new_balanced (Cache.fromArgs tag args).cap).run ops
    refine ⟨fun i key hk => hbal.shard_eq hk, fun op i hi => ?_, ?_⟩
    · rw [CacheState.shards_step, if_neg hi]
    · have hmax : max (Cache.fromArgs tag args).cap 1 = max (Cache.configuredSize args / 16) 32 := by
        simp only [Cache.fromArgs, Cache.configuredSize]
        omega
      exact hmax ▸ hbal.len_le

end FerrumDns
