import Mathlib.Data.List.DropRight
import Mathlib.Data.List.Nodup
import Mathlib.Data.List.Perm.Basic

/-! A map of bounded size that forgets the least recently used key first, as the
list of its entries in recency order. Looking a key up makes it the most recent
one; so does storing it, which then cuts the list from its old end. Nothing here
depends on what keys and values are. -/

namespace FerrumDns

variable {κ ν : Type}

/-! ### Lists of pairs with distinct keys -/

namespace Keyed

/-- Each key occurs once. -/
def Distinct (l : List (κ × ν)) : Prop := (l.map Prod.fst).Nodup

theorem Distinct.sublist {l l' : List (κ × ν)} (h : Distinct l) (hs : l'.Sublist l) :
    Distinct l' :=
  List.Nodup.sublist (hs.map Prod.fst) h

theorem Distinct.append_single {l : List (κ × ν)} {k : κ} {v : ν} (h : Distinct l)
    (hk : k ∉ l.map Prod.fst) : Distinct (l ++ [(k, v)]) := by
  unfold Distinct
  rw [List.map_append, List.nodup_append]
  refine ⟨h, List.nodup_singleton _, fun a ha b hb => ?_⟩
  rintro rfl
  rw [List.mem_singleton.1 hb] at ha
  exact hk ha

variable [DecidableEq κ]

/-- The entries of all keys but one. -/
def without (k : κ) (l : List (κ × ν)) : List (κ × ν) := l.filter (·.1 ≠ k)

theorem notMem_without (k : κ) (l : List (κ × ν)) : k ∉ (without k l).map Prod.fst := by
  intro h
  obtain ⟨x, hx, rfl⟩ := List.mem_map.1 h
  simpa using (List.mem_filter.1 hx).2

theorem without_of_notMem {k : κ} {l : List (κ × ν)} (h : k ∉ l.map Prod.fst) : without k l = l := by
  refine List.filter_eq_self.2 fun x hx => ?_
  simp only [decide_eq_true_eq]
  rintro rfl
  exact h (List.mem_map_of_mem hx)

variable [BEq κ] [LawfulBEq κ]

theorem map_fst_without (k : κ) {l : List (κ × ν)} (h : Distinct l) :
    (without k l).map Prod.fst = (l.map Prod.fst).erase k := by
  rw [List.Nodup.erase_eq_filter h, List.filter_map]
  refine congrArg (List.map Prod.fst) (List.filter_congr fun x _ => ?_)
  simp only [Function.comp_apply, bne, beq_eq_decide, decide_not]

theorem length_without {k : κ} {l : List (κ × ν)} (h : Distinct l) (hk : k ∈ l.map Prod.fst) :
    (without k l).length + 1 = l.length := by
  have hlen := congrArg List.length (map_fst_without k h)
  rw [List.length_map, List.length_erase_of_mem hk, List.length_map] at hlen
  have hpos := List.length_pos_of_mem hk
  rw [List.length_map] at hpos
  omega

theorem lookup_isSome {k : κ} {l : List (κ × ν)} : (l.lookup k).isSome ↔ k ∈ l.map Prod.fst := by
  induction l with
  | nil => simp
  | cons x l ih =>
    obtain ⟨k', v⟩ := x
    rw [List.lookup_cons]
    by_cases hk : k = k'
    · simp [hk]
    · have hbeq : (k == k') = false := by simpa using hk
      simp only [hbeq, ih, List.map_cons, List.mem_cons, hk, false_or]

/-- Looking up is membership when keys are distinct. -/
theorem lookup_eq_some {k : κ} {v : ν} {l : List (κ × ν)} (h : Distinct l) :
    l.lookup k = some v ↔ (k, v) ∈ l := by
  induction l with
  | nil => simp
  | cons x l ih =>
    obtain ⟨k', v'⟩ := x
    obtain ⟨hnew, hrest⟩ := List.nodup_cons.1 h
    rw [List.lookup_cons]
    by_cases hk : k = k'
    · subst hk
      have hnot : (k, v) ∉ l := fun hm => hnew (List.mem_map.2 ⟨(k, v), hm, rfl⟩)
      simp [hnot, eq_comm]
    · have hbeq : (k == k') = false := by simpa using hk
      simp only [hbeq, ih hrest, List.mem_cons, Prod.mk.injEq, hk, false_and, false_or]

theorem perm_without {k : κ} {v : ν} {l : List (κ × ν)} (h : Distinct l) (hm : (k, v) ∈ l) :
    l.Perm (without k l ++ [(k, v)]) := by
  have hnew : Distinct (without k l ++ [(k, v)]) :=
    (h.sublist List.filter_sublist).append_single (notMem_without k l)
  refine (List.perm_ext_iff_of_nodup (List.Nodup.of_map _ h) (List.Nodup.of_map _ hnew)).2 fun x => ?_
  simp only [without, List.mem_append, List.mem_filter, decide_eq_true_eq, List.mem_singleton]
  constructor
  · intro hx
    by_cases hk : x.1 = k
    · refine .inr ?_
      have hv := (lookup_eq_some h).2 hm
      rw [← hk, (lookup_eq_some (v := x.2) h).2 hx] at hv
      exact Prod.ext hk (Option.some.inj hv)
    · exact .inl ⟨hx, hk⟩
  · rintro (hx | rfl)
    · exact hx.1
    · exact hm

theorem lookup_perm {k : κ} {l l' : List (κ × ν)} (h : Distinct l) (hp : l.Perm l') :
    l.lookup k = l'.lookup k := by
  have h' : Distinct l' := (hp.map Prod.fst).nodup_iff.1 h
  refine Option.ext fun v => ?_
  rw [lookup_eq_some h, lookup_eq_some h', hp.mem_iff]

end Keyed

/-! ### The map -/

/-- At most `cap` entries with distinct keys, the least recent one first. -/
structure Recency (κ ν : Type) where
  entries : List (κ × ν)
  cap : ℕ
  pos : 0 < cap
  distinct : Keyed.Distinct entries
  fits : entries.length ≤ cap

namespace Recency

open Keyed

def empty (cap : ℕ) (pos : 0 < cap) : Recency κ ν := ⟨[], cap, pos, List.nodup_nil, Nat.zero_le _⟩

def keys (l : Recency κ ν) : List κ := l.entries.map Prod.fst

def clear (l : Recency κ ν) : Recency κ ν := empty l.cap l.pos

variable [DecidableEq κ] [BEq κ] [LawfulBEq κ]

def find (l : Recency κ ν) (k : κ) : Option ν := l.entries.lookup k

theorem find_isSome {l : Recency κ ν} {k : κ} : (l.find k).isSome ↔ k ∈ l.keys := lookup_isSome

/-- The entry of `k` becomes the most recent one, and the list is cut to its `cap` latest. -/
def put (l : Recency κ ν) (k : κ) (v : ν) : Recency κ ν where
  entries := (without k l.entries ++ [(k, v)]).rtake l.cap
  cap := l.cap
  pos := l.pos
  distinct :=
    ((l.distinct.sublist List.filter_sublist).append_single (notMem_without k _)).sublist
      (List.drop_sublist _ _)
  fits := by
    rw [List.rtake, List.length_drop]
    omega

/-- A key that is there becomes the most recent one. -/
def touch (l : Recency κ ν) (k : κ) : Recency κ ν :=
  match l.find k with
  | some v => l.put k v
  | none => l

omit [BEq κ] [LawfulBEq κ] in
/-- Nothing is cut while there is room. -/
theorem entries_put_of_lt (l : Recency κ ν) {k : κ} (v : ν)
    (h : (without k l.entries).length < l.cap) :
    (l.put k v).entries = without k l.entries ++ [(k, v)] := by
  have hdrop : (without k l.entries ++ [(k, v)]).length - l.cap = 0 := by
    rw [List.length_append, List.length_singleton]
    omega
  simp only [put, List.rtake, hdrop, List.drop_zero]

theorem entries_put_of_mem (l : Recency κ ν) {k : κ} (v : ν) (h : k ∈ l.keys) :
    (l.put k v).entries = without k l.entries ++ [(k, v)] := by
  refine l.entries_put_of_lt v ?_
  have hlen := length_without l.distinct h
  have hfits := l.fits
  omega

omit [BEq κ] [LawfulBEq κ] in
theorem entries_put_of_room (l : Recency κ ν) {k : κ} (v : ν) (h : k ∉ l.keys)
    (hroom : l.entries.length < l.cap) : (l.put k v).entries = l.entries ++ [(k, v)] := by
  have hw := without_of_notMem h
  rw [l.entries_put_of_lt v (by rw [hw]; exact hroom), hw]

omit [BEq κ] [LawfulBEq κ] in
/-- A new key in a full map drives out the least recent one, and no other. -/
theorem entries_put_of_full (l : Recency κ ν) {k : κ} (v : ν) (h : k ∉ l.keys)
    (hfull : l.entries.length = l.cap) : (l.put k v).entries = l.entries.tail ++ [(k, v)] := by
  have hpos := l.pos
  have hone : (l.entries ++ [(k, v)]).length - l.cap = 1 := by
    rw [List.length_append, List.length_singleton]
    omega
  have hne : l.entries ≠ [] := by
    rintro he
    rw [he, List.length_nil] at hfull
    omega
  simp only [put, List.rtake, without_of_notMem h, hone, List.drop_one,
    List.tail_append_of_ne_nil hne]

omit [BEq κ] [LawfulBEq κ] in
theorem mem_put (l : Recency κ ν) (k : κ) (v : ν) : (k, v) ∈ (l.put k v).entries := by
  have hpos := l.pos
  simp only [put, List.rtake]
  rw [List.drop_append_of_le_length (by rw [List.length_append, List.length_singleton]; omega)]
  exact List.mem_append_right _ (List.mem_singleton.2 rfl)

@[simp] theorem find_put_self (l : Recency κ ν) (k : κ) (v : ν) : (l.put k v).find k = some v :=
  (lookup_eq_some (l.put k v).distinct).2 (l.mem_put k v)

/-- What is found under another key was found there before. -/
theorem find_of_find_put {l : Recency κ ν} {k k' : κ} {v v' : ν} (hk : k' ≠ k)
    (h : (l.put k v).find k' = some v') : l.find k' = some v' := by
  have hmem := (lookup_eq_some (l.put k v).distinct).1 h
  rcases List.mem_append.1 (List.mem_of_mem_drop hmem) with hm | hm
  · exact (lookup_eq_some l.distinct).2 (List.mem_of_mem_filter hm)
  · cases List.mem_singleton.1 hm
    exact absurd rfl hk

/-- Touching changes the order only. -/
theorem find_touch (l : Recency κ ν) (k k' : κ) : (l.touch k).find k' = l.find k' := by
  rw [touch]
  cases hv : l.find k with
  | none => rfl
  | some v =>
    have hk : k ∈ l.keys := find_isSome.1 (by rw [hv]; rfl)
    have hperm : l.entries.Perm (l.put k v).entries := by
      rw [l.entries_put_of_mem v hk]
      exact perm_without l.distinct ((lookup_eq_some l.distinct).1 hv)
    exact (lookup_perm l.distinct hperm).symm

/-! ### Runs of operations -/

/-- What can be done with such a map. -/
inductive Op (κ ν : Type) where
  | insert (k : κ) (v : ν)
  | get (k : κ)
  | flush

/-- The answer of an operation, if it gives one, and the map it leaves. -/
def step (l : Recency κ ν) : Op κ ν → Option ν × Recency κ ν
  | .insert k v => (none, l.put k v)
  | .get k => (l.find k, l.touch k)
  | .flush => (none, l.clear)

/-- Only an insertion brings a key in. -/
theorem keys_step {l : Recency κ ν} {op : Op κ ν} {k : κ} (h : k ∈ (l.step op).2.keys) :
    k ∈ l.keys ∨ ∃ v, op = .insert k v := by
  rw [← find_isSome, Option.isSome_iff_exists] at h
  obtain ⟨v, hv⟩ := h
  have before {l : Recency κ ν} (hv : l.find k = some v) : k ∈ l.keys :=
    find_isSome.1 (by rw [hv]; rfl)
  cases op with
  | insert k' v' =>
    by_cases hk : k = k'
    · exact .inr ⟨v', by rw [hk]⟩
    · exact .inl (before (find_of_find_put hk hv))
  | get k' => exact .inl (before ((l.find_touch k' k).symm.trans hv))
  | flush => cases hv

omit [LawfulBEq κ] in
@[simp] theorem cap_step (l : Recency κ ν) (op : Op κ ν) : (l.step op).2.cap = l.cap := by
  cases op with
  | insert k v => rfl
  | get k =>
    rw [step, touch]
    cases l.find k <;> rfl
  | flush => rfl

/-- The answers of a series of operations and the map it leaves, for any step function. -/
def runWith {σ : Type} (step : σ → Op κ ν → Option ν × σ) : σ → List (Op κ ν) → List (Option ν) × σ
  | s, [] => ([], s)
  | s, op :: ops =>
    let (a, s) := step s op
    let (as, s) := runWith step s ops
    (a :: as, s)

omit [LawfulBEq κ] in
@[simp] theorem cap_run (l : Recency κ ν) (ops : List (Op κ ν)) :
    (runWith step l ops).2.cap = l.cap := by
  induction ops generalizing l with
  | nil => rfl
  | cons op ops ih => exact (ih _).trans (l.cap_step op)

omit [DecidableEq κ] [BEq κ] [LawfulBEq κ] in
/-- Two implementations that answer alike and stay related do so in every run. -/
theorem runWith_related {σ τ : Type} {f : σ → Op κ ν → Option ν × σ}
    {g : τ → Op κ ν → Option ν × τ} {rel : σ → τ → Prop}
    (hstep : ∀ {s t}, rel s t → ∀ op, (f s op).1 = (g t op).1 ∧ rel (f s op).2 (g t op).2)
    {s : σ} {t : τ} (h : rel s t) (ops : List (Op κ ν)) :
    (runWith f s ops).1 = (runWith g t ops).1 ∧ rel (runWith f s ops).2 (runWith g t ops).2 := by
  induction ops generalizing s t with
  | nil => exact ⟨rfl, h⟩
  | cons op ops ih =>
    obtain ⟨ha, hs⟩ := hstep h op
    obtain ⟨has, hlast⟩ := ih hs
    exact ⟨congrArg₂ List.cons ha has, hlast⟩

/-- What was stored last under a key since the last flush, on top of `v₀` from before. -/
def lastPut (k : κ) : Option ν → List (Op κ ν) → Option ν
  | v₀, [] => v₀
  | v₀, .insert k' v :: ops => lastPut k (if k = k' then some v else v₀) ops
  | v₀, .get _ :: ops => lastPut k v₀ ops
  | _, .flush :: ops => lastPut k none ops

/-- An entry that is found is the one stored last under its key. -/
theorem find_run {l : Recency κ ν} {k : κ} {v₀ : Option ν} (h : ∀ v, l.find k = some v → v₀ = some v)
    (ops : List (Op κ ν)) {v : ν} (hv : (runWith step l ops).2.find k = some v) :
    lastPut k v₀ ops = some v := by
  induction ops generalizing l v₀ with
  | nil => exact h v hv
  | cons op ops ih =>
    cases op with
    | insert k' v' =>
      refine ih (fun w hw => ?_) hv
      by_cases hk : k = k'
      · subst hk
        rw [if_pos rfl]
        exact (l.find_put_self k v').symm.trans hw
      · rw [if_neg hk]
        exact h w (find_of_find_put hk hw)
    | get k' => exact ih (fun w hw => h w ((l.find_touch k' k).symm.trans hw)) hv
    | flush => exact ih (fun w hw => by cases hw) hv

end Recency

end FerrumDns
