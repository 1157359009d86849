import Mathlib.Data.List.Count
import Mathlib.Data.List.Perm.Basic
import Mathlib.Logic.Function.Basic
import Mathlib.Tactic.SplitIfs

/-! Reference-counted cells, each of which owns a second cell. Whoever has a reference
counts once, and the second cell counts its first one too for as long as that is there.
The counts are right when they are the numbers of the owners; then a weak reference can be
upgraded just if an owner is left. Nothing here depends on what the cells hold. -/

namespace FerrumDns

namespace Counted

variable {α : Type} [DecidableEq α]

/-- The strong counts of the first and of the second cell at each address. -/
structure Cells (α : Type) where
  outer : α → ℕ
  inner : α → ℕ

namespace Cells

/-- `Arc::new` of both, the second moved into the first. -/
def alloc (c : Cells α) (a : α) : Cells α :=
  ⟨Function.update c.outer a 1, Function.update c.inner a 1⟩

def clone (c : Cells α) (a : α) : Cells α :=
  { c with outer := Function.update c.outer a (c.outer a + 1) }

def cloneInner (c : Cells α) (a : α) : Cells α :=
  { c with inner := Function.update c.inner a (c.inner a + 1) }

/-- `Weak::upgrade`. -/
def upgrade (c : Cells α) (a : α) : Option (Cells α) :=
  if c.outer a = 0 then none else some (c.clone a)

def upgradeInner (c : Cells α) (a : α) : Option (Cells α) :=
  if c.inner a = 0 then none else some (c.cloneInner a)

def dropInner (c : Cells α) (a : α) : Cells α :=
  { c with inner := Function.update c.inner a (c.inner a - 1) }

/-- Dropping the last reference drops what the cell owns. -/
def drop (c : Cells α) (a : α) : Cells α :=
  let c := { c with outer := Function.update c.outer a (c.outer a - 1) }
  if c.outer a = 0 then c.dropInner a else c

/-- Dropping `n` references to the second cell. -/
def dropInners (c : Cells α) (a : α) : ℕ → Cells α
  | 0 => c
  | n + 1 => (c.dropInner a).dropInners a n

end Cells

/-- The counts are those of the owners. -/
structure Owned (c : Cells α) (owners holders : List α) : Prop where
  outer : ∀ a, c.outer a = owners.count a
  inner : ∀ a, c.inner a = (if a ∈ owners then 1 else 0) + holders.count a

namespace Owned

variable {c : Cells α} {outer outer' inner inner' : List α} {a : α}

theorem perm (h : Owned c outer inner) (ho : outer.Perm outer') (hi : inner.Perm inner') :
    Owned c outer' inner' where
  outer b := by rw [h.outer, ho.count_eq]
  inner b := by rw [h.inner, hi.count_eq, if_congr ho.mem_iff rfl rfl]

theorem outer_pos (h : Owned c outer inner) : 0 < c.outer a ↔ a ∈ outer := by
  rw [h.outer, List.count_pos_iff]

theorem inner_pos (h : Owned c outer inner) (hsub : ∀ b ∈ inner, b ∈ outer) :
    0 < c.inner a ↔ a ∈ outer := by
  rw [h.inner]
  by_cases ha : a ∈ outer
  · simp only [ha, if_true, iff_true]
    omega
  · have hnone : inner.count a = 0 := List.count_eq_zero.2 fun hin => ha (hsub a hin)
    simp [ha, hnone]

theorem alloc (h : Owned c outer inner) (ho : a ∉ outer) (hi : a ∉ inner) :
    Owned (c.alloc a) (a :: outer) inner where
  outer b := by
    by_cases hb : b = a
    · subst hb
      simp [Cells.alloc, List.count_eq_zero.2 ho]
    · simp [Cells.alloc, Function.update_of_ne hb, h.outer, List.count_cons_of_ne (Ne.symm hb)]
  inner b := by
    by_cases hb : b = a
    · subst hb
      simp [Cells.alloc, List.count_eq_zero.2 hi]
    · simp [Cells.alloc, h.inner, hb]

theorem clone (h : Owned c outer inner) (ho : a ∈ outer) :
    Owned (c.clone a) (a :: outer) inner where
  outer b := by
    by_cases hb : b = a
    · subst hb
      simp [Cells.clone, h.outer]
    · simp [Cells.clone, Function.update_of_ne hb, h.outer, List.count_cons_of_ne (Ne.symm hb)]
  inner b := by
    have hmem : b ∈ a :: outer ↔ b ∈ outer := by
      rw [List.mem_cons]
      exact or_iff_right_of_imp fun hb => hb ▸ ho
    simp only [Cells.clone, h.inner, hmem]

theorem cloneInner (h : Owned c outer inner) : Owned (c.cloneInner a) outer (a :: inner) where
  outer := h.outer
  inner b := by
    by_cases hb : b = a
    · subst hb
      simp [Cells.cloneInner, h.inner, Nat.add_assoc]
    · simp [Cells.cloneInner, Function.update_of_ne hb, h.inner,
        List.count_cons_of_ne (Ne.symm hb)]

theorem upgrade (h : Owned c outer inner) :
    c.upgrade a = if a ∈ outer then some (c.clone a) else none := by
  have hpos : c.outer a = 0 ↔ a ∉ outer := by rw [← h.outer_pos, Nat.pos_iff_ne_zero, not_not]
  by_cases ha : a ∈ outer
  · rw [Cells.upgrade, if_neg (fun h0 => hpos.1 h0 ha), if_pos ha]
  · rw [Cells.upgrade, if_pos (hpos.2 ha), if_neg ha]

theorem upgradeInner (h : Owned c outer inner) (ha : a ∈ outer) :
    c.upgradeInner a = some (c.cloneInner a) := by
  have hpos : c.inner a ≠ 0 := by
    rw [h.inner, if_pos ha]
    omega
  rw [Cells.upgradeInner, if_neg hpos]

theorem dropInner (h : Owned c outer (a :: inner)) : Owned (c.dropInner a) outer inner where
  outer := h.outer
  inner b := by
    by_cases hb : b = a
    · subst hb
      simp [Cells.dropInner, h.inner, ← Nat.add_assoc]
    · simp [Cells.dropInner, Function.update_of_ne hb, h.inner,
        List.count_cons_of_ne (Ne.symm hb)]

theorem dropInners {n : ℕ} (h : Owned c outer (List.replicate n a ++ inner)) :
    Owned (c.dropInners a n) outer inner := by
  induction n generalizing c with
  | zero => exact h
  | succ n ih => exact ih h.dropInner

theorem drop (h : Owned c (a :: outer) inner) : Owned (c.drop a) outer inner := by
  have houter (b : α) : Function.update c.outer a (c.outer a - 1) b = outer.count b := by
    by_cases hb : b = a
    · subst hb
      simp [h.outer]
    · simp [Function.update_of_ne hb, h.outer, List.count_cons_of_ne (Ne.symm hb)]
  have hinner (b : α) (hb : b ≠ a ∨ a ∈ outer) :
      c.inner b = (if b ∈ outer then 1 else 0) + inner.count b := by
    have hmem : b ∈ a :: outer ↔ b ∈ outer := by
      rw [List.mem_cons]
      exact or_iff_right_of_imp fun heq => hb.elim (fun hne => absurd heq hne) (heq ▸ ·)
    rw [h.inner, if_congr hmem rfl rfl]
  simp only [Cells.drop]
  by_cases ha : a ∈ outer
  · have hleft : outer.count a ≠ 0 := Nat.pos_iff_ne_zero.1 (List.count_pos_iff.2 ha)
    rw [if_neg fun h0 => hleft ((houter a).symm.trans h0)]
    exact ⟨houter, fun b => hinner b (.inr ha)⟩
  · -- The last owner is gone, and what it owned is dropped.
    rw [if_pos ((houter a).trans (List.count_eq_zero.2 ha))]
    refine ⟨houter, fun b => ?_⟩
    by_cases hb : b = a
    · subst hb
      simp [Cells.dropInner, h.inner, ha]
    · simp only [Cells.dropInner, Function.update_of_ne hb]
      exact hinner b (.inl hb)

end Owned

end Counted

end FerrumDns
