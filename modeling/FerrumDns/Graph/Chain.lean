import Mathlib.Data.List.Chain
import Mathlib.Data.Set.Finite.Basic
import Mathlib.Logic.Relation

/-! How far a relation can be followed. A point is within `n` when no chain that
starts there has more than `n` members, which rules out cycles through it; its
height is the length of the longest such chain, and is found from the heights of
its successors. -/

namespace FerrumDns

namespace Graph

variable {α : Type} (R : α → α → Prop)

/-- No chain from here has more than `n` members. -/
def Within : ℕ → α → Prop
  | 0, _ => False
  | n + 1, a => ∀ b, R a b → Within n b

/-- The longest chain from here has `n` members. -/
def Height (n : ℕ) (a : α) : Prop :=
  Within R n a ∧ ∃ l, (a :: l).IsChain R ∧ (a :: l).length = n

variable {R} {a : α} {m n : ℕ}

theorem Within.mono (h : Within R m a) (hmn : m ≤ n) : Within R n a := by
  induction m generalizing a n with
  | zero => exact h.elim
  | succ m ih =>
    obtain ⟨n, rfl⟩ : ∃ k, n = k + 1 := ⟨n - 1, by omega⟩
    exact fun b hb => ih (h b hb) (by omega)

theorem within_iff : Within R n a ↔ ∀ l, (a :: l).IsChain R → (a :: l).length ≤ n := by
  induction n generalizing a with
  | zero => exact ⟨fun h => h.elim, fun h => absurd (h [] (.singleton a)) (by simp)⟩
  | succ n ih =>
    constructor
    · intro h l hl
      cases l with
      | nil => simp
      | cons b l =>
        obtain ⟨hab, hbl⟩ := List.isChain_cons_cons.1 hl
        have hlen := ih.1 (h b hab) l hbl
        simp only [List.length_cons] at hlen ⊢
        omega
    · intro h b hab
      refine ih.2 fun l hbl => ?_
      have hlen := h (b :: l) (List.isChain_cons_cons.2 ⟨hab, hbl⟩)
      simp only [List.length_cons] at hlen ⊢
      omega

/-- Following the relation leaves fewer members. -/
theorem Within.lt {b : α} (h : Within R n a) (hab : Relation.TransGen R a b) :
    ∃ m < n, Within R m b := by
  induction hab with
  | single hb =>
    cases n with
    | zero => exact h.elim
    | succ n => exact ⟨n, by omega, h _ hb⟩
  | tail _ hbc ih =>
    obtain ⟨m, hm, hb⟩ := ih
    cases m with
    | zero => exact hb.elim
    | succ m => exact ⟨m, by omega, hb _ hbc⟩

theorem Within.acyclic (h : Within R n a) : ¬ Relation.TransGen R a a := by
  intro hc
  induction n using Nat.strong_induction_on with
  | _ n ih =>
    obtain ⟨m, hm, ha⟩ := h.lt hc
    exact ih m hm ha

/-- A chain leads from each of its members to the last. -/
theorem transGen_of_isChain {b : α} {l : List α} (h : (l ++ [b]).IsChain R) (ha : a ∈ l) :
    Relation.TransGen R a b := by
  induction l generalizing a with
  | nil => simp at ha
  | cons c l ih =>
    have htail : (l ++ [b]).IsChain R := h.tail
    have hstep : Relation.TransGen R c b := by
      cases l with
      | nil => exact .single (List.isChain_cons_cons.1 h).1
      | cons d l => exact .head (List.isChain_cons_cons.1 h).1 (ih htail (by simp))
    rcases List.mem_cons.1 ha with rfl | ha
    · exact hstep
    · exact ih htail ha

/-! ### Acyclic relations -/

/-- Every member of a chain but the last leads on. -/
theorem leads_of_mem_dropLast {l : List α} (h : l.IsChain R) (ha : a ∈ l.dropLast) :
    ∃ b, R a b := by
  induction l with
  | nil => cases ha
  | cons c l ih =>
    cases l with
    | nil => cases ha
    | cons d l =>
      rw [List.dropLast_cons_cons] at ha
      rcases List.mem_cons.1 ha with rfl | ha
      · exact ⟨d, (List.isChain_cons_cons.1 h).1⟩
      · exact ih h.tail ha

theorem nodup_of_isChain (hac : ∀ a, ¬ Relation.TransGen R a a) {l : List α} (h : l.IsChain R) :
    l.Nodup := by
  have hpairs := List.isChain_iff_pairwise.1 (h.imp fun _ _ => Relation.TransGen.single)
  refine hpairs.imp fun hab heq => ?_
  rw [heq] at hab
  exact hac _ hab

/-- With finitely many points that lead on and no cycle, all points are within one bound. -/
theorem within_of_acyclic (hfin : {a | ∃ b, R a b}.Finite)
    (hac : ∀ a, ¬ Relation.TransGen R a a) : ∃ n, ∀ a, Within R n a := by
  classical
  refine ⟨hfin.toFinset.card + 1, fun a => within_iff.2 fun l hl => ?_⟩
  have hnodup := (nodup_of_isChain hac hl).sublist (List.dropLast_sublist (a :: l))
  have hsub : (a :: l).dropLast.toFinset ⊆ hfin.toFinset := fun b hb =>
    hfin.mem_toFinset.2 (leads_of_mem_dropLast hl (List.mem_toFinset.1 hb))
  have hcard := Finset.card_le_card hsub
  rw [List.toFinset_card_of_nodup hnodup, List.length_dropLast] at hcard
  omega

theorem Height.le (h : Height R n a) (hc : ∀ l : List α, l.IsChain R → l.length ≤ m) : n ≤ m := by
  obtain ⟨-, l, hl, rfl⟩ := h
  exact hc _ hl

/-- The height of a point is one more than the greatest height of a successor. -/
theorem Height.of_succ (hpos : 1 ≤ n) (hw : ∀ b, R a b → Within R (n - 1) b)
    (hmax : n = 1 ∨ ∃ b, R a b ∧ Height R (n - 1) b) : Height R n a := by
  obtain ⟨n, rfl⟩ : ∃ k, n = k + 1 := ⟨n - 1, by omega⟩
  refine ⟨hw, ?_⟩
  rcases hmax with hone | ⟨b, hab, -, l, hl, hlen⟩
  · exact ⟨[], .singleton a, by simpa using hone.symm⟩
  · exact ⟨b :: l, List.isChain_cons_cons.2 ⟨hab, hl⟩, by simp only [List.length_cons] at hlen ⊢; omega⟩

end Graph

end FerrumDns
