import FerrumDns.Text
import Mathlib.Data.List.Basic
import Mathlib.Logic.Function.Basic

/-! Numbers, fields and joined words in text. A number is determined by its digits, and
shows nothing but digits; fields put one after the other behind a separator are
determined by the whole, when the separator occurs in none of them; so are joined words
of one length. -/

namespace FerrumDns

namespace Text

/-! ### Digits -/

/-- A digit of a number in a base of at most sixteen. -/
def isHexDigit (c : Char) : Bool := c ∈ "0123456789abcdef".toList

theorem isHexDigit_digitChar {n : ℕ} (h : n < 16) : isHexDigit n.digitChar := by
  have hall : ∀ n < 16, isHexDigit n.digitChar := by decide
  exact hall n h

theorem digitChar_inj {m n : ℕ} (hm : m < 16) (hn : n < 16) (h : m.digitChar = n.digitChar) :
    m = n := by
  have hall : ∀ m < 16, ∀ n < 16, m.digitChar = n.digitChar → m = n := by decide
  exact hall m hm n hn h

variable {b : ℕ}

theorem toDigits_injective (hb : 1 < b) (hb' : b ≤ 16) : Function.Injective (Nat.toDigits b) := by
  intro m n h
  induction m using Nat.strong_induction_on generalizing n with
  | _ m ih =>
    have hone {k : ℕ} : (Nat.toDigits b k).length = 1 ↔ k < b := by
      have hpos := @Nat.length_toDigits_pos b k
      have hle := @Nat.length_toDigits_le_iff b k 1 hb Nat.one_pos
      rw [Nat.pow_one] at hle
      omega
    by_cases hm : m < b
    · have hn : n < b := hone.1 (h ▸ hone.2 hm)
      rw [Nat.toDigits_of_lt_base hm, Nat.toDigits_of_lt_base hn] at h
      exact digitChar_inj (by omega) (by omega) (List.singleton_inj.1 h)
    · have hn : ¬ n < b := fun hn => hm (hone.1 (h ▸ hone.2 hn))
      rw [Nat.toDigits_of_base_le hb (not_lt.1 hm), Nat.toDigits_of_base_le hb (not_lt.1 hn)] at h
      obtain ⟨hdiv, hmod⟩ := List.append_inj' h rfl
      have hlast : m % b = n % b := by
        have hm' := Nat.mod_lt m (by omega : 0 < b)
        have hn' := Nat.mod_lt n (by omega : 0 < b)
        exact digitChar_inj (by omega) (by omega) (List.singleton_inj.1 hmod)
      have hrest : m / b = n / b := ih (m / b) (Nat.div_lt_self (by omega) hb) hdiv
      rw [← Nat.div_add_mod m b, ← Nat.div_add_mod n b, hrest, hlast]

theorem isHexDigit_of_mem (hb : 1 < b) (hb' : b ≤ 16) {n : ℕ} {c : Char}
    (h : c ∈ Nat.toDigits b n) : isHexDigit c := by
  induction n using Nat.strong_induction_on with
  | _ n ih =>
    rw [Nat.toDigits_eq_if hb] at h
    split_ifs at h with hn
    · rw [List.mem_singleton.1 h]
      exact isHexDigit_digitChar (by omega)
    · rcases List.mem_append.1 h with h | h
      · exact ih (n / b) (Nat.div_lt_self (by omega) hb) h
      · rw [List.mem_singleton.1 h]
        have hmod := Nat.mod_lt n (by omega : 0 < b)
        exact isHexDigit_digitChar (by omega)

theorem decimal_injective : Function.Injective decimal := toDigits_injective (by decide) (by decide)

theorem lowerHex_injective : Function.Injective lowerHex :=
  toDigits_injective (by decide) (by decide)

theorem isHexDigit_of_mem_decimal {n : ℕ} {c : Char} (h : c ∈ decimal n) : isHexDigit c :=
  isHexDigit_of_mem (by decide) (by decide) h

theorem isHexDigit_of_mem_lowerHex {n : ℕ} {c : Char} (h : c ∈ lowerHex n) : isHexDigit c :=
  isHexDigit_of_mem (by decide) (by decide) h

theorem decimal_ne_nil (n : ℕ) : decimal n ≠ [] := Nat.toDigits_ne_nil

theorem lowerHex_ne_nil (n : ℕ) : lowerHex n ≠ [] := Nat.toDigits_ne_nil

/-! ### Fields -/

variable {α : Type} {bar : α}

/-- The first separator splits a text in one way. -/
theorem bar_append_inj {x y f g : List α} (hf : bar ∉ f) (hg : bar ∉ g)
    (h : f ++ bar :: x = g ++ bar :: y) : f = g ∧ x = y := by
  induction f generalizing g with
  | nil =>
    cases g with
    | nil => exact ⟨rfl, (List.cons.inj h).2⟩
    | cons c g =>
      obtain ⟨rfl, -⟩ := List.cons.inj h
      simp at hg
  | cons c f ih =>
    cases g with
    | nil =>
      obtain ⟨rfl, -⟩ := List.cons.inj h
      simp at hf
    | cons d g =>
      obtain ⟨rfl, htail⟩ := List.cons.inj h
      simp only [List.mem_cons, not_or] at hf hg
      obtain ⟨rfl, rfl⟩ := ih hf.2 hg.2 htail
      exact ⟨rfl, rfl⟩

/-- So does the last one. -/
theorem append_bar_inj {x y f g : List α} (hf : bar ∉ f) (hg : bar ∉ g)
    (h : x ++ bar :: f = y ++ bar :: g) : x = y ∧ f = g := by
  have hrev : f.reverse ++ bar :: x.reverse = g.reverse ++ bar :: y.reverse := by
    simpa using congrArg List.reverse h
  obtain ⟨hfg, hxy⟩ := bar_append_inj (by simpa using hf) (by simpa using hg) hrev
  exact ⟨List.reverse_injective hxy, List.reverse_injective hfg⟩

/-- Fields, each behind a separator, are determined by the text they end. -/
theorem fields_inj {x y : List α} {fs gs : List (List α)} (hf : ∀ f ∈ fs, bar ∉ f)
    (hg : ∀ g ∈ gs, bar ∉ g) (hlen : fs.length = gs.length)
    (h : x ++ fs.flatMap (bar :: ·) = y ++ gs.flatMap (bar :: ·)) : x = y ∧ fs = gs := by
  induction fs using List.reverseRecOn generalizing gs with
  | nil =>
    obtain rfl := List.length_eq_zero_iff.1 hlen.symm
    exact ⟨by simpa using h, rfl⟩
  | append_singleton fs f ih =>
    cases gs using List.reverseRecOn with
    | nil => simp at hlen
    | append_singleton gs g =>
      simp only [List.flatMap_append, List.flatMap_singleton, ← List.append_assoc] at h
      obtain ⟨hrest, rfl⟩ := append_bar_inj (hf f (by simp)) (hg g (by simp)) h
      obtain ⟨rfl, rfl⟩ := ih (fun f hf' => hf f (by simp [hf'])) (fun g hg' => hg g (by simp [hg']))
        (by simpa using hlen) hrest
      exact ⟨rfl, rfl⟩

/-! ### Words -/

theorem mem_intercalate {x : α} {sep : List α} {ws : List (List α)} (h : x ∈ sep.intercalate ws) :
    x ∈ sep ∨ ∃ w ∈ ws, x ∈ w := by
  induction ws with
  | nil => simp at h
  | cons w ws ih =>
    by_cases hnil : ws = []
    · subst hnil
      exact .inr ⟨w, by simp, by simpa using h⟩
    · rw [List.intercalate_cons_of_ne_nil hnil, List.mem_append, List.mem_append] at h
      rcases h with (h | h) | h
      · exact .inr ⟨w, by simp, h⟩
      · exact .inl h
      · exact (ih h).imp_right fun ⟨w', hw', hx⟩ => ⟨w', by simp [hw'], hx⟩

theorem intercalate_append (sep : List α) {a b : List (List α)} (ha : a ≠ []) (hb : b ≠ []) :
    sep.intercalate (a ++ b) = sep.intercalate a ++ sep ++ sep.intercalate b := by
  induction a with
  | nil => exact absurd rfl ha
  | cons x a ih =>
    by_cases hnil : a = []
    · subst hnil
      rw [List.singleton_append, List.intercalate_cons_of_ne_nil hb, List.intercalate_singleton]
    · rw [List.cons_append, List.intercalate_cons_of_ne_nil (by simp [hnil]), ih hnil,
        List.intercalate_cons_of_ne_nil hnil]
      simp only [List.append_assoc]

/-- Words of one length are read off their places. -/
theorem intercalate_inj {n : ℕ} (hn : 0 < n) {bar : α} {sep : List α} {ws ws' : List (List α)}
    (hw : ∀ w ∈ ws, w.length = n) (hw' : ∀ w ∈ ws', w.length = n)
    (h : (bar :: sep).intercalate ws = (bar :: sep).intercalate ws') : ws = ws' := by
  induction ws generalizing ws' with
  | nil =>
    cases ws' with
    | nil => rfl
    | cons w' ws' =>
      have hlen := hw' w' (by simp)
      cases ws' <;> simp_all
  | cons w ws ih =>
    have hlen := hw w (by simp)
    cases ws' with
    | nil => cases ws <;> simp_all
    | cons w' ws' =>
      have hlen' := hw' w' (by simp)
      have hsame : w.length = w'.length := hlen.trans hlen'.symm
      by_cases hnil : ws = []
      · subst hnil
        cases ws' with
        | nil => simpa using h
        | cons v vs =>
          have hcount := congrArg List.length h
          simp at hcount
          omega
      · cases ws' with
        | nil =>
          rw [List.intercalate_cons_of_ne_nil hnil, List.intercalate_singleton] at h
          have hcount := congrArg List.length h
          simp at hcount
          omega
        | cons v vs =>
          rw [List.intercalate_cons_of_ne_nil hnil, List.intercalate_cons_cons, List.append_assoc,
            List.append_assoc] at h
          obtain ⟨rfl, hrest⟩ := List.append_inj h hsame
          rw [ih (fun w hm => hw w (by simp [hm])) (fun w hm => hw' w (by simp [hm]))
            (List.append_cancel_left hrest)]

end Text

end FerrumDns
