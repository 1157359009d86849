import FerrumDns.Text

/-! Fields between separators, where empty ones are left out. A text without a double separator
is its fields with a separator between any two, but for one that may stand alone at an
end. -/

namespace FerrumDns

namespace Fields

variable {α : Type} [DecidableEq α] {sep : α}

/-- The fields that are not empty. -/
def fields (sep : α) (t : List α) : List (List α) := (t.splitOn sep).filter (· ≠ [])

/-- Two separators stand together. -/
def Doubled (sep : α) (t : List α) : Prop := [sep, sep] <:+: t

/-- Each is a field on its own. -/
def Plain (sep : α) (ws : List (List α)) : Prop := ∀ w ∈ ws, w ≠ [] ∧ sep ∉ w

/-- Nothing, or one separator next to a field. -/
def Lone (sep : α) (ws : List (List α)) (x : List α) : Prop := x = [] ∨ x = [sep] ∧ ws ≠ []

/-! ### Double separators -/

omit [DecidableEq α] in
theorem doubled_append {a b : List α} : Doubled sep (a ++ b) ↔
    Doubled sep a ∨ Doubled sep b ∨ a.getLast? = some sep ∧ b.head? = some sep := by
  constructor
  · intro h
    rcases List.infix_append_iff.1 h with h | h | ⟨l₁, l₂, hl, h₁, h₂⟩
    · exact .inl h
    · exact .inr (.inl h)
    · rcases l₁ with _ | ⟨c, _ | ⟨d, l₁⟩⟩
      · rw [List.nil_append] at hl
        rw [← hl] at h₂
        exact .inr (.inl h₂.isInfix)
      · cases hl
        obtain ⟨x, rfl⟩ := h₁
        obtain ⟨y, rfl⟩ := h₂
        exact .inr (.inr ⟨by simp, rfl⟩)
      · rw [List.cons_append, List.cons_append] at hl
        injection hl with hc hl
        injection hl with hd hl
        obtain ⟨rfl, -⟩ := List.append_eq_nil_iff.1 hl.symm
        subst hc
        rw [← hd] at h₁
        exact .inl h₁.isInfix
  · rintro (h | h | ⟨ha, hb⟩)
    · exact List.infix_append_of_infix_left h
    · exact List.infix_append_of_infix_right h
    · obtain ⟨x, rfl⟩ := List.getLast?_eq_some_iff.1 ha
      obtain ⟨y, rfl⟩ := List.head?_eq_some_iff.1 hb
      exact ⟨x, y, by simp⟩

omit [DecidableEq α] in
theorem not_doubled_nil : ¬ Doubled sep [] := by simp [Doubled]

omit [DecidableEq α] in
theorem not_doubled_singleton (c : α) : ¬ Doubled sep [c] := by
  rintro ⟨x, y, h⟩
  have hlen := congrArg List.length h
  simp at hlen
  omega

omit [DecidableEq α] in
theorem doubled_cons {t : List α} :
    Doubled sep (sep :: t) ↔ Doubled sep t ∨ t.head? = some sep := by
  rw [← List.singleton_append, doubled_append]
  simp [not_doubled_singleton]

omit [DecidableEq α] in
theorem doubled_concat {t : List α} :
    Doubled sep (t ++ [sep]) ↔ Doubled sep t ∨ t.getLast? = some sep := by
  rw [doubled_append]
  simp [not_doubled_singleton]

omit [DecidableEq α] in
theorem not_doubled_of_notMem {w : List α} (h : sep ∉ w) : ¬ Doubled sep w :=
  fun hw => h (hw.subset List.mem_cons_self)

omit [DecidableEq α] in
/-- What comes behind a double separator that is the first one. -/
theorem tripled_or_doubled_iff {a b : List α} (ha : ¬ Doubled sep (a ++ [sep])) :
    [sep, sep, sep] <:+: a ++ [sep, sep] ++ b ∨ Doubled sep b ↔ Doubled sep (sep :: b) := by
  constructor
  · rintro (h | h)
    · rw [show a ++ [sep, sep] ++ b = a ++ [sep] ++ sep :: b by simp] at h
      rcases List.infix_append_iff.1 h with h | h | ⟨l₁, l₂, hl, h₁, h₂⟩
      · exact absurd (List.IsInfix.trans ⟨[], [sep], rfl⟩ h) ha
      · exact List.IsInfix.trans ⟨[], [sep], rfl⟩ h
      · rcases l₁ with _ | ⟨c, _ | ⟨d, l₁⟩⟩
        · exact List.IsInfix.trans ⟨[], [sep], hl⟩ h₂.isInfix
        · cases hl
          exact h₂.isInfix
        · -- The three would begin before the first two.
          rw [List.cons_append, List.cons_append] at hl
          injection hl with hc hl
          injection hl with hd hl
          refine absurd (List.IsInfix.trans ⟨[], l₁, ?_⟩ h₁.isInfix) ha
          rw [← hc, ← hd]
          rfl
    · exact List.infix_cons h
  · rw [doubled_cons]
    rintro (h | h)
    · exact .inr h
    · obtain ⟨y, rfl⟩ := List.head?_eq_some_iff.1 h
      exact .inl ⟨a, y, by simp⟩

/-! ### Fields -/

variable (sep) in
/-- A list is cut at its first separator, what follows at the next one. -/
@[elab_as_elim]
theorem cut_induction {motive : List α → Prop} (last : ∀ w, sep ∉ w → motive w)
    (cut : ∀ w t, sep ∉ w → motive t → motive (w ++ sep :: t)) (t : List α) : motive t := by
  induction hn : t.length using Nat.strong_induction_on generalizing t with
  | _ n ih =>
    by_cases hmem : sep ∈ t
    · obtain ⟨w, rest, rfl, hw⟩ := List.eq_append_cons_of_mem hmem
      exact cut w rest hw (ih rest.length (by simp at hn; omega) rest rfl)
    · exact last t hmem

theorem fields_append_cons (a b : List α) :
    fields sep (a ++ sep :: b) = fields sep a ++ fields sep b := by
  rw [fields, List.splitOn_append_cons_self, List.filter_append]
  rfl

@[simp] theorem fields_nil : fields sep [] = [] := by simp [fields]

theorem fields_of_notMem {w : List α} (h : sep ∉ w) (hne : w ≠ []) : fields sep w = [w] := by
  simp [fields, List.splitOn_eq_singleton h, hne]

theorem fields_intercalate {ws : List (List α)} (h : Plain sep ws) :
    fields sep ([sep].intercalate ws) = ws := by
  by_cases hne : ws = []
  · simp [hne]
  · rw [fields, List.splitOn_intercalate sep (fun w hw => (h w hw).2) hne, List.filter_eq_self]
    simpa using fun w hw => (h w hw).1

/-- Between separators the fields are all there is. -/
theorem eq_intercalate_of_not_doubled {t : List α} (h : ¬ Doubled sep (sep :: (t ++ [sep]))) :
    t = [sep].intercalate (fields sep t) ∧ fields sep t ≠ [] := by
  induction t using cut_induction sep with
  | last w hw =>
    have hne : w ≠ [] := by
      rintro rfl
      exact h ⟨[], [], rfl⟩
    simp [fields_of_notMem hw hne]
  | cut w t hw ih =>
    have hne : w ≠ [] := by
      rintro rfl
      exact h ⟨[], t ++ [sep], rfl⟩
    have htail : ¬ Doubled sep (sep :: (t ++ [sep])) := fun ht =>
      h (ht.trans ⟨sep :: w, [], by simp⟩)
    obtain ⟨ht, hfields⟩ := ih htail
    rw [fields_append_cons, fields_of_notMem hw hne, List.singleton_append,
      List.intercalate_cons_of_ne_nil hfields, ← ht]
    simp

/-- Behind a separator one may stand alone at the end. -/
theorem exists_trail {t : List α} (h : ¬ Doubled sep (sep :: t)) :
    ∃ x, Lone sep (fields sep t) x ∧ t = [sep].intercalate (fields sep t) ++ x := by
  induction t using cut_induction sep with
  | last w hw =>
    by_cases hne : w = []
    · exact ⟨[], .inl rfl, by simp [hne]⟩
    · exact ⟨[], .inl rfl, by simp [fields_of_notMem hw hne]⟩
  | cut w t hw ih =>
    have hne : w ≠ [] := by
      rintro rfl
      exact h ⟨[], t, rfl⟩
    obtain ⟨x, hx, ht⟩ := ih fun ht => h (ht.trans ⟨sep :: w, [], by simp⟩)
    rw [fields_append_cons, fields_of_notMem hw hne, List.singleton_append]
    by_cases hfields : fields sep t = []
    · obtain rfl := hx.resolve_right fun hx => hx.2 hfields
      obtain rfl : t = [] := by simpa [hfields] using ht
      exact ⟨[sep], .inr ⟨rfl, by simp⟩, by simp⟩
    · refine ⟨x, hx.imp_right fun hx => ⟨hx.1, by simp⟩, ?_⟩
      rw [List.intercalate_cons_of_ne_nil hfields, List.append_assoc, List.append_assoc, ← ht]
      simp

/-- Before a separator one may stand alone at the beginning. -/
theorem exists_lead {t : List α} (h : ¬ Doubled sep (t ++ [sep])) :
    ∃ x, Lone sep (fields sep t) x ∧ t = x ++ [sep].intercalate (fields sep t) := by
  by_cases hmem : sep ∈ t
  · obtain ⟨w, t, rfl, hw⟩ := List.eq_append_cons_of_mem hmem
    have hclosed : ¬ Doubled sep (sep :: (t ++ [sep])) := fun ht => h (ht.trans ⟨w, [], by simp⟩)
    obtain ⟨ht, hfields⟩ := eq_intercalate_of_not_doubled hclosed
    rw [fields_append_cons]
    by_cases hne : w = []
    · subst hne
      rw [fields_nil, List.nil_append, ← ht]
      exact ⟨[sep], .inr ⟨rfl, hfields⟩, rfl⟩
    · refine ⟨[], .inl rfl, ?_⟩
      rw [fields_of_notMem hw hne, List.singleton_append, List.intercalate_cons_of_ne_nil hfields,
        ← ht]
      simp
  · by_cases hne : t = []
    · exact ⟨[], .inl rfl, by simp [hne]⟩
    · exact ⟨[], .inl rfl, by simp [fields_of_notMem hmem hne]⟩

omit [DecidableEq α] in
/-- Fields with a separator before each, and perhaps one after the last, have none twice. -/
theorem not_doubled_flatMap {ws : List (List α)} (h : Plain sep ws) {x : List α}
    (hx : x = [] ∨ x = [sep]) : ¬ Doubled sep (ws.flatMap (sep :: ·) ++ x) := by
  induction ws with
  | nil =>
    rcases hx with rfl | rfl
    · exact not_doubled_nil
    · exact not_doubled_singleton sep
  | cons w ws ih =>
    obtain ⟨⟨hne, hw⟩, hws⟩ := List.forall_mem_cons.1 h
    obtain ⟨c, w', rfl⟩ := List.exists_cons_of_ne_nil hne
    rw [List.flatMap_cons, List.append_assoc, doubled_append, doubled_cons]
    rintro ((hd | hd) | hd | ⟨hlast, -⟩)
    · exact not_doubled_of_notMem hw hd
    · exact hw (List.mem_of_mem_head? hd)
    · exact ih hws hd
    · rw [List.getLast?_cons_cons] at hlast
      exact hw (List.mem_of_getLast? hlast)

omit [DecidableEq α] in
theorem intercalate_eq (w : List α) (ws : List (List α)) :
    [sep].intercalate (w :: ws) = w ++ ws.flatMap (sep :: ·) := by
  induction ws generalizing w with
  | nil => simp
  | cons v ws ih => simp [List.intercalate_cons_cons, ih]

omit [DecidableEq α] in
theorem cons_intercalate {ws : List (List α)} (h : ws ≠ []) :
    sep :: [sep].intercalate ws = ws.flatMap (sep :: ·) := by
  obtain ⟨w, ws, rfl⟩ := List.exists_cons_of_ne_nil h
  rw [intercalate_eq, List.flatMap_cons, List.cons_append]

omit [DecidableEq α] in
theorem not_doubled_intercalate {ws : List (List α)} (h : Plain sep ws) (hne : ws ≠ []) :
    ¬ Doubled sep (sep :: ([sep].intercalate ws ++ [sep])) := by
  rw [← List.cons_append, cons_intercalate hne]
  exact not_doubled_flatMap h (.inr rfl)

omit [DecidableEq α] in
theorem not_doubled_trail {ws : List (List α)} (h : Plain sep ws) {x : List α}
    (hx : Lone sep ws x) : ¬ Doubled sep (sep :: ([sep].intercalate ws ++ x)) := by
  rcases hx with rfl | ⟨rfl, hne⟩
  · by_cases hne : ws = []
    · simpa [hne] using not_doubled_singleton sep
    · rw [← List.cons_append, cons_intercalate hne]
      exact not_doubled_flatMap h (.inl rfl)
  · exact not_doubled_intercalate h hne

omit [DecidableEq α] in
theorem not_doubled_lead {ws : List (List α)} (h : Plain sep ws) {x : List α}
    (hx : Lone sep ws x) : ¬ Doubled sep (x ++ [sep].intercalate ws ++ [sep]) := by
  rcases hx with rfl | ⟨rfl, hne⟩
  · by_cases hne : ws = []
    · simpa [hne] using not_doubled_singleton sep
    · exact fun hd => not_doubled_intercalate h hne (List.infix_cons hd)
  · exact not_doubled_intercalate h hne

theorem fields_trail {ws : List (List α)} (h : Plain sep ws) {x : List α} (hx : Lone sep ws x) :
    fields sep ([sep].intercalate ws ++ x) = ws := by
  rcases hx with rfl | ⟨rfl, -⟩
  · rw [List.append_nil, fields_intercalate h]
  · rw [fields_append_cons, fields_intercalate h, fields_nil, List.append_nil]

theorem fields_lead {ws : List (List α)} (h : Plain sep ws) {x : List α} (hx : Lone sep ws x) :
    fields sep (x ++ [sep].intercalate ws) = ws := by
  rcases hx with rfl | ⟨rfl, -⟩
  · rw [List.nil_append, fields_intercalate h]
  · change fields sep ([] ++ sep :: [sep].intercalate ws) = ws
    rw [fields_append_cons, fields_nil, fields_intercalate h, List.nil_append]

omit [DecidableEq α] in
theorem head?_intercalate {ws : List (List α)} (h : Plain sep ws) :
    ([sep].intercalate ws).head? ≠ some sep := fun hhead =>
  not_doubled_trail h (.inl rfl) (doubled_cons.2 (.inr (by rwa [List.append_nil])))

omit [DecidableEq α] in
theorem getLast?_intercalate {ws : List (List α)} (h : Plain sep ws) :
    ([sep].intercalate ws).getLast? ≠ some sep := fun hlast =>
  not_doubled_lead h (.inl rfl) (doubled_concat.2 (.inr hlast))

end Fields

end FerrumDns
