import FerrumDns.Text

/-! Splitting of text: words are unaffected by blank ends, the first part is what comes before
the separator, and a text is cut at a separator that its first, or last, part does not
have. -/

namespace FerrumDns

namespace Text

/-- `split_once` at a text. -/
def splitOnText (p : Text) : Text → Option (Text × Text)
  | [] => if p = [] then some ([], []) else none
  | c :: t =>
    match stripPrefix p (c :: t) with
    | some rest => some ([], rest)
    | none => (splitOnText p t).map fun (a, b) => (c :: a, b)

/-- `rsplit_once`. -/
def rsplitOnce (c : Char) (t : Text) : Option (Text × Text) :=
  (splitOnce c t.reverse).map fun (a, b) => (b.reverse, a.reverse)

/-- `strip_suffix`. -/
def stripSuffix (p t : Text) : Option Text :=
  if p.isSuffixOf t then some (t.take (t.length - p.length)) else none

/-- `parse::<u16>`. -/
def parseU16 (t : Text) : Option UInt16 := (parseBelow 65536 t).map fun n => .ofNat n.val

/-! ### Words -/

theorem words_nil : words [] = [] := by simp [words]

theorem words_cons_of_white {c : Char} (hc : isWhitespace c = true) (t : Text) :
    words (c :: t) = words t := by
  simp [words, List.splitOnP_cons_eq_if_modifyHead, hc]

theorem words_concat_of_white {c : Char} (hc : isWhitespace c = true) (t : Text) :
    words (t ++ [c]) = words t := by
  rw [words, List.splitOnP_append_cons t [] hc, List.splitOnP_nil, List.filter_append]
  simp [words]

theorem words_trimStart (t : Text) : words (trimStart isWhitespace t) = words t := by
  induction t with
  | nil => rfl
  | cons c t ih =>
    rw [trimStart]
    by_cases hc : isWhitespace c = true
    · rw [List.dropWhile_cons_of_pos hc, words_cons_of_white hc]
      exact ih
    · rw [List.dropWhile_cons_of_neg hc]

theorem words_trimEnd (t : Text) : words (trimEnd isWhitespace t) = words t := by
  induction t using List.reverseRecOn with
  | nil => rfl
  | append_singleton t c ih =>
    rw [trimEnd]
    by_cases hc : isWhitespace c = true
    · rw [List.rdropWhile_concat_pos _ _ _ hc, words_concat_of_white hc]
      exact ih
    · rw [List.rdropWhile_concat_neg _ _ _ hc]

theorem words_trim (t : Text) : words (trim t) = words t := by
  rw [trim, words_trimEnd, words_trimStart]

theorem white_of_words_eq_nil {t : Text} (h : words t = []) {c : Char} (hc : c ∈ t) :
    isWhitespace c = true := by
  induction t with
  | nil => cases hc
  | cons d t ih =>
    by_cases hd : isWhitespace d = true
    · rw [words_cons_of_white hd] at h
      rcases List.mem_cons.1 hc with rfl | hc
      · exact hd
      · exact ih h hc
    · -- The first part starts with `d`, so it is a word.
      obtain ⟨p, ps, hp⟩ := List.exists_cons_of_ne_nil (List.splitOnP_ne_nil isWhitespace t)
      simp [words, List.splitOnP_cons_eq_if_modifyHead, hd, hp] at h

theorem not_white_of_mem_words {t w : Text} (hw : w ∈ words t) :
    ∀ c ∈ w, isWhitespace c = false := by
  have hparts : ∀ w ∈ t.splitOnP isWhitespace, ∀ c ∈ w, isWhitespace c = false := by
    clear hw
    induction t with
    | nil => simp
    | cons d t ih =>
      obtain ⟨p, ps, hp⟩ := List.exists_cons_of_ne_nil (List.splitOnP_ne_nil isWhitespace t)
      rw [hp, List.forall_mem_cons] at ih
      rw [List.splitOnP_cons_eq_if_modifyHead, hp]
      split_ifs with hd
      · exact List.forall_mem_cons.2 ⟨by simp, List.forall_mem_cons.2 ih⟩
      · exact List.forall_mem_cons.2 ⟨List.forall_mem_cons.2 ⟨by simpa using hd, ih.1⟩, ih.2⟩
  exact hparts w (List.mem_of_mem_filter hw)

/-- The first word starts where the text does, unless with a blank. -/
theorem words_cons {c : Char} (hc : isWhitespace c = false) (t : Text) :
    ∃ w ws, words (c :: t) = (c :: w) :: ws := by
  obtain ⟨p, ps, hp⟩ := List.exists_cons_of_ne_nil (List.splitOnP_ne_nil isWhitespace t)
  simp [words, List.splitOnP_cons_eq_if_modifyHead, hc, hp]

theorem trim_of_not_white {t : Text} (h : ∀ c ∈ t, isWhitespace c = false) : trim t = t := by
  have hstart : trimStart isWhitespace t = t :=
    List.dropWhile_eq_self_iff.2 fun hl => by simp [h _ (List.getElem_mem hl)]
  rw [trim, hstart]
  exact List.rdropWhile_eq_self_iff.2 fun hl => by simp [h _ (List.getLast_mem hl)]

theorem trim_eq_nil_iff (t : Text) : trim t = [] ↔ words t = [] := by
  constructor
  · intro h
    rw [← words_trim, h, words_nil]
  · intro h
    have hstart : trimStart isWhitespace t = [] :=
      List.dropWhile_eq_nil_iff.2 fun c hc => white_of_words_eq_nil h hc
    rw [trim, hstart]
    rfl

theorem trim_subset (t : Text) : trim t ⊆ t := by
  intro c hc
  have hstart : c ∈ trimStart isWhitespace t :=
    (List.rdropWhile_prefix isWhitespace _).subset hc
  exact (List.dropWhile_suffix _).subset hstart

/-! ### Parts between separators -/

theorem headD_splitOn (sep : Char) (t : Text) :
    (t.splitOn sep).headD [] = t.takeWhile (· ≠ sep) := by
  induction t with
  | nil => simp
  | cons c t ih =>
    rw [List.splitOn_cons_eq_if_modifyHead]
    by_cases hc : c = sep
    · simp [hc]
    · obtain ⟨p, ps, hp⟩ := List.exists_cons_of_ne_nil (List.splitOn_ne_nil sep t)
      rw [hp, List.headD_cons] at ih
      rw [hp, ih]
      simp [hc]

theorem splitOnce_of_notMem {c : Char} {a : Text} (h : c ∉ a) (b : Text) :
    splitOnce c (a ++ c :: b) = some (a, b) := by
  induction a with
  | nil => simp [splitOnce]
  | cons d a ih =>
    rw [List.mem_cons, not_or] at h
    rw [List.cons_append, splitOnce, if_neg (Ne.symm h.1), ih h.2]
    rfl

theorem splitOnce_eq_none {c : Char} {t : Text} (h : c ∉ t) : splitOnce c t = none := by
  induction t with
  | nil => rfl
  | cons d t ih =>
    rw [List.mem_cons, not_or] at h
    rw [splitOnce, if_neg (Ne.symm h.1), ih h.2]
    rfl

theorem rsplitOnce_of_notMem {c : Char} {b : Text} (h : c ∉ b) (a : Text) :
    rsplitOnce c (a ++ c :: b) = some (a, b) := by
  have hrev : (a ++ c :: b).reverse = b.reverse ++ c :: a.reverse := by simp
  rw [rsplitOnce, hrev, splitOnce_of_notMem (by simpa using h)]
  simp

theorem rsplitOnce_eq_none {c : Char} {t : Text} (h : c ∉ t) : rsplitOnce c t = none := by
  rw [rsplitOnce, splitOnce_eq_none (by simpa using h)]
  rfl

theorem eq_of_splitOnce {c : Char} {t a b : Text} (h : splitOnce c t = some (a, b)) :
    t = a ++ c :: b := by
  induction t generalizing a with
  | nil => cases h
  | cons d t ih =>
    rw [splitOnce] at h
    split_ifs at h with hd
    · cases h
      rw [hd]
      rfl
    · obtain ⟨⟨x, y⟩, hxy, hab⟩ := Option.map_eq_some_iff.1 h
      cases hab
      rw [ih hxy]
      rfl

theorem eq_of_rsplitOnce {c : Char} {t a b : Text} (h : rsplitOnce c t = some (a, b)) :
    t = a ++ c :: b := by
  obtain ⟨⟨x, y⟩, hxy, hab⟩ := Option.map_eq_some_iff.1 h
  cases hab
  rw [← t.reverse_reverse, eq_of_splitOnce hxy]
  simp

theorem stripPrefix_append (p t : Text) : stripPrefix p (p ++ t) = some t := by
  rw [stripPrefix, if_pos (List.isPrefixOf_iff_prefix.2 (List.prefix_append p t)),
    List.drop_left]

theorem stripPrefix_eq_none {p t : Text} (h : ¬ p <+: t) : stripPrefix p t = none :=
  if_neg (mt List.isPrefixOf_iff_prefix.1 h)

theorem stripPrefix_eq_some {p t rest : Text} : stripPrefix p t = some rest ↔ t = p ++ rest := by
  constructor
  · intro h
    rw [stripPrefix] at h
    split_ifs at h with hp
    obtain ⟨r, rfl⟩ := List.isPrefixOf_iff_prefix.1 hp
    rw [← Option.some.inj h, List.drop_left]
  · rintro rfl
    exact stripPrefix_append p rest

theorem stripSuffix_append (t p : Text) : stripSuffix p (t ++ p) = some t := by
  rw [stripSuffix, if_pos (List.isSuffixOf_iff_suffix.2 (List.suffix_append t p))]
  simp

/-- The cut is at the first place where the text occurs. -/
theorem splitOnText_append {p : Text} (hp : p ≠ []) {a : Text} (b : Text)
    (h : ∀ x y, a = x ++ y → y ≠ [] → ¬ p <+: y ++ p ++ b) :
    splitOnText p (a ++ p ++ b) = some (a, b) := by
  induction a with
  | nil =>
    obtain ⟨c, q, rfl⟩ := List.exists_cons_of_ne_nil hp
    have hstrip := stripPrefix_append (c :: q) b
    rw [List.cons_append] at hstrip
    rw [List.nil_append, List.cons_append, splitOnText, hstrip]
  | cons d a ih =>
    have hnot : ¬ p <+: d :: (a ++ p ++ b) := h [] (d :: a) rfl (by simp)
    rw [List.cons_append, List.cons_append, splitOnText, stripPrefix_eq_none hnot,
      ih fun x y hxy hy => h (d :: x) y (by rw [hxy]; rfl) hy]
    rfl

theorem eq_of_splitOnText {p t a b : Text} (h : splitOnText p t = some (a, b)) :
    t = a ++ p ++ b := by
  induction t generalizing a with
  | nil =>
    rw [splitOnText] at h
    split_ifs at h with hp
    cases h
    simp [hp]
  | cons c t ih =>
    rw [splitOnText] at h
    cases hs : stripPrefix p (c :: t) with
    | some rest =>
      rw [hs] at h
      cases h
      rw [List.nil_append]
      exact stripPrefix_eq_some.1 hs
    | none =>
      rw [hs] at h
      obtain ⟨⟨x, y⟩, hxy, hab⟩ := Option.map_eq_some_iff.1 h
      cases hab
      rw [ih hxy]
      rfl

/-- Before the cut the text does not begin. -/
theorem not_prefix_of_splitOnText {p t a b : Text} (h : splitOnText p t = some (a, b)) :
    ∀ x y, a = x ++ y → y ≠ [] → ¬ p <+: y ++ p ++ b := by
  induction t generalizing a with
  | nil =>
    rw [splitOnText] at h
    split_ifs at h
    cases h
    exact fun x y hxy hy => absurd (List.append_eq_nil_iff.1 hxy.symm).2 hy
  | cons c t ih =>
    have heq := eq_of_splitOnText h
    rw [splitOnText] at h
    cases hs : stripPrefix p (c :: t) with
    | some rest =>
      rw [hs] at h
      cases h
      exact fun x y hxy hy => absurd (List.append_eq_nil_iff.1 hxy.symm).2 hy
    | none =>
      rw [hs] at h
      obtain ⟨⟨a', b'⟩, hcut, hab⟩ := Option.map_eq_some_iff.1 h
      cases hab
      rintro (_ | ⟨d, x⟩) y hxy hy hpre
      · rw [List.nil_append] at hxy
        rw [← hxy, ← heq] at hpre
        obtain ⟨rest, hrest⟩ := hpre
        rw [stripPrefix_eq_some.2 hrest.symm] at hs
        cases hs
      · exact ih hcut x y (List.cons.inj hxy).2 hy hpre

theorem not_infix_of_splitOnText {p t : Text} (h : splitOnText p t = none) : ¬ p <:+: t := by
  induction t with
  | nil =>
    rw [splitOnText] at h
    split_ifs at h with hp
    exact fun hin => hp (List.infix_nil.1 hin)
  | cons c t ih =>
    rw [splitOnText] at h
    cases hs : stripPrefix p (c :: t) with
    | some rest => simp [hs] at h
    | none =>
      rw [hs] at h
      intro hin
      rcases List.infix_cons_iff.1 hin with hpre | hin
      · obtain ⟨r, hr⟩ := hpre
        rw [← hr, stripPrefix_append] at hs
        cases hs
      · exact ih (Option.map_eq_none_iff.1 h) hin

theorem splitOnText_eq_none {p t : Text} (hp : p ≠ []) (h : ¬ p <:+: t) : splitOnText p t = none := by
  induction t with
  | nil => exact if_neg hp
  | cons c t ih =>
    have hprefix : ¬ p <+: c :: t := fun hpre => h hpre.isInfix
    have htail : ¬ p <:+: t := fun hinf => h (hinf.trans (List.suffix_cons c t).isInfix)
    rw [splitOnText, stripPrefix_eq_none hprefix, ih htail]
    rfl

end Text

end FerrumDns
