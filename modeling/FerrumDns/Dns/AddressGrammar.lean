import FerrumDns.Dns.AddressParse
import FerrumDns.Text.Fields

/-! The texts that are read as addresses. An IPv4 address is four octets between dots. An
IPv6 address is eight groups between colons, or fewer on the two sides of a double colon,
where an IPv4 address at the end stands for two of them. -/

namespace FerrumDns

namespace AddressParse

/-! ### Numbers -/

/-- The number that digits stand for. -/
def value (radix : ℕ) (w : Text) : ℕ :=
  w.foldl (fun n c => radix * n + (toDigit radix c).getD 0) 0

/-- Digits that are read as one number. -/
structure IsNumber (bound radix : ℕ) (maxDigits : Option ℕ) (allowZeroPrefix : Bool) (w : Text) :
    Prop where
  ne_nil : w ≠ []
  digits : ∀ c ∈ w, isDigitOf radix c = true
  short : ∀ n ∈ maxDigits, w.length ≤ n
  zero : allowZeroPrefix = true ∨ w.head? ≠ some '0' ∨ w.length ≤ 1
  lt : value radix w < bound

/-- The text does not go on with a digit. -/
def Stops (radix : ℕ) (rest : Text) : Prop := ∀ c ∈ rest.head?, ¬ isDigitOf radix c = true

theorem stops_nil (radix : ℕ) : Stops radix [] := nofun

theorem stops_cons {radix : ℕ} {c : Char} (h : ¬ isDigitOf radix c = true) (t : Text) :
    Stops radix (c :: t) := by
  rintro d ⟨⟩
  exact h

theorem takeWhile_of_stops {radix : ℕ} {w rest : Text} (hw : ∀ c ∈ w, isDigitOf radix c = true)
    (hr : Stops radix rest) : (w ++ rest).takeWhile (isDigitOf radix) = w ∧
      (w ++ rest).dropWhile (isDigitOf radix) = rest := by
  rw [List.takeWhile_append_of_pos hw, List.dropWhile_append_of_pos hw]
  cases rest with
  | nil => simp
  | cons c rest =>
    have hc := hr c rfl
    simp [hc]

section Number

variable {bound radix : ℕ} {maxDigits : Option ℕ} {zero : Bool}

theorem readNumber_eq_some {t rest : Text} {n : ℕ} :
    readNumber bound radix maxDigits zero t = some (n, rest) ↔ ∃ w, t = w ++ rest ∧
      IsNumber bound radix maxDigits zero w ∧ value radix w = n ∧ Stops radix rest := by
  constructor
  · intro h
    refine ⟨t.takeWhile (isDigitOf radix), ?_, ?_⟩
    · simp only [readNumber] at h
      split_ifs at h
      cases h
      exact List.takeWhile_append_dropWhile.symm
    · simp only [readNumber] at h
      split_ifs at h with hne hmax hzero hlt
      cases h
      refine ⟨⟨hne, fun c hc => List.mem_takeWhile_imp hc, fun n hn => ?_, ?_, hlt⟩, rfl, ?_⟩
      · rw [Option.mem_def] at hn
        simpa [hn] using hmax
      · simp only [Bool.and_eq_true, Bool.not_eq_true', decide_eq_true_eq, not_and, not_lt] at hzero
        cases zero with
        | true => exact .inl rfl
        | false => exact .inr (or_iff_not_imp_left.2 fun hz => hzero ⟨rfl, not_not.1 hz⟩)
      · intro c hc
        have hhead := List.head?_dropWhile_not (isDigitOf radix) t
        rw [hc] at hhead
        simpa using hhead
  · rintro ⟨w, rfl, hw, rfl, hr⟩
    obtain ⟨htake, hdrop⟩ := takeWhile_of_stops hw.digits hr
    have hmax : maxDigits.any (· < w.length) = false := by
      cases maxDigits with
      | none => rfl
      | some m => simpa using hw.short m rfl
    have hzero : (!zero && decide (w.head? = some '0') && decide (1 < w.length)) = false := by
      rcases hw.zero with hz | hz | hz <;> simp [hz]
    simp only [readNumber, htake, hdrop, hmax, hzero, if_neg hw.ne_nil]
    exact if_pos hw.lt

end Number

/-- `0`, or up to three digits, not beginning with a zero, of a number below 256. -/
def IsOctet : Text → Prop := IsNumber 256 10 (some 3) false

/-- Up to four hexadecimal digits. -/
def IsGroup : Text → Prop := IsNumber 65536 16 (some 4) true

theorem dot_not_digit : ¬ isDigitOf 16 '.' = true := by decide

theorem colon_not_digit : ¬ isDigitOf 16 ':' = true := by decide

theorem IsGroup.notMem {w : Text} (h : IsGroup w) {c : Char} (hc : ¬ isDigitOf 16 c = true) : c ∉ w :=
  fun hmem => hc (h.digits c hmem)

theorem IsOctet.notMem {w : Text} (h : IsOctet w) {c : Char} (hc : ¬ isDigitOf 10 c = true) : c ∉ w :=
  fun hmem => hc (h.digits c hmem)

/-! ### IPv4 -/

/-- Four octets between dots. -/
def IsQuad (t : Text) : Prop := ∃ a b c d, IsOctet a ∧ IsOctet b ∧ IsOctet c ∧ IsOctet d ∧
  t = a ++ '.' :: (b ++ '.' :: (c ++ '.' :: d))

theorem readOctet_zero {t rest : Text} {n : ℕ} : readOctet 0 t = some (n, rest) ↔
    ∃ w, t = w ++ rest ∧ IsOctet w ∧ value 10 w = n ∧ Stops 10 rest := by
  rw [readOctet, readSeparator, if_pos rfl]
  exact readNumber_eq_some

theorem readOctet_succ {t rest : Text} {n i : ℕ} : readOctet (i + 1) t = some (n, rest) ↔
    ∃ w, t = '.' :: (w ++ rest) ∧ IsOctet w ∧ value 10 w = n ∧ Stops 10 rest := by
  rw [readOctet, readSeparator, if_neg (Nat.succ_ne_zero i), Option.bind_eq_some_iff]
  constructor
  · rintro ⟨mid, hmid, h⟩
    obtain ⟨w, rfl, hw⟩ := readNumber_eq_some.1 h
    exact ⟨w, readGivenChar_eq_some.1 hmid, hw⟩
  · rintro ⟨w, rfl, hw⟩
    exact ⟨_, readGivenChar_eq_some.2 rfl, readNumber_eq_some.2 ⟨w, rfl, hw⟩⟩

/-- An address is read where four octets end before something else than a digit. -/
theorem readIpv4Addr_eq_some {t rest : Text} :
    (∃ ip, readIpv4Addr t = some (ip, rest)) ↔ ∃ q, t = q ++ rest ∧ IsQuad q ∧ Stops 10 rest := by
  have hdot : ¬ isDigitOf 10 '.' = true := by decide
  constructor
  · rintro ⟨ip, h⟩
    obtain ⟨⟨n₁, t₁⟩, h₁, h⟩ := Option.bind_eq_some_iff.1 h
    obtain ⟨⟨n₂, t₂⟩, h₂, h⟩ := Option.bind_eq_some_iff.1 h
    obtain ⟨⟨n₃, t₃⟩, h₃, h⟩ := Option.bind_eq_some_iff.1 h
    obtain ⟨⟨n₄, t₄⟩, h₄, h⟩ := Option.bind_eq_some_iff.1 h
    cases h
    obtain ⟨a, rfl, ha, -, -⟩ := readOctet_zero.1 h₁
    obtain ⟨b, rfl, hb, -, -⟩ := readOctet_succ.1 h₂
    obtain ⟨c, rfl, hc, -, -⟩ := readOctet_succ.1 h₃
    obtain ⟨d, rfl, hd, -, hstop⟩ := readOctet_succ.1 h₄
    exact ⟨_, by simp, ⟨a, b, c, d, ha, hb, hc, hd, rfl⟩, hstop⟩
  · rintro ⟨q, rfl, ⟨a, b, c, d, ha, hb, hc, hd, rfl⟩, hstop⟩
    have h₁ : readOctet 0 (a ++ '.' :: (b ++ '.' :: (c ++ '.' :: (d ++ rest)))) =
        some (value 10 a, '.' :: (b ++ '.' :: (c ++ '.' :: (d ++ rest)))) :=
      readOctet_zero.2 ⟨a, rfl, ha, rfl, stops_cons hdot _⟩
    have h₂ : readOctet 1 ('.' :: (b ++ '.' :: (c ++ '.' :: (d ++ rest)))) =
        some (value 10 b, '.' :: (c ++ '.' :: (d ++ rest))) :=
      readOctet_succ.2 ⟨b, rfl, hb, rfl, stops_cons hdot _⟩
    have h₃ : readOctet 2 ('.' :: (c ++ '.' :: (d ++ rest))) =
        some (value 10 c, '.' :: (d ++ rest)) :=
      readOctet_succ.2 ⟨c, rfl, hc, rfl, stops_cons hdot _⟩
    have h₄ : readOctet 3 ('.' :: (d ++ rest)) = some (value 10 d, rest) :=
      readOctet_succ.2 ⟨d, rfl, hd, rfl, hstop⟩
    have hassoc : a ++ '.' :: (b ++ '.' :: (c ++ '.' :: d)) ++ rest =
        a ++ '.' :: (b ++ '.' :: (c ++ '.' :: (d ++ rest))) := by simp
    rw [hassoc, readIpv4Addr, h₁]
    simp only [Option.bind_eq_bind, Option.bind_some, h₂, h₃, h₄]
    exact ⟨_, rfl⟩

theorem isIpv4_iff {t : Text} : (∃ ip, IsIpv4 t ip) ↔ IsQuad t := by
  rw [show (∃ ip, IsIpv4 t ip) ↔ _ from readIpv4Addr_eq_some]
  constructor
  · rintro ⟨q, rfl, hq, -⟩
    rwa [List.append_nil]
  · intro h
    exact ⟨t, (List.append_nil t).symm, h, stops_nil 10⟩

theorem IsQuad.colon_notMem {t : Text} (h : IsQuad t) : ':' ∉ t := by
  have hcolon : ¬ isDigitOf 10 ':' = true := by decide
  obtain ⟨a, b, c, d, ha, hb, hc, hd, rfl⟩ := h
  simp [ha.notMem hcolon, hb.notMem hcolon, hc.notMem hcolon, hd.notMem hcolon]

theorem IsQuad.dot_mem {t : Text} (h : IsQuad t) : '.' ∈ t := by
  obtain ⟨a, b, c, d, -, -, -, -, rfl⟩ := h
  simp

/-- No address begins with a group that a colon or the end follows. -/
theorem readIpv4Addr_group {w rest : Text} (hw : ∀ c ∈ w, isDigitOf 16 c = true)
    (hr : ∀ c ∈ rest.head?, c = ':') : readIpv4Addr (w ++ rest) = none := by
  by_contra hsome
  obtain ⟨⟨ip, rest'⟩, h⟩ := Option.ne_none_iff_exists'.1 hsome
  obtain ⟨q, hq, ⟨a, b, c, d, ha, -, -, -, rfl⟩, -⟩ := readIpv4Addr_eq_some.1 ⟨ip, h⟩
  have hcut : w ++ rest = a ++ '.' :: (b ++ '.' :: (c ++ '.' :: d) ++ rest') := by
    rw [hq]
    simp
  rcases List.append_eq_append_iff.1 hcut with ⟨x, rfl, hx⟩ | ⟨x, rfl, hx⟩
  · -- The dot comes after the group, where a colon stands.
    cases x with
    | nil =>
      have hdot := hr '.' (by rw [hx]; rfl)
      cases hdot
    | cons e x =>
      obtain rfl := hr e (by rw [hx]; rfl)
      exact ha.notMem (by decide) (List.mem_append_right w List.mem_cons_self)
  · cases x with
    | nil =>
      have hdot := hr '.' (by rw [← List.nil_append rest, ← hx]; rfl)
      cases hdot
    | cons e x =>
      obtain rfl : '.' = e := (List.cons.inj hx).1
      exact dot_not_digit (hw '.' (by simp))

/-! ### Groups -/

/-- Groups, and whether an IPv4 address ends them, with the number of segments they make. -/
inductive Groups : Bool → List Text → ℕ → Prop
  | nil : Groups false [] 0
  | embedded {w} (h : IsQuad w) : Groups true [w] 2
  | cons {v4 w ws n} (h : IsGroup w) (hs : Groups v4 ws n) : Groups v4 (w :: ws) (n + 1)

theorem Groups.colon_notMem {v4 : Bool} {ws : List Text} {n : ℕ} (h : Groups v4 ws n) :
    ∀ w ∈ ws, ':' ∉ w := by
  induction h with
  | nil => simp
  | embedded h => simpa using h.colon_notMem
  | cons h _ ih => exact List.forall_mem_cons.2 ⟨h.notMem colon_not_digit, ih⟩

theorem Groups.ne_nil {v4 : Bool} {ws : List Text} {n : ℕ} (h : Groups v4 ws n) :
    ∀ w ∈ ws, w ≠ [] := by
  induction h with
  | nil => simp
  | embedded h =>
    have hdot := h.dot_mem
    rw [List.forall_mem_singleton]
    rintro rfl
    cases hdot
  | cons h _ ih => exact List.forall_mem_cons.2 ⟨IsNumber.ne_nil h, ih⟩

theorem Groups.plain {v4 : Bool} {ws : List Text} {n : ℕ} (h : Groups v4 ws n) :
    Fields.Plain ':' ws := fun w hw => ⟨h.ne_nil w hw, h.colon_notMem w hw⟩

theorem groups_false_iff {ws : List Text} {n : ℕ} :
    Groups false ws n ↔ (∀ w ∈ ws, IsGroup w) ∧ ws.length = n := by
  induction ws generalizing n with
  | nil =>
    constructor
    · rintro ⟨⟩
      exact ⟨by simp, rfl⟩
    · rintro ⟨-, rfl⟩
      exact .nil
  | cons w ws ih =>
    constructor
    · rintro (_ | _ | ⟨hw, hs⟩)
      obtain ⟨hall, rfl⟩ := ih.1 hs
      exact ⟨List.forall_mem_cons.2 ⟨hw, hall⟩, rfl⟩
    · rintro ⟨hall, rfl⟩
      obtain ⟨hw, hall⟩ := List.forall_mem_cons.1 hall
      exact .cons hw (ih.2 ⟨hall, rfl⟩)

theorem groups_true_iff {ws : List Text} {n : ℕ} : Groups true ws n ↔
    ∃ ws' q m, ws = ws' ++ [q] ∧ n = m + 2 ∧ Groups false ws' m ∧ IsQuad q := by
  constructor
  · intro h
    generalize hv4 : true = v4 at h
    induction h with
    | nil => cases hv4
    | @embedded w hq => exact ⟨[], w, 0, rfl, rfl, .nil, hq⟩
    | @cons v4 w ws n hw hs ih =>
      obtain ⟨ws', q, m, rfl, rfl, hg, hq⟩ := ih hv4
      exact ⟨w :: ws', q, m + 1, rfl, rfl, .cons hw hg, hq⟩
  · rintro ⟨ws', q, m, rfl, rfl, hg, hq⟩
    generalize hv4 : false = v4 at hg
    induction hg with
    | nil => exact .embedded hq
    | embedded => cases hv4
    | cons hw hs ih => exact .cons hw (ih hv4)

/-- Words between colons; from position 1 on there is a colon before the first one too. -/
def spell (i : ℕ) (ws : List Text) : Text :=
  if i = 0 then [':'].intercalate ws else ws.flatMap (':' :: ·)

theorem spell_nil (i : ℕ) : spell i [] = [] := by
  rw [spell]
  split_ifs <;> rfl

/-- The first word stands before those from position 1 on. -/
theorem spell_cons (i : ℕ) (w : Text) (ws : List Text) :
    spell i (w :: ws) = spell i [w] ++ spell 1 ws := by
  have hone : spell 1 ws = ws.flatMap (':' :: ·) := if_neg one_ne_zero
  by_cases hi : i = 0
  · subst hi
    exact (Fields.intercalate_eq w ws).trans (by rw [hone]; simp [spell])
  · rw [spell, spell, if_neg hi, if_neg hi, hone]
    simp

theorem spell_succ (i : ℕ) (ws : List Text) : spell (i + 1) ws = spell 1 ws := rfl

theorem spell_concat (ws : List Text) (w : Text) :
    spell 0 (ws ++ [w]) = ws.flatMap (· ++ [':']) ++ w := by
  induction ws with
  | nil => simp [spell]
  | cons v ws ih =>
    rw [spell, if_pos rfl] at ih ⊢
    rw [List.cons_append, List.intercalate_cons_of_ne_nil (by simp), ih]
    simp

theorem Groups.dot_mem_iff {v4 : Bool} {ws : List Text} {n : ℕ} (h : Groups v4 ws n) :
    '.' ∈ spell 0 ws ↔ v4 = true := by
  cases v4 with
  | false =>
    simp only [Bool.false_eq_true, iff_false]
    intro hdot
    rcases Text.mem_intercalate hdot with hcolon | ⟨w, hw, hdot⟩
    · simp at hcolon
    · exact ((groups_false_iff.1 h).1 w hw).notMem dot_not_digit hdot
  | true =>
    obtain ⟨ws', q, m, rfl, -, -, hq⟩ := groups_true_iff.1 h
    simp only [iff_true]
    rw [spell_concat]
    exact List.mem_append_right _ hq.dot_mem

/-- A word is read behind its colon. -/
theorem readSeparator_spell {α : Type} (i : ℕ) (inner : Text → Option (α × Text)) (w rest : Text) :
    readSeparator ':' i inner (spell i [w] ++ rest) = inner (w ++ rest) := by
  rw [readSeparator, spell]
  split_ifs
  · simp
  · simp [readGivenChar]

theorem readSeparator_eq_some {α : Type} {i : ℕ} {inner : Text → Option (α × Text)} {t rest : Text}
    {a : α} (h : readSeparator ':' i inner t = some (a, rest)) :
    ∃ s, inner s = some (a, rest) ∧ ∀ w, s = w ++ rest → t = spell i [w] ++ rest := by
  rw [readSeparator] at h
  split_ifs at h with hi
  · refine ⟨t, h, ?_⟩
    rintro w rfl
    simp [spell, hi]
  · obtain ⟨mid, hmid, h⟩ := Option.bind_eq_some_iff.1 h
    obtain rfl := readGivenChar_eq_some.1 hmid
    refine ⟨mid, h, ?_⟩
    rintro w rfl
    simp [spell, hi]

/-- What is read as groups is groups. -/
theorem readGroups_sound {i left : ℕ} {t rest : Text} {gs : List ℕ} {v4 : Bool}
    (h : readGroups i left t = (gs, v4, rest)) :
    gs.length ≤ left ∧ ∃ ws, Groups v4 ws gs.length ∧ t = spell i ws ++ rest := by
  induction left generalizing i t gs v4 with
  | zero =>
    cases h
    exact ⟨le_rfl, [], .nil, by rw [spell_nil]; rfl⟩
  | succ left ih =>
    rw [readGroups] at h
    split at h
    next ip t' hip =>
      cases h
      split_ifs at hip with hleft
      obtain ⟨s, hs, hspell⟩ := readSeparator_eq_some hip
      obtain ⟨q, rfl, hq, -⟩ := readIpv4Addr_eq_some.1 ⟨ip, hs⟩
      exact ⟨by simp; omega, [q], .embedded hq, hspell q rfl⟩
    next hnone =>
      split at h
      next g t' hg =>
        obtain ⟨s, hs, hspell⟩ := readSeparator_eq_some hg
        obtain ⟨w, rfl, hw, -, -⟩ := readNumber_eq_some.1 hs
        cases hrec : readGroups (i + 1) left t' with
        | mk gs' x =>
          obtain ⟨v4', rest'⟩ := x
          rw [hrec] at h
          cases h
          obtain ⟨hlen, ws, hws, rfl⟩ := ih hrec
          refine ⟨by simpa using hlen, w :: ws, .cons hw hws, ?_⟩
          rw [hspell w rfl, spell_cons i w ws, List.append_assoc, spell_succ]
      next =>
        cases h
        exact ⟨by simp, [], .nil, by rw [spell_nil]; rfl⟩

/-- Groups are ended by the end of the text or by a double colon. -/
def Ends (rest : Text) : Prop := rest = [] ∨ ∃ r, rest = ':' :: ':' :: r

theorem Ends.head {rest : Text} (h : Ends rest) : ∀ c ∈ rest.head?, c = ':' := by
  rcases h with rfl | ⟨r, rfl⟩
  · simp
  · simp

/-- After the last group there is none. -/
theorem readGroups_ends (i left : ℕ) {rest : Text} (h : Ends rest) :
    readGroups i left rest = ([], false, rest) := by
  cases left with
  | zero => rfl
  | succ left =>
    have hnone {α : Type} {inner : Text → Option (α × Text)} (hnil : inner [] = none)
        (hcolon : ∀ t, inner (':' :: t) = none) : readSeparator ':' i inner rest = none := by
      rw [readSeparator]
      rcases h with rfl | ⟨r, rfl⟩
      · split_ifs
        · exact hnil
        · rfl
      · split_ifs
        · exact hcolon _
        · simpa [readGivenChar] using hcolon r
    have hv4 : readSeparator ':' i readIpv4Addr rest = none :=
      hnone rfl fun t => by
        have := @readIpv4Addr_group [] (':' :: t) (by simp) (by simp)
        exact this
    have hgroup : readSeparator ':' i (readNumber 65536 16 (some 4) true) rest = none :=
      hnone rfl fun t => readNumber_of_stop colon_not_digit t
    rw [readGroups, hv4, hgroup, ite_self]

/-- Groups are read as groups. -/
theorem readGroups_complete {i left : ℕ} {ws : List Text} {n : ℕ} {v4 : Bool} {rest : Text}
    (h : Groups v4 ws n) (hn : n ≤ left) (hr : Ends rest) :
    ∃ gs, gs.length = n ∧ readGroups i left (spell i ws ++ rest) = (gs, v4, rest) := by
  induction h generalizing i left with
  | nil => exact ⟨[], rfl, by rw [spell_nil]; exact readGroups_ends i left hr⟩
  | @embedded w hw =>
    obtain ⟨left, rfl⟩ : ∃ l, left = l + 1 := ⟨left - 1, by omega⟩
    obtain ⟨ip, hip⟩ := readIpv4Addr_eq_some.2 ⟨w, rfl, hw, fun c hc => by
      rw [hr.head c hc]
      decide⟩
    rw [readGroups, if_neg (by omega), readSeparator_spell, hip]
    exact ⟨_, rfl, rfl⟩
  | @cons v4 w ws n hw hs ih =>
    obtain ⟨left, rfl⟩ : ∃ l, left = l + 1 := ⟨left - 1, by omega⟩
    have hhead : ∀ c ∈ (spell 1 ws ++ rest).head?, c = ':' := by
      cases ws with
      | nil => exact spell_nil 1 ▸ hr.head
      | cons v ws => simp [spell]
    have hstop : Stops 16 (spell 1 ws ++ rest) := fun c hc => by
      rw [hhead c hc]
      exact colon_not_digit
    have hv4 : readSeparator ':' i readIpv4Addr (spell i [w] ++ (spell 1 ws ++ rest)) = none := by
      rw [readSeparator_spell]
      exact readIpv4Addr_group hw.digits hhead
    have hgroup : readSeparator ':' i (readNumber 65536 16 (some 4) true)
        (spell i [w] ++ (spell 1 ws ++ rest)) = some (value 16 w, spell 1 ws ++ rest) := by
      rw [readSeparator_spell]
      exact readNumber_eq_some.2 ⟨w, rfl, hw, rfl, hstop⟩
    obtain ⟨gs, hlen, hgs⟩ := @ih (i + 1) left (by omega)
    refine ⟨value 16 w :: gs, by simp [hlen], ?_⟩
    rw [spell_succ] at hgs
    rw [spell_cons, List.append_assoc, readGroups, hv4, ite_self, hgroup]
    simp only [hgs]

/-! ### IPv6 -/

/-- Eight segments. -/
def IsWhole (t : Text) : Prop := ∃ v4 ws, Groups v4 ws 8 ∧ t = spell 0 ws

/-- At most seven segments around a double colon. -/
def IsCompressed (t : Text) : Prop := ∃ l n v4 r m, Groups false l n ∧ Groups v4 r m ∧
  n + m ≤ 7 ∧ t = spell 0 l ++ ':' :: ':' :: spell 0 r

theorem isIpv6_iff {t : Text} : (∃ ip, IsIpv6 t ip) ↔ IsWhole t ∨ IsCompressed t := by
  constructor
  · rintro ⟨ip, h⟩
    cases hl : readGroups 0 8 t with
    | mk gs x =>
      obtain ⟨v4, rest⟩ := x
      obtain ⟨hleft, l, hgroups, rfl⟩ := readGroups_sound hl
      rw [IsIpv6, readIpv6Addr, hl] at h
      simp only at h
      split_ifs at h with hfull hv4
      · cases h
        exact .inl ⟨v4, l, hfull ▸ hgroups, List.append_nil _⟩
      · obtain rfl := Bool.eq_false_iff.2 hv4
        obtain ⟨mid, hm, hmid⟩ := Option.bind_eq_some_iff.1 h
        obtain ⟨mid', hm', hmid'⟩ := Option.bind_eq_some_iff.1 hmid
        obtain rfl := readGivenChar_eq_some.1 hm
        obtain rfl := readGivenChar_eq_some.1 hm'
        cases hr : readGroups 0 (8 - (gs.length + 1)) mid' with
        | mk gs' y =>
          obtain ⟨v4', rest'⟩ := y
          obtain ⟨hlen, r, hgroups', rfl⟩ := readGroups_sound hr
          rw [hr] at hmid'
          cases hmid'
          refine .inr ⟨l, _, v4', r, _, hgroups, hgroups', ?_, by rw [List.append_nil]⟩
          omega
  · rintro (⟨v4, ws, hws, rfl⟩ | ⟨l, n, v4, r, m, hl, hr, hle, rfl⟩)
    · obtain ⟨gs, hlen, hgs⟩ := @readGroups_complete 0 8 _ _ _ [] hws le_rfl (.inl rfl)
      rw [List.append_nil] at hgs
      exact ⟨_, by rw [IsIpv6, readIpv6Addr, hgs]; exact if_pos hlen⟩
    · obtain ⟨gs, hlen, hgs⟩ := @readGroups_complete 0 8 _ _ _ _ hl (by omega)
        (.inr ⟨spell 0 r, rfl⟩)
      obtain ⟨gs', -, hgs'⟩ := @readGroups_complete 0 (8 - (gs.length + 1)) _ _ _ [] hr (by omega)
        (.inl rfl)
      rw [List.append_nil] at hgs'
      refine ⟨ofSegments (gs ++ List.replicate (8 - gs.length - gs'.length) 0 ++ gs'), ?_⟩
      rw [IsIpv6, readIpv6Addr, hgs]
      simp only
      rw [if_neg (by omega), if_neg (by decide)]
      simp only [readGivenChar_eq_some.2 rfl, Option.bind_eq_bind, Option.bind_some, hgs']

end AddressParse

end FerrumDns
