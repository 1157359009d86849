import FerrumDns.Dns.Message
import FerrumDns.Text.Digits

/-! Names in text. Labels are joined by dots, an absolute name ends in one, and octets
that are not letters or digits are escaped, in one of a few ways. Whatever the way, the
text without final dots, in lower case, can be read back: it determines the labels up to
ASCII case, and depends on nothing else. -/

namespace FerrumDns

open Text

namespace Escape

def char (b : UInt8) : Char := Char.ofNat b.toNat

def isAlnum (b : UInt8) : Bool :=
  (48 ≤ b && b ≤ 57) || (65 ≤ b && b ≤ 90) || (97 ≤ b && b ≤ 122)

def octalDigit (n : ℕ) : Char := Char.ofNat (48 + n % 8)

/-- How an octet that is no letter or digit may be shown: `-`, `_` and `*` as they are, a printable
one behind a backslash, any one by three octal digits behind a backslash. -/
inductive Shown (b : UInt8) : Text → Prop
  | plain (h : b = 45 ∨ b = 95 ∨ b = 42) : Shown b [char b]
  | quoted (h : 32 < b ∧ b < 127) : Shown b ['\\', char b]
  | octal :
    Shown b ['\\', octalDigit (b.toNat / 64), octalDigit (b.toNat / 8), octalDigit b.toNat]

/-- A printer of octets, told whether they come first in their label, that shows letters and digits
as they are and escapes the others. -/
structure Escaping (octet : Bool → UInt8 → Text) : Prop where
  alnum : ∀ first b, isAlnum b = true → octet first b = [char b]
  other : ∀ first b, isAlnum b = false → Shown b (octet first b)

/-- The octets of a label, each with whether it comes first. -/
def flagged : Bytes → List (Bool × UInt8)
  | [] => []
  | b :: rest => (true, b) :: rest.map (false, ·)

def printLabel (octet : Bool → UInt8 → Text) (label : Bytes) : Text :=
  (flagged label).flatMap fun x => octet x.1 x.2

def printName (octet : Bool → UInt8 → Text) (n : Name) : Text :=
  ['.'].intercalate (n.labels.map (printLabel octet)) ++ if n.fqdn then ['.'] else []

/-! ### Reading -/

def readChar (c : Char) : UInt8 := UInt8.ofNat c.toNat

def readOctal (x y z : Char) : UInt8 :=
  UInt8.ofNat ((x.toNat - 48) * 64 + (y.toNat - 48) * 8 + (z.toNat - 48))

/-- The octets of a text, with `none` for a dot between labels. A backslash at the very end is what
is left of an escaped dot. -/
def read : Text → List (Option UInt8)
  | [] => []
  | ['\\'] => [some 46]
  | '\\' :: x :: y :: z :: t =>
    if x.isDigit then some (readOctal x y z) :: read t else some (readChar x) :: read (y :: z :: t)
  | '\\' :: x :: t => some (readChar x) :: read t
  | c :: t => (if c = '.' then none else some (readChar c)) :: read t

theorem read_plain {c : Char} (hd : c ≠ '.') (hb : c ≠ '\\') (t : Text) :
    read (c :: t) = some (readChar c) :: read t := by
  rw [read]
  · simp [hd]
  · rintro rfl
    simp at hb
  all_goals
    intros
    simp_all

theorem read_dot (t : Text) : read ('.' :: t) = none :: read t := by
  rw [read] <;> simp

theorem read_quoted {x : Char} (hx : x.isDigit = false) (t : Text) :
    read ('\\' :: x :: t) = some (readChar x) :: read t := by
  match t with
  | [] => rfl
  | [y] => rfl
  | y :: z :: t => rw [read, if_neg (by simp [hx])]

theorem read_octal {x y z : Char} (hx : x.isDigit = true) (t : Text) :
    read ('\\' :: x :: y :: z :: t) = some (readOctal x y z) :: read t := by
  rw [read, if_pos hx]

/-! ### One octet -/

theorem forall_octet {P : UInt8 → Prop} (h : ∀ n < 256, P (UInt8.ofNat n)) : ∀ b, P b := by
  intro b
  have hb := h b.toNat b.toNat_lt
  rwa [UInt8.ofNat_toNat] at hb

/-- What holds of each of the 256 octets, by going through them. -/
theorem octet_facts : ∀ b : UInt8,
    (isAlnum b = true → ((char b).toLower ≠ '.' ∧ (char b).toLower ≠ '\\' ∧
      readChar (char b).toLower = lowerOctet b) ∧
      isAlnum (lowerOctet b) = true ∧ (char (lowerOctet b)).toLower = (char b).toLower) ∧
    (isAlnum b = false → lowerOctet b = b ∧ (b < 127 → (char b).toLower = char b ∧
      (char b).isDigit = false ∧ readChar (char b) = b)) := by
  apply forall_octet
  decide +kernel

theorem char_alnum (b : UInt8) (h : isAlnum b = true) : (char b).toLower ≠ '.' ∧
    (char b).toLower ≠ '\\' ∧ readChar (char b).toLower = lowerOctet b :=
  ((octet_facts b).1 h).1

theorem lower_alnum (b : UInt8) (h : isAlnum b = true) :
    isAlnum (lowerOctet b) = true ∧ (char (lowerOctet b)).toLower = (char b).toLower :=
  ((octet_facts b).1 h).2

theorem lower_other (b : UInt8) (h : isAlnum b = false) : lowerOctet b = b :=
  ((octet_facts b).2 h).1

theorem char_other (b : UInt8) (h : isAlnum b = false) : b < 127 → (char b).toLower = char b ∧
    (char b).isDigit = false ∧ readChar (char b) = b :=
  ((octet_facts b).2 h).2

theorem octal_digits : ∀ b : UInt8, (octalDigit (b.toNat / 64)).toLower = octalDigit (b.toNat / 64) ∧
    (octalDigit (b.toNat / 8)).toLower = octalDigit (b.toNat / 8) ∧
    (octalDigit b.toNat).toLower = octalDigit b.toNat ∧
    (octalDigit (b.toNat / 64)).isDigit = true ∧ octalDigit b.toNat ≠ '.' ∧
    readOctal (octalDigit (b.toNat / 64)) (octalDigit (b.toNat / 8)) (octalDigit b.toNat) = b := by
  apply forall_octet
  decide +kernel

variable {octet : Bool → UInt8 → Text}

/-- A shown octet is read back in lower case, whatever follows. -/
theorem Escaping.read_octet (h : Escaping octet) (first : Bool) (b : UInt8) (t : Text) :
    read (lowercase (octet first b) ++ t) = some (lowerOctet b) :: read t := by
  cases hb : isAlnum b with
  | true =>
    obtain ⟨hdot, hslash, hread⟩ := char_alnum b hb
    rw [h.alnum first b hb, lowercase, List.map_singleton, List.singleton_append,
      read_plain hdot hslash, hread]
  | false =>
    have hs := h.other first b hb
    rw [lower_other b hb]
    generalize octet first b = shown at hs ⊢
    cases hs with
    | plain hp => rcases hp with rfl | rfl | rfl <;> exact read_plain (by decide) (by decide) t
    | quoted hq =>
      obtain ⟨hlow, hdigit, hread⟩ := char_other b hb hq.2
      have hslash : '\\'.toLower = '\\' := by decide
      simp only [lowercase, List.map_cons, List.map_nil, hlow, hslash, List.cons_append,
        List.nil_append, read_quoted hdigit, hread]
    | octal =>
      obtain ⟨hx, hy, hz, hdigit, -, hread⟩ := octal_digits b
      have hslash : '\\'.toLower = '\\' := by decide
      simp only [lowercase, List.map_cons, List.map_nil, hx, hy, hz, hslash, List.cons_append,
        List.nil_append, read_octal hdigit, hread]

/-! ### Final dots -/

theorem trimDots_append_dots (t : Text) {final : Text} (hf : ∀ c ∈ final, c = '.') :
    trimDots (t ++ final) = trimDots t := by
  have hdots : ∀ c ∈ final.reverse, (c == '.') = true := by simpa using hf
  simp only [trimDots, trimEnd, List.rdropWhile, List.reverse_append,
    List.dropWhile_append_of_pos hdots]

theorem trimDots_append (x : Text) {t : Text} (ht : trimDots t ≠ []) :
    trimDots (x ++ t) = x ++ trimDots t := by
  have hne : (t.reverse.dropWhile (· == '.')).isEmpty = false := by
    simpa [trimDots, trimEnd, List.rdropWhile] using ht
  simp [trimDots, trimEnd, List.rdropWhile, List.dropWhile_append, hne]

theorem trimDots_concat (t : Text) {c : Char} (hc : c ≠ '.') : trimDots (t ++ [c]) = t ++ [c] :=
  List.rdropWhile_concat_neg _ _ _ (by simpa using hc)

/-- At the end of the text the final dots are gone, also that of an escaped dot. -/
theorem Escaping.read_last (h : Escaping octet) (first : Bool) (b : UInt8) :
    trimDots (octet first b) ≠ [] ∧
      read (lowercase (trimDots (octet first b))) = [some (lowerOctet b)] := by
  have hread := h.read_octet first b []
  rw [List.append_nil, show read [] = [] from rfl] at hread
  have whole (t : Text) (c : Char) (ht : octet first b = t ++ [c]) (hc : c ≠ '.') :
      trimDots (octet first b) ≠ [] ∧
        read (lowercase (trimDots (octet first b))) = [some (lowerOctet b)] := by
    have htrim : trimDots (octet first b) = octet first b := by rw [ht, trimDots_concat t hc]
    rw [htrim]
    exact ⟨by simp [ht], hread⟩
  cases hb : isAlnum b with
  | true =>
    obtain ⟨hdot, -, -⟩ := char_alnum b hb
    exact whole [] (char b) (h.alnum first b hb) fun hc => hdot (by rw [hc]; rfl)
  | false =>
    have hs := h.other first b hb
    generalize hshown : octet first b = shown at hs
    cases hs with
    | plain hp =>
      exact hshown ▸ whole [] (char b) hshown (by rcases hp with rfl | rfl | rfl <;> decide)
    | quoted hq =>
      by_cases hdot : char b = '.'
      · obtain ⟨-, -, hread⟩ := char_other b hb hq.2
        have hdots : b = 46 := by rw [← hread, hdot]; rfl
        subst hdots
        exact ⟨by decide, by decide⟩
      · exact hshown ▸ whole ['\\'] (char b) hshown hdot
    | octal =>
      exact hshown ▸ whole ['\\', _, _] _ hshown (octal_digits b).2.2.2.2.1

/-! ### Labels and names -/

theorem Escaping.read_flagged (h : Escaping octet) (xs : List (Bool × UInt8)) (t : Text) :
    read (lowercase (xs.flatMap fun x => octet x.1 x.2) ++ t) =
      xs.map (fun x => some (lowerOctet x.2)) ++ read t := by
  induction xs with
  | nil => rfl
  | cons x xs ih =>
    have hsplit : lowercase ((x :: xs).flatMap fun x => octet x.1 x.2) ++ t =
        lowercase (octet x.1 x.2) ++ (lowercase (xs.flatMap fun x => octet x.1 x.2) ++ t) := by
      simp [lowercase]
    rw [hsplit, h.read_octet, ih, List.map_cons, List.cons_append]

theorem Escaping.read_flagged_last (h : Escaping octet) {xs : List (Bool × UInt8)} (hxs : xs ≠ []) :
    trimDots (xs.flatMap fun x => octet x.1 x.2) ≠ [] ∧
      read (lowercase (trimDots (xs.flatMap fun x => octet x.1 x.2))) =
        xs.map (fun x => some (lowerOctet x.2)) := by
  induction xs with
  | nil => exact absurd rfl hxs
  | cons x xs ih =>
    by_cases hnil : xs = []
    · subst hnil
      simpa using h.read_last x.1 x.2
    · obtain ⟨hne, hread⟩ := ih hnil
      rw [List.flatMap_cons, trimDots_append _ hne]
      refine ⟨by simp [hne], ?_⟩
      rw [lowercase, List.map_append]
      exact (h.read_octet x.1 x.2 _).trans (congrArg _ hread)

theorem map_flagged (f : UInt8 → Option UInt8) (label : Bytes) :
    (flagged label).map (fun x => f x.2) = label.map f := by
  cases label <;> simp [flagged]

theorem flagged_ne_nil {label : Bytes} (h : label ≠ []) : flagged label ≠ [] := by
  cases label
  · exact absurd rfl h
  · simp [flagged]

/-- The octets of labels in lower case, with `none` between the labels. -/
def spelled (labels : List Bytes) : List (Option UInt8) :=
  [none].intercalate (labels.map (List.map fun b => some (lowerOctet b)))

theorem Escaping.read_labels (h : Escaping octet) {labels : List Bytes} (hl : labels ≠ [])
    (hne : ∀ label ∈ labels, label ≠ []) :
    trimDots (['.'].intercalate (labels.map (printLabel octet))) ≠ [] ∧
      read (lowercase (trimDots (['.'].intercalate (labels.map (printLabel octet))))) =
        spelled labels := by
  induction labels with
  | nil => exact absurd rfl hl
  | cons label labels ih =>
    have hlabel : label ≠ [] := hne label (by simp)
    by_cases hnil : labels = []
    · subst hnil
      have hlast := h.read_flagged_last (flagged_ne_nil hlabel)
      rw [map_flagged (fun b => some (lowerOctet b))] at hlast
      simpa [spelled, printLabel] using hlast
    · obtain ⟨htrim, hread⟩ := ih hnil fun l hm => hne l (by simp [hm])
      have hsplit : ['.'].intercalate ((label :: labels).map (printLabel octet)) =
          printLabel octet label ++ ['.'] ++ ['.'].intercalate (labels.map (printLabel octet)) := by
        rw [List.map_cons, List.intercalate_cons_of_ne_nil (by simpa using hnil)]
      have hspelled : spelled (label :: labels) =
          label.map (fun b => some (lowerOctet b)) ++ [none] ++ spelled labels := by
        rw [spelled, List.map_cons, List.intercalate_cons_of_ne_nil (by simpa using hnil)]
        rfl
      rw [hsplit, trimDots_append _ htrim, hspelled]
      refine ⟨by simp, ?_⟩
      have hlower : lowercase (printLabel octet label ++ ['.'] ++
            trimDots (['.'].intercalate (labels.map (printLabel octet)))) =
          lowercase ((flagged label).flatMap fun x => octet x.1 x.2) ++
            '.' :: lowercase (trimDots (['.'].intercalate (labels.map (printLabel octet)))) := by
        have hdot : '.'.toLower = '.' := by decide
        simp [lowercase, printLabel, hdot]
      rw [hlower, h.read_flagged, read_dot, hread, map_flagged (fun b => some (lowerOctet b))]
      simp

theorem Escaping.read_name (h : Escaping octet) (n : Name) :
    read (lowercase (trimDots (printName octet n))) = spelled n.labels := by
  have hfinal : ∀ c ∈ (if n.fqdn then ['.'] else []), c = '.' := by
    cases n.fqdn <;> simp
  rw [printName, trimDots_append_dots _ hfinal]
  by_cases hnil : n.labels = []
  · rw [hnil]
    rfl
  · exact (h.read_labels hnil n.nonempty).2

/-- The labels in lower case stand between the ends of labels. -/
theorem splitOn_spelled {l : List Bytes} (hne : l ≠ []) : (spelled l).splitOn none =
    (l.map (List.map lowerOctet)).map (List.map some) := by
  rw [spelled, List.splitOn_intercalate _ (by simp) (by simpa using hne), List.map_map]
  simp [Function.comp_def]

theorem map_some_injective : Function.Injective (List.map (List.map (some : UInt8 → Option UInt8))) :=
  List.map_injective_iff.2 (List.map_injective_iff.2 (Option.some_injective _))

theorem spelled_eq_nil {l : List Bytes} (hl : ∀ label ∈ l, label ≠ []) : spelled l = [] ↔ l = [] := by
  cases l with
  | nil => simp [spelled]
  | cons label l =>
    obtain ⟨x, xs, hx⟩ := List.exists_cons_of_ne_nil (hl label (by simp))
    simp [spelled, hx]

theorem spelled_inj {a b : List Bytes} (ha : ∀ label ∈ a, label ≠ []) (hb : ∀ label ∈ b, label ≠ [])
    (h : spelled a = spelled b) : a.map (List.map lowerOctet) = b.map (List.map lowerOctet) := by
  by_cases hnil : a = []
  · obtain rfl : b = [] := (spelled_eq_nil hb).1 (h ▸ (spelled_eq_nil ha).2 hnil)
    rw [hnil]
  · have hne : b ≠ [] := fun hb' => hnil ((spelled_eq_nil ha).1 (h ▸ (spelled_eq_nil hb).2 hb'))
    apply map_some_injective
    rw [← splitOn_spelled hnil, ← splitOn_spelled hne, h]

/-- Labels that are spelled behind the end of a label are the last ones. -/
theorem suffix_of_spelled {a b : List Bytes} (ha : a ≠ []) (hb : b ≠ []) {u : List (Option UInt8)}
    (h : spelled a = u ++ none :: spelled b) :
    b.map (List.map lowerOctet) <:+ a.map (List.map lowerOctet) := by
  have hsplit := splitOn_spelled ha
  rw [h, List.splitOn, List.splitOnP_append_cons u _ (by simp), ← List.splitOn, ← List.splitOn,
    splitOn_spelled hb] at hsplit
  obtain ⟨v, hv, heq⟩ := List.suffix_map_iff.1 ⟨_, hsplit⟩
  rwa [map_some_injective heq]

/-! ### Lower case -/

theorem toLower_eq_dot (c : Char) : c.toLower = '.' ↔ c = '.' := by
  by_cases hc : c.val ≥ 'A'.val ∧ c.val ≤ 'Z'.val
  · have hlower : c.toLower.val = c.val + ('a'.val - 'A'.val) := congrArg Char.val (dif_pos hc)
    have hne : c ≠ '.' := by
      rintro rfl
      exact absurd hc (by decide)
    simp only [hne, iff_false]
    intro h
    rw [h] at hlower
    have hnat := congrArg UInt32.toNat hlower
    have hlow := UInt32.le_iff_toNat_le.1 hc.1
    have hhigh := UInt32.le_iff_toNat_le.1 hc.2
    simp at hnat hlow hhigh
    omega
  · have hlower : c.toLower = c := dif_neg hc
    rw [hlower]

theorem lowercase_trimDots (t : Text) : lowercase (trimDots t) = trimDots (lowercase t) := by
  have hdot : (fun c => c == '.') ∘ Char.toLower = fun c => c == '.' := by
    funext c
    simp [toLower_eq_dot]
  simp only [lowercase, trimDots, trimEnd, List.rdropWhile, ← List.map_reverse, List.dropWhile_map,
    hdot]

theorem Escaping.lowercase_octet (h : Escaping octet) (first : Bool) (b : UInt8) :
    lowercase (octet first (lowerOctet b)) = lowercase (octet first b) := by
  cases hb : isAlnum b with
  | true =>
    obtain ⟨hlow, hchar⟩ := lower_alnum b hb
    rw [h.alnum first _ hlow, h.alnum first b hb, lowercase, lowercase, List.map_singleton,
      List.map_singleton, hchar]
  | false => rw [lower_other b hb]

theorem Escaping.lowercase_label (h : Escaping octet) (label : Bytes) :
    lowercase (printLabel octet (label.map lowerOctet)) = lowercase (printLabel octet label) := by
  have hflagged : flagged (label.map lowerOctet) =
      (flagged label).map fun x => (x.1, lowerOctet x.2) := by
    cases label <;> simp [flagged]
  have hoctet (x : Bool × UInt8) :
      (octet x.1 (lowerOctet x.2)).map Char.toLower = (octet x.1 x.2).map Char.toLower :=
    h.lowercase_octet x.1 x.2
  simp only [lowercase, printLabel, hflagged, List.flatMap_map, List.map_flatMap, hoctet]

theorem lowercase_intercalate (parts : List Text) :
    lowercase (['.'].intercalate parts) = ['.'].intercalate (parts.map lowercase) := by
  induction parts with
  | nil => rfl
  | cons part parts ih =>
    by_cases hnil : parts = []
    · simp [hnil]
    · rw [List.map_cons, List.intercalate_cons_of_ne_nil hnil,
        List.intercalate_cons_of_ne_nil (by simpa using hnil), ← ih]
      have hdot : '.'.toLower = '.' := by decide
      simp [lowercase, hdot]

/-- What a key keeps of a name: two names give the same text exactly when they agree up to ASCII case
and final dot. -/
theorem Escaping.name_inj (h : Escaping octet) (a b : Name) :
    lowercase (trimDots (printName octet a)) = lowercase (trimDots (printName octet b)) ↔
      a.lower.labels = b.lower.labels := by
  constructor
  · intro hab
    apply spelled_inj a.nonempty b.nonempty
    rw [← h.read_name a, ← h.read_name b, hab]
  · intro hab
    have lowered (n : Name) : lowercase (trimDots (printName octet n)) =
        trimDots (['.'].intercalate (n.lower.labels.map fun l => lowercase (printLabel octet l))) := by
      have hfinal : ∀ c ∈ lowercase (if n.fqdn then ['.'] else []), c = '.' := by
        have hdot : '.'.toLower = '.' := by decide
        cases n.fqdn <;> simp [lowercase, hdot]
      have hparts : (n.labels.map (printLabel octet)).map lowercase =
          n.lower.labels.map fun l => lowercase (printLabel octet l) := by
        simp [Name.lower, Function.comp_def, h.lowercase_label]
      rw [lowercase_trimDots, printName, lowercase, List.map_append]
      exact (trimDots_append_dots _ hfinal).trans
        (congrArg trimDots ((lowercase_intercalate _).trans (congrArg _ hparts)))
    rw [lowered, lowered, hab]

end Escape

end FerrumDns
