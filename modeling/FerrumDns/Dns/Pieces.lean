import FerrumDns.Dns.Escape
import FerrumDns.DomainSet.Rules
import FerrumDns.Text.Splitting

/-! Printed names where dots are. A text is cut at its dots, and a dot inside a label is printed
as one behind a backslash, so the parts of a printed name are the pieces of its labels, cut
after each dot octet; what a part no longer shows is whether a label begins with it. A text
that ends in a dot and a printed name shows either the name's labels or what follows a dot
inside a label. -/

namespace FerrumDns

open Text

namespace DomainSet

/-! ### Parts of a text -/

theorem labels_nil : labels [] = [] := by
  rw [labels, List.splitOn_nil]
  rfl

theorem labels_append_dot (a b : Text) : labels (a ++ '.' :: b) = labels a ++ labels b := by
  rw [labels, List.splitOn, List.splitOnP_append_cons a b (by simp), List.filter_append]
  rfl

theorem splitOn_append {w t s : Text} {ss : List Text} (hw : '.' ∉ w)
    (h : t.splitOn '.' = s :: ss) : (w ++ t).splitOn '.' = (w ++ s) :: ss := by
  induction w with
  | nil => exact h
  | cons c w ih =>
    rw [List.mem_cons, not_or] at hw
    have hc : (c == '.') = false := beq_false_of_ne (Ne.symm hw.1)
    have htail := ih hw.2
    rw [List.splitOn] at htail
    rw [List.cons_append, List.splitOn, List.splitOnP_cons_eq_if_modifyHead, hc, htail]
    rfl

theorem labels_of_notMem {w : Text} (hw : '.' ∉ w) (hne : w ≠ []) : labels w = [w] := by
  have hsplit := splitOn_append (t := []) hw rfl
  rw [List.append_nil] at hsplit
  rw [labels, hsplit]
  simp [hne]

/-- A text without dots goes before the first part, when the other text does not start with a dot. -/
theorem labels_append_left {w t a : Text} {as : List Text} (hw : '.' ∉ w)
    (ht : t.head? ≠ some '.') (h : labels t = a :: as) : labels (w ++ t) = (w ++ a) :: as := by
  cases t with
  | nil =>
    rw [labels_nil] at h
    cases h
  | cons c t =>
    have hc : '.' ∉ [c] := by
      rintro hm
      exact ht (congrArg some (List.mem_singleton.1 hm).symm)
    obtain ⟨s, ss, hs⟩ := List.exists_cons_of_ne_nil (List.splitOnP_ne_nil (· == '.') t)
    have hsplit : (c :: t).splitOn '.' = (c :: s) :: ss := splitOn_append hc hs
    rw [labels, hsplit, List.filter_cons_of_pos (by simp)] at h
    obtain ⟨rfl, rfl⟩ := List.cons.inj h
    rw [labels, splitOn_append hw hsplit, List.filter_cons_of_pos (by simp)]

theorem splitOn_lowercase (t : Text) :
    (lowercase t).splitOn '.' = (t.splitOn '.').map lowercase := by
  induction t with
  | nil => rfl
  | cons c t ih =>
    have hdot : (c.toLower == '.') = (c == '.') := by
      rw [Bool.eq_iff_iff, beq_iff_eq, beq_iff_eq, Escape.toLower_eq_dot]
    obtain ⟨s, ss, hs⟩ := List.exists_cons_of_ne_nil (List.splitOnP_ne_nil (· == '.') t)
    simp only [List.splitOn, lowercase, List.map_cons, List.splitOnP_cons_eq_if_modifyHead,
      hdot] at ih ⊢
    rw [ih, hs]
    split_ifs <;> rfl

theorem labels_lowercase (t : Text) : labels (lowercase t) = (labels t).map lowercase := by
  have hne : (fun w : Text => decide (w ≠ [])) ∘ lowercase = fun w => decide (w ≠ []) := by
    funext w
    simp [lowercase]
  rw [labels, splitOn_lowercase, List.filter_map, hne, labels]

theorem labels_trimDots (t : Text) : labels (trimDots t) = labels t := by
  induction t using List.reverseRecOn with
  | nil => rfl
  | append_singleton t c ih =>
    by_cases hc : c = '.'
    · subst hc
      have hdots : ∀ c ∈ ['.'], c = '.' := by simp
      rw [Escape.trimDots_append_dots t hdots, ih, labels_append_dot, labels_nil, List.append_nil]
    · rw [Escape.trimDots_concat t hc]

theorem labels_trimStart (t : Text) : labels (trimStart (· == '.') t) = labels t := by
  induction t with
  | nil => rfl
  | cons c t ih =>
    by_cases hc : c = '.'
    · subst hc
      have hdot := labels_append_dot [] t
      rw [labels_nil] at hdot
      exact ih.trans hdot.symm
    · rw [trimStart, List.dropWhile_cons_of_neg (by simp [hc])]

end DomainSet

/-! ### Pieces of a label -/

namespace Escape

/-- Octets are escaped, a dot in a label as one behind a backslash. -/
structure Dotted (octet : Bool → UInt8 → Text) : Prop extends Escaping octet where
  dot : ∀ first, octet first 46 = ['\\', '.']

/-- The octets of a label up to a dot in it, that included, or to its end. -/
def cut : List (Bool × UInt8) → List (List (Bool × UInt8))
  | [] => []
  | x :: xs =>
    if x.2 = 46 then [x] :: cut xs
    else
      match cut xs with
      | [] => [[x]]
      | p :: ps => (x :: p) :: ps

/-- The pieces of some labels. -/
def pieces (labels : List Bytes) : List (List (Bool × UInt8)) :=
  labels.flatMap fun label => cut (flagged label)

/-- A label begins with the piece. -/
def begins (p : List (Bool × UInt8)) : Bool := (p.head?.map Prod.fst).getD false

variable (octet : Bool → UInt8 → Text)

def shown (x : Bool × UInt8) : Text := lowercase (octet x.1 x.2)

/-- What is left of an octet without the dot it may be shown with. -/
def stop (x : Bool × UInt8) : Text := if x.2 = 46 then ['\\'] else shown octet x

def pieceText (p : List (Bool × UInt8)) : Text := p.flatMap (stop octet)

variable {octet}

theorem Dotted.shown_dot (h : Dotted octet) (first : Bool) :
    shown octet (first, 46) = ['\\', '.'] := by
  rw [shown, h.dot]
  decide

/-- What holds of the text of each of the 256 octets, by going through them. -/
theorem octet_texts : ∀ b : UInt8,
    (octalDigit (b.toNat / 64) ≠ '.' ∧ octalDigit (b.toNat / 8) ≠ '.' ∧
      octalDigit b.toNat ≠ '.') ∧
    (isWhitespace (octalDigit (b.toNat / 64)) = false ∧
      isWhitespace (octalDigit (b.toNat / 8)) = false ∧
      isWhitespace (octalDigit b.toNat) = false) ∧
    (b < 127 → (b ≠ 46 → char b ≠ '.') ∧ (32 < b → isWhitespace (char b) = false)) ∧
    (isAlnum b = true → 32 < b ∧ b < 127) := by
  apply forall_octet
  decide +kernel

theorem octal_ne_dot (b : UInt8) : octalDigit (b.toNat / 64) ≠ '.' ∧
    octalDigit (b.toNat / 8) ≠ '.' ∧ octalDigit b.toNat ≠ '.' :=
  (octet_texts b).1

theorem char_ne_dot (b : UInt8) (hlow : b < 127) : b ≠ 46 → char b ≠ '.' :=
  ((octet_texts b).2.2.1 hlow).1

/-- Other octets are shown without a dot. -/
theorem Escaping.dot_notMem_octet (h : Escaping octet) {first : Bool} {b : UInt8} (hb : b ≠ 46) :
    '.' ∉ octet first b := by
  cases halnum : isAlnum b with
  | true =>
    have hdot := (char_alnum b halnum).1
    rw [h.alnum first b halnum, List.mem_singleton]
    intro hc
    rw [← hc] at hdot
    exact hdot rfl
  | false =>
    have hs := h.other first b halnum
    generalize octet first b = t at hs
    cases hs with
    | plain hp => rcases hp with rfl | rfl | rfl <;> decide
    | quoted hq => simpa [eq_comm] using char_ne_dot b hq.2 hb
    | octal =>
      obtain ⟨hx, hy, hz⟩ := octal_ne_dot b
      simp [Ne.symm hx, Ne.symm hy, Ne.symm hz]

theorem Escaping.dot_notMem_shown (h : Escaping octet) {x : Bool × UInt8} (hx : x.2 ≠ 46) :
    '.' ∉ shown octet x := by
  intro hm
  obtain ⟨c, hc, hlow⟩ := List.mem_map.1 hm
  rw [toLower_eq_dot] at hlow
  exact h.dot_notMem_octet hx (hlow ▸ hc)

theorem Escaping.shown_ne_nil (h : Escaping octet) (x : Bool × UInt8) : shown octet x ≠ [] := by
  intro hnil
  have hread := h.read_octet x.1 x.2 []
  rw [← shown, hnil] at hread
  cases hread

theorem Dotted.head_shown (h : Dotted octet) (x : Bool × UInt8) (t : Text) :
    (shown octet x ++ t).head? ≠ some '.' := by
  obtain ⟨first, b⟩ := x
  by_cases hb : b = 46
  · subst hb
    rw [h.shown_dot]
    simp
  · have hdot := h.dot_notMem_shown (x := (first, b)) hb
    obtain ⟨c, s, hs⟩ := List.exists_cons_of_ne_nil (h.shown_ne_nil (first, b))
    rw [hs, List.mem_cons, not_or] at hdot
    rw [hs]
    simpa [eq_comm] using hdot.1

theorem cut_ne_nil {xs : List (Bool × UInt8)} (h : xs ≠ []) : cut xs ≠ [] := by
  cases xs with
  | nil => exact absurd rfl h
  | cons x xs =>
    rw [cut]
    split_ifs
    · simp
    · split <;> simp

/-- The parts of a label's text are its pieces, without the dots after them. -/
theorem Dotted.labels_shown (h : Dotted octet) (xs : List (Bool × UInt8)) :
    DomainSet.labels (xs.flatMap (shown octet)) = (cut xs).map (pieceText octet) := by
  induction xs with
  | nil => exact DomainSet.labels_nil
  | cons x xs ih =>
    obtain ⟨first, b⟩ := x
    rw [List.flatMap_cons, cut]
    split_ifs with hb
    · obtain rfl : b = 46 := hb
      have hslash : DomainSet.labels ['\\'] = [['\\']] := by decide
      rw [h.shown_dot, List.cons_append, List.singleton_append]
      exact (DomainSet.labels_append_dot ['\\'] _).trans (by rw [hslash, ih]; rfl)
    · have hdot := h.dot_notMem_shown (x := (first, b)) hb
      have hstop : stop octet (first, b) = shown octet (first, b) := if_neg hb
      cases xs with
      | nil =>
        rw [List.flatMap_nil, List.append_nil,
          DomainSet.labels_of_notMem hdot (h.shown_ne_nil _)]
        simp [cut, pieceText, hstop]
      | cons y ys =>
        obtain ⟨p, ps, hp⟩ := List.exists_cons_of_ne_nil (cut_ne_nil (List.cons_ne_nil y ys))
        rw [hp] at ih ⊢
        have hhead : ((y :: ys).flatMap (shown octet)).head? ≠ some '.' := h.head_shown y _
        rw [DomainSet.labels_append_left hdot hhead ih]
        simp [pieceText, hstop]

/-- The parts of a name's text are the pieces of its labels. -/
theorem Dotted.labels_name (h : Dotted octet) (labels : List Bytes) :
    DomainSet.labels (['.'].intercalate (labels.map fun l => lowercase (printLabel octet l))) =
      (pieces labels).map (pieceText octet) := by
  induction labels with
  | nil => exact DomainSet.labels_nil
  | cons label labels ih =>
    have hlabel : DomainSet.labels (lowercase (printLabel octet label)) =
        (cut (flagged label)).map (pieceText octet) := by
      rw [← h.labels_shown, printLabel, lowercase, List.map_flatMap]
      rfl
    have hpieces : pieces (label :: labels) = cut (flagged label) ++ pieces labels :=
      List.flatMap_cons
    rw [List.map_cons, hpieces, List.map_append, ← hlabel, ← ih]
    by_cases hnil : labels = []
    · subst hnil
      simp [DomainSet.labels_nil]
    · rw [List.intercalate_cons_of_ne_nil (by simpa using hnil), List.append_assoc,
        List.singleton_append, DomainSet.labels_append_dot]

theorem char_not_white (b : UInt8) (hlow : 32 < b) (hhigh : b < 127) :
    isWhitespace (char b) = false :=
  ((octet_texts b).2.2.1 hhigh).2 hlow

theorem alnum_range (b : UInt8) : isAlnum b = true → 32 < b ∧ b < 127 :=
  (octet_texts b).2.2.2

theorem octal_not_white (b : UInt8) : isWhitespace (octalDigit (b.toNat / 64)) = false ∧
    isWhitespace (octalDigit (b.toNat / 8)) = false ∧
    isWhitespace (octalDigit b.toNat) = false :=
  (octet_texts b).2.1

theorem Escaping.not_white_octet (h : Escaping octet) (first : Bool) (b : UInt8) :
    ∀ c ∈ octet first b, isWhitespace c = false := by
  have hslash : isWhitespace '\\' = false := by decide
  cases halnum : isAlnum b with
  | true =>
    obtain ⟨hlow, hhigh⟩ := alnum_range b halnum
    simpa [h.alnum first b halnum] using char_not_white b hlow hhigh
  | false =>
    have hs := h.other first b halnum
    generalize octet first b = t at hs
    cases hs with
    | plain hp => rcases hp with rfl | rfl | rfl <;> exact List.forall_mem_singleton.mpr (by decide)
    | quoted hq => simpa [hslash] using char_not_white b hq.1 hq.2
    | octal => simpa [hslash] using octal_not_white b

theorem Escaping.not_white_name (h : Escaping octet) (n : Name) :
    ∀ c ∈ printName octet n, isWhitespace c = false := by
  have hdot : isWhitespace '.' = false := by decide
  have hlabels : ∀ labels : List Bytes,
      ∀ c ∈ ['.'].intercalate (labels.map (printLabel octet)), isWhitespace c = false := by
    intro labels
    induction labels with
    | nil => simp
    | cons label labels ih =>
      have hlabel : ∀ c ∈ printLabel octet label, isWhitespace c = false := by
        intro c hc
        obtain ⟨x, -, hx⟩ := List.mem_flatMap.1 hc
        exact h.not_white_octet x.1 x.2 c hx
      by_cases hnil : labels = []
      · subst hnil
        simpa using hlabel
      · rw [List.map_cons, List.intercalate_cons_of_ne_nil (by simpa using hnil)]
        intro c hc
        simp only [List.mem_append, List.mem_singleton, or_assoc] at hc
        rcases hc with hc | rfl | hc
        · exact hlabel c hc
        · exact hdot
        · exact ih c hc
  intro c hc
  rw [printName, List.mem_append] at hc
  rcases hc with hc | hc
  · exact hlabels _ c hc
  · split_ifs at hc
    · rw [List.mem_singleton.1 hc]
      exact hdot
    · cases hc

/-- What a domain set compares of a printed name: the pieces of its labels. -/
theorem Dotted.labels_normalize (h : Dotted octet) (n : Name) :
    DomainSet.labels (DomainSet.normalizeDomain (printName octet n)) =
      (pieces n.labels).map (pieceText octet) := by
  have hfinal : DomainSet.labels (printName octet n) =
      DomainSet.labels (['.'].intercalate (n.labels.map (printLabel octet))) := by
    rw [printName]
    cases n.fqdn
    · simp
    · exact (DomainSet.labels_append_dot _ []).trans (by rw [DomainSet.labels_nil, List.append_nil])
  rw [DomainSet.normalizeDomain, trim_of_not_white (h.not_white_name n),
    DomainSet.labels_lowercase, DomainSet.labels_trimStart, DomainSet.labels_trimDots, hfinal,
    ← DomainSet.labels_lowercase, lowercase_intercalate, List.map_map]
  exact h.labels_name n.labels

/-! ### Pieces and labels -/

/-- A piece ends with its first dot, and a label begins at most with its first octet. -/
structure IsPiece (p : List (Bool × UInt8)) : Prop where
  ne_nil : p ≠ []
  inner : ∀ x ∈ p.dropLast, x.2 ≠ 46
  flags : ∀ x ∈ p.tail, x.1 = false

theorem flatten_cut (xs : List (Bool × UInt8)) : (cut xs).flatten = xs := by
  induction xs with
  | nil => rfl
  | cons x xs ih =>
    rw [cut]
    split_ifs
    · simp [ih]
    · split
      next hnil =>
        rw [hnil] at ih
        simp [← ih]
      next p ps hp =>
        rw [hp] at ih
        simp [← ih]

theorem isPiece_of_mem_cut {xs : List (Bool × UInt8)} (h : ∀ x ∈ xs.tail, x.1 = false) :
    ∀ p ∈ cut xs, IsPiece p := by
  induction xs with
  | nil => simp [cut]
  | cons x xs ih =>
    have hxs : ∀ y ∈ xs, y.1 = false := h
    have hpieces := ih fun y hy => hxs y (List.mem_of_mem_tail hy)
    have hone : IsPiece [x] := ⟨by simp, by simp, by simp⟩
    rw [cut]
    split_ifs with hx
    · exact List.forall_mem_cons.2 ⟨hone, hpieces⟩
    · split
      next => exact List.forall_mem_cons.2 ⟨hone, by simp⟩
      next p ps hp =>
        rw [hp, List.forall_mem_cons] at hpieces
        refine List.forall_mem_cons.2 ⟨⟨by simp, ?_, fun y hy => hxs y ?_⟩, hpieces.2⟩
        · rw [List.dropLast_cons_of_ne_nil hpieces.1.ne_nil]
          exact List.forall_mem_cons.2 ⟨hx, hpieces.1.inner⟩
        · rw [← flatten_cut xs, hp]
          exact List.mem_append_left _ hy

theorem isPiece_of_mem_pieces {labels : List Bytes} : ∀ p ∈ pieces labels, IsPiece p := by
  intro p hp
  obtain ⟨label, -, hp⟩ := List.mem_flatMap.1 hp
  refine isPiece_of_mem_cut (fun x hx => ?_) p hp
  cases label with
  | nil => cases hx
  | cons b rest =>
    obtain ⟨c, -, rfl⟩ := List.mem_map.1 hx
    rfl

theorem flatten_pieces (labels : List Bytes) : (pieces labels).flatten = labels.flatMap flagged := by
  induction labels with
  | nil => rfl
  | cons label labels ih =>
    rw [pieces, List.flatMap_cons, List.flatten_append, flatten_cut, List.flatMap_cons, ← ih]
    rfl

/-- A piece is read back from its text. -/
theorem Escaping.read_pieceText (h : Escaping octet) {p : List (Bool × UInt8)} (hne : p ≠ [])
    (hp : ∀ x ∈ p.dropLast, x.2 ≠ 46) :
    read (pieceText octet p) = p.map fun x => some (lowerOctet x.2) := by
  induction p with
  | nil => exact absurd rfl hne
  | cons x p ih =>
    cases p with
    | nil =>
      obtain ⟨first, b⟩ := x
      by_cases hb : b = 46
      · subst hb
        rfl
      · have hread := h.read_octet first b []
        rw [show read [] = [] from rfl] at hread
        simpa [pieceText, stop, hb, shown] using hread
    | cons y p =>
      rw [List.dropLast_cons_of_ne_nil (by simp), List.forall_mem_cons] at hp
      have htext : pieceText octet (x :: y :: p) = shown octet x ++ pieceText octet (y :: p) := by
        rw [pieceText, List.flatMap_cons, stop, if_neg hp.1]
        rfl
      rw [htext, shown, h.read_octet, ih (by simp) hp.2]
      rfl

/-- An octet in lower case. -/
def low (x : Bool × UInt8) : Bool × UInt8 := (x.1, lowerOctet x.2)

/-- Text and beginning determine a piece. -/
theorem Escaping.piece_inj (h : Escaping octet) {p p' : List (Bool × UInt8)} (hp : IsPiece p)
    (hp' : IsPiece p') (htext : pieceText octet p = pieceText octet p')
    (hbegins : begins p = begins p') : p.map low = p'.map low := by
  have hread := congrArg read htext
  rw [h.read_pieceText hp.ne_nil hp.inner, h.read_pieceText hp'.ne_nil hp'.inner] at hread
  have hflags {xs : List (Bool × UInt8)} (hxs : ∀ x ∈ xs, x.1 = false) :
      xs.map low = (xs.map fun x => some (lowerOctet x.2)).map fun o => (false, o.getD 0) := by
    rw [List.map_map]
    refine List.map_congr_left fun x hx => ?_
    simp [low, hxs x hx]
  obtain ⟨x, xs, rfl⟩ := List.exists_cons_of_ne_nil hp.ne_nil
  obtain ⟨y, ys, rfl⟩ := List.exists_cons_of_ne_nil hp'.ne_nil
  rw [List.map_cons, List.map_cons, List.cons.injEq, Option.some.injEq] at hread
  have hxy : low x = low y := Prod.ext hbegins hread.1
  have hxs : ∀ x ∈ xs, x.1 = false := hp.flags
  have hys : ∀ y ∈ ys, y.1 = false := hp'.flags
  rw [List.map_cons, List.map_cons, hxy, hflags hxs, hflags hys, hread.2]

theorem Escaping.pieces_inj (h : Escaping octet) {v w : List (List (Bool × UInt8))}
    (hv : ∀ p ∈ v, IsPiece p) (hw : ∀ p ∈ w, IsPiece p)
    (htext : v.map (pieceText octet) = w.map (pieceText octet))
    (hbegins : v.map begins = w.map begins) : v.map (List.map low) = w.map (List.map low) := by
  induction v generalizing w with
  | nil =>
    obtain rfl := List.map_eq_nil_iff.1 htext.symm
    rfl
  | cons p v ih =>
    cases w with
    | nil => cases htext
    | cons p' w =>
      rw [List.map_cons, List.map_cons, List.cons.injEq] at htext hbegins
      rw [List.forall_mem_cons] at hv hw
      rw [List.map_cons, List.map_cons, h.piece_inj hv.1 hw.1 htext.1 hbegins.1,
        ih hv.2 hw.2 htext.2 hbegins.2]

/-- The labels that some flagged octets are of, with the octets before the first label. -/
def gather : List (Bool × UInt8) → Bytes × List Bytes
  | [] => ([], [])
  | x :: xs => if x.1 then ([], (x.2 :: (gather xs).1) :: (gather xs).2)
      else (x.2 :: (gather xs).1, (gather xs).2)

theorem gather_append (u xs : List (Bool × UInt8)) : (gather xs).2 <:+ (gather (u ++ xs)).2 := by
  induction u with
  | nil => exact List.suffix_rfl
  | cons x u ih =>
    rw [List.cons_append, gather]
    split_ifs
    · exact ih.trans (List.suffix_cons _ _)
    · exact ih

theorem gather_flagged {label : Bytes} (hne : label ≠ []) {xs : List (Bool × UInt8)}
    (hxs : (gather xs).1 = []) :
    gather (flagged label ++ xs) = ([], label :: (gather xs).2) := by
  have htail (rest : Bytes) : gather (rest.map (false, ·) ++ xs) = (rest, (gather xs).2) := by
    induction rest with
    | nil => exact Prod.ext hxs rfl
    | cons b rest ih =>
      rw [List.map_cons, List.cons_append, gather, ih]
      rfl
  obtain ⟨b, rest, rfl⟩ := List.exists_cons_of_ne_nil hne
  rw [flagged, List.cons_append, gather, htail]
  rfl

theorem gather_labels {labels : List Bytes} (hne : ∀ label ∈ labels, label ≠ []) :
    gather (labels.flatMap flagged) = ([], labels) := by
  induction labels with
  | nil => rfl
  | cons label labels ih =>
    rw [List.forall_mem_cons] at hne
    have htail := ih hne.2
    rw [List.flatMap_cons, gather_flagged hne.1 (by rw [htail]), htail]

/-- Labels that end others octet by octet, beginnings included, end them. -/
theorem suffix_of_flagged {a b : List Bytes} (ha : ∀ label ∈ a, label ≠ [])
    (hb : ∀ label ∈ b, label ≠ []) {u : List (Bool × UInt8)}
    (h : a.flatMap flagged = u ++ b.flatMap flagged) : b <:+ a := by
  have hsuffix := gather_append u (b.flatMap flagged)
  rwa [← h, gather_labels ha, gather_labels hb] at hsuffix

/-! ### Letters in either case -/

theorem lower_eq_dot : ∀ b, lowerOctet b = 46 ↔ b = 46 := by
  apply forall_octet
  decide +kernel

theorem flagged_lower (label : Bytes) :
    flagged (label.map lowerOctet) = (flagged label).map low := by
  cases label with
  | nil => rfl
  | cons b rest => simp [flagged, low]

theorem cut_low (xs : List (Bool × UInt8)) : cut (xs.map low) = (cut xs).map (List.map low) := by
  induction xs with
  | nil => rfl
  | cons x xs ih =>
    have hdot : (low x).2 = 46 ↔ x.2 = 46 := lower_eq_dot x.2
    rw [List.map_cons, cut, cut, ih]
    by_cases hx : x.2 = 46
    · rw [if_pos (hdot.2 hx), if_pos hx]
      rfl
    · rw [if_neg (mt hdot.1 hx), if_neg hx]
      cases cut xs <;> rfl

theorem pieces_lower (labels : List Bytes) :
    pieces (labels.map (List.map lowerOctet)) = (pieces labels).map (List.map low) := by
  rw [pieces, pieces, List.flatMap_map, List.map_flatMap]
  congr 1
  funext label
  rw [flagged_lower, cut_low]

theorem Escaping.pieceText_low (h : Escaping octet) (p : List (Bool × UInt8)) :
    pieceText octet (p.map low) = pieceText octet p := by
  have hstop : ∀ x, stop octet (low x) = stop octet x := by
    intro x
    simp only [stop, low, lower_eq_dot, shown, h.lowercase_octet]
  simp only [pieceText, List.flatMap_map, hstop]

theorem begins_low (p : List (Bool × UInt8)) : begins (p.map low) = begins p := by
  cases p <;> rfl

/-- The labels that end a name, letter case apart, are those whose pieces end its pieces, in text and
in where labels begin. -/
theorem Escaping.suffix_iff_pieces (h : Escaping octet) (q r : Name) :
    r.lower.labels <:+ q.lower.labels ↔ ∃ v, v <:+ pieces q.labels ∧
      v.map (pieceText octet) = (pieces r.labels).map (pieceText octet) ∧
        v.map begins = (pieces r.labels).map begins := by
  constructor
  · rintro ⟨u, hu⟩
    obtain ⟨a, b, hq, -, hb⟩ := List.map_eq_append_iff.1 hu.symm
    have hpieces : (pieces b).map (List.map low) = (pieces r.labels).map (List.map low) := by
      rw [← pieces_lower, hb, ← pieces_lower]
      rfl
    have htext : (pieceText octet) ∘ List.map low = pieceText octet := funext h.pieceText_low
    have hbegins : begins ∘ List.map low = begins := funext begins_low
    refine ⟨pieces b, ?_, ?_, ?_⟩
    · rw [hq]
      exact ⟨pieces a, List.flatMap_append.symm⟩
    · have hmap := congrArg (List.map (pieceText octet)) hpieces
      rwa [List.map_map, List.map_map, htext] at hmap
    · have hmap := congrArg (List.map begins) hpieces
      rwa [List.map_map, List.map_map, hbegins] at hmap
  · rintro ⟨v, ⟨u, hu⟩, htext, hbegins⟩
    have hlow := h.pieces_inj (fun p hp => isPiece_of_mem_pieces p (hu ▸ List.mem_append_right u hp))
      isPiece_of_mem_pieces htext hbegins
    have hoctets : q.lower.labels.flatMap flagged =
        (u.map (List.map low)).flatten ++ r.lower.labels.flatMap flagged := by
      rw [← flatten_pieces, ← flatten_pieces, ← List.flatten_append, Name.lower, Name.lower,
        pieces_lower, pieces_lower, ← hu, List.map_append, hlow]
    exact suffix_of_flagged q.lower.nonempty r.lower.nonempty hoctets

/-! ### Text after a dot -/

/-- The octets of labels, with `none` between labels. -/
def tokens (labels : List Bytes) : List (Option (Bool × UInt8)) :=
  [none].intercalate (labels.map fun label => (flagged label).map some)

variable (octet) in
def tokenText : Option (Bool × UInt8) → Text
  | none => ['.']
  | some x => shown octet x

variable (octet) in
/-- The text of some octets, a dot at its end left out. -/
def spell : List (Option (Bool × UInt8)) → Text
  | [] => []
  | t :: ts =>
    if ts = [] then
      match t with
      | none => []
      | some x => stop octet x
    else tokenText octet t ++ spell ts

theorem spell_singleton (x : Bool × UInt8) : spell octet [some x] = stop octet x := rfl

theorem spell_cons (t : Option (Bool × UInt8)) {ts : List (Option (Bool × UInt8))} (h : ts ≠ []) :
    spell octet (t :: ts) = tokenText octet t ++ spell octet ts := by
  rw [spell.eq_def]
  exact if_neg h

/-- The octets do not end between two labels. -/
def Closed (ts : List (Option (Bool × UInt8))) : Prop := ts.getLast? ≠ some none

theorem Closed.tail {t : Option (Bool × UInt8)} {ts : List (Option (Bool × UInt8))}
    (h : Closed (t :: ts)) (hne : ts ≠ []) : Closed ts := by
  rwa [Closed, List.getLast?_cons_of_ne_nil hne] at h

theorem Closed.of_append {a b : List (Option (Bool × UInt8))} (h : Closed (a ++ b)) (hb : b ≠ []) :
    Closed b := by
  induction a with
  | nil => exact h
  | cons t a ih => exact ih (Closed.tail h (by simp [hb]))

theorem tokens_cons {label : Bytes} {labels : List Bytes} (h : labels ≠ []) :
    tokens (label :: labels) = (flagged label).map some ++ none :: tokens labels := by
  rw [tokens, List.map_cons, List.intercalate_cons_of_ne_nil (by simpa using h),
    List.append_assoc]
  rfl

theorem tokens_ne_nil {labels : List Bytes} (h : labels ≠ []) (hne : ∀ label ∈ labels, label ≠ []) :
    tokens labels ≠ [] := by
  cases labels with
  | nil => exact absurd rfl h
  | cons label labels =>
    by_cases hnil : labels = []
    · subst hnil
      simpa [tokens] using flagged_ne_nil (hne label (by simp))
    · simp [tokens_cons hnil]

theorem closed_tokens {labels : List Bytes} (hne : ∀ label ∈ labels, label ≠ []) :
    Closed (tokens labels) := by
  induction labels with
  | nil => simp [Closed, tokens]
  | cons label labels ih =>
    rw [List.forall_mem_cons] at hne
    by_cases hnil : labels = []
    · subst hnil
      intro hlast
      have hmem := List.mem_of_getLast? hlast
      simp [tokens] at hmem
    · have hcons : none :: tokens labels ≠ [] := by simp
      rw [tokens_cons hnil, Closed, List.getLast?_append_of_ne_nil _ hcons,
        List.getLast?_cons_of_ne_nil (tokens_ne_nil hnil hne.2)]
      exact ih hne.2

theorem Dotted.trimDots_shown (h : Dotted octet) (x : Bool × UInt8) :
    trimDots (shown octet x) = stop octet x ∧ stop octet x ≠ [] := by
  obtain ⟨first, b⟩ := x
  by_cases hb : b = 46
  · subst hb
    rw [h.shown_dot]
    have htrim : trimDots ['\\', '.'] = ['\\'] := by decide
    exact ⟨htrim, by simp [stop]⟩
  · have hdot := h.dot_notMem_shown (x := (first, b)) hb
    have hne := h.shown_ne_nil (first, b)
    rw [stop, if_neg hb]
    refine ⟨List.rdropWhile_eq_self_iff.2 fun hl => ?_, hne⟩
    have hlast : (shown octet (first, b)).getLast hl ≠ '.' := fun he =>
      hdot (he ▸ List.getLast_mem hl)
    simpa using hlast

/-- Without final dots the text of octets is theirs with the last dot left out. -/
theorem Dotted.trimDots_tokens (h : Dotted octet) {ts : List (Option (Bool × UInt8))} (hne : ts ≠ [])
    (hts : Closed ts) :
    trimDots (ts.flatMap (tokenText octet)) = spell octet ts ∧ spell octet ts ≠ [] := by
  induction ts with
  | nil => exact absurd rfl hne
  | cons t ts ih =>
    by_cases hnil : ts = []
    · subst hnil
      cases t with
      | none => exact absurd rfl hts
      | some x => simpa [spell, tokenText] using h.trimDots_shown x
    · obtain ⟨htrim, htail⟩ := ih hnil (hts.tail hnil)
      have hne : trimDots (ts.flatMap (tokenText octet)) ≠ [] := htrim ▸ htail
      rw [List.flatMap_cons, trimDots_append _ hne, spell_cons t hnil, htrim]
      exact ⟨rfl, by simp [htail]⟩

theorem text_tokens (labels : List Bytes) :
    lowercase (['.'].intercalate (labels.map (printLabel octet))) =
      (tokens labels).flatMap (tokenText octet) := by
  have hlabel (label : Bytes) : lowercase (printLabel octet label) =
      ((flagged label).map some).flatMap (tokenText octet) := by
    rw [printLabel, lowercase, List.map_flatMap, List.flatMap_map]
    rfl
  induction labels with
  | nil => rfl
  | cons label labels ih =>
    by_cases hnil : labels = []
    · subst hnil
      simpa [tokens] using hlabel label
    · have hdot : '.'.toLower = '.' := by decide
      rw [List.map_cons, List.intercalate_cons_of_ne_nil (by simpa using hnil), tokens_cons hnil,
        List.flatMap_append, List.flatMap_cons, ← ih, ← hlabel]
      simp [lowercase, tokenText, hdot]

/-- The text a redirect compares. -/
theorem Dotted.spell_name (h : Dotted octet) (n : Name) :
    lowercase (trimDots (printName octet n)) = spell octet (tokens n.labels) := by
  have hfinal : ∀ c ∈ (if n.fqdn then ['.'] else []), c = '.' := by
    cases n.fqdn <;> simp
  rw [printName, trimDots_append_dots _ hfinal, lowercase_trimDots, text_tokens]
  by_cases hnil : n.labels = []
  · rw [hnil]
    rfl
  · exact (h.trimDots_tokens (tokens_ne_nil hnil n.nonempty) (closed_tokens n.nonempty)).1

/-- An octet in lower case, or the end of a label. -/
def value : Option (Bool × UInt8) → Option UInt8 := Option.map fun x => lowerOctet x.2

theorem Dotted.read_spell (h : Dotted octet) {ts : List (Option (Bool × UInt8))} (hts : Closed ts) :
    read (spell octet ts) = ts.map value := by
  induction ts with
  | nil => rfl
  | cons t ts ih =>
    by_cases hnil : ts = []
    · subst hnil
      cases t with
      | none => exact absurd rfl hts
      | some x =>
        have hpiece := h.read_pieceText (p := [x]) (by simp) (by simp)
        rw [pieceText, List.flatMap_singleton] at hpiece
        exact hpiece
    · rw [spell_cons t hnil, List.map_cons, ← ih (hts.tail hnil)]
      cases t with
      | none => exact read_dot _
      | some x => exact h.read_octet x.1 x.2 _

/-- A dot ends the text it is in. -/
theorem Dotted.tokenText_eq_append (h : Dotted octet) {y : Option (Bool × UInt8)} {u s : Text}
    (heq : tokenText octet y = u ++ '.' :: s) :
    s = [] ∧ (y = none ∨ ∃ first, y = some (first, 46)) := by
  cases y with
  | none =>
    refine ⟨?_, .inl rfl⟩
    have hlen := congrArg List.length heq
    simp [tokenText] at hlen
    exact List.eq_nil_of_length_eq_zero (by omega)
  | some x =>
    obtain ⟨first, b⟩ := x
    by_cases hb : b = 46
    · subst hb
      refine ⟨?_, .inr ⟨first, rfl⟩⟩
      rw [tokenText, h.shown_dot] at heq
      cases u with
      | nil => simp at heq
      | cons c u =>
        have hlen := congrArg List.length heq
        simp at hlen
        exact List.eq_nil_of_length_eq_zero (by omega)
    · have hdot := h.dot_notMem_shown (x := (first, b)) hb
      rw [tokenText] at heq
      rw [heq] at hdot
      simp at hdot

/-- What stands behind a dot in the text is the text of what follows a dot of the name, be it one
between labels or one in a label. -/
theorem Dotted.spell_eq_append (h : Dotted octet) {ts : List (Option (Bool × UInt8))} {u t : Text}
    (heq : spell octet ts = u ++ '.' :: t) : ∃ a x b, ts = a ++ x :: b ∧ b ≠ [] ∧
      t = spell octet b ∧ (x = none ∨ ∃ first, x = some (first, 46)) := by
  induction ts generalizing u with
  | nil => simp [spell] at heq
  | cons y ts ih =>
    by_cases hnil : ts = []
    · subst hnil
      cases y with
      | none => simp [spell] at heq
      | some x =>
        have hdot : '.' ∉ stop octet x := by
          by_cases hx : x.2 = 46
          · simp [stop, hx]
          · rw [stop, if_neg hx]
            exact h.dot_notMem_shown hx
        rw [spell_singleton] at heq
        rw [heq] at hdot
        simp at hdot
    · have found {v : Text} (hv : spell octet ts = v ++ '.' :: t) := ih hv
      rw [spell_cons y hnil] at heq
      rcases List.append_eq_append_iff.1 heq with ⟨s, -, hs⟩ | ⟨s, hs, hu⟩
      · obtain ⟨a, x, b, rfl, hb, ht, hx⟩ := found hs
        exact ⟨y :: a, x, b, rfl, hb, ht, hx⟩
      · cases s with
        | nil =>
          obtain ⟨a, x, b, rfl, hb, ht, hx⟩ := found (v := []) hu.symm
          exact ⟨y :: a, x, b, rfl, hb, ht, hx⟩
        | cons c s =>
          rw [List.cons_append, List.cons.injEq] at hu
          obtain ⟨rfl, rfl⟩ := hu
          obtain ⟨rfl, hy⟩ := h.tokenText_eq_append hs
          exact ⟨[], y, ts, rfl, hnil, rfl, hy⟩

/-- Every dot of a name stands in its text before the text of what follows. -/
theorem Dotted.suffix_spell (h : Dotted octet) {a b : List (Option (Bool × UInt8))}
    {x : Option (Bool × UInt8)} (hx : x = none ∨ ∃ first, x = some (first, 46)) (hb : b ≠ []) :
    '.' :: spell octet b <:+ spell octet (a ++ x :: b) := by
  induction a with
  | nil =>
    rw [List.nil_append, spell_cons x hb]
    rcases hx with rfl | ⟨first, rfl⟩
    · exact List.suffix_rfl
    · rw [tokenText, h.shown_dot]
      exact ⟨['\\'], rfl⟩
  | cons y a ih =>
    rw [List.cons_append, spell_cons y (by simp)]
    exact ih.trans (List.suffix_append _ _)

end Escape

end FerrumDns
