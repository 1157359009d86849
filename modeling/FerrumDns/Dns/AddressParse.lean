import FerrumDns.Dns.Address
import FerrumDns.Text.Digits

/-! Reading addresses as the standard library does: each reader takes the beginning of a
text and leaves the rest. What it takes is made of digits, dots and colons, and a character
that no address holds ends it like the end of the text. -/

namespace FerrumDns

open Text

namespace AddressParse

/-! ### Readers -/

/-- `char::to_digit`, if it is a digit of the radix. -/
def toDigit (radix : ℕ) (c : Char) : Option ℕ :=
  let d :=
    if '0' ≤ c ∧ c ≤ '9' then c.toNat - 48
    else if 'a' ≤ c ∧ c ≤ 'z' then c.toNat - 87
    else if 'A' ≤ c ∧ c ≤ 'Z' then c.toNat - 55
    else radix
  if d < radix then some d else none

def isDigitOf (radix : ℕ) (c : Char) : Bool := (toDigit radix c).isSome

/-- The number below the bound that the digits at the beginning stand for, if there are no more than
so many. -/
def readNumber (bound radix : ℕ) (maxDigits : Option ℕ) (allowZeroPrefix : Bool) (t : Text) :
    Option (ℕ × Text) :=
  let digits := t.takeWhile (isDigitOf radix)
  let n := digits.foldl (fun n c => radix * n + (toDigit radix c).getD 0) 0
  if digits = [] then none
  else if maxDigits.any (· < digits.length) then none
  else if !allowZeroPrefix && digits.head? = some '0' && 1 < digits.length then none
  else if n < bound then some (n, t.dropWhile (isDigitOf radix))
  else none

def readGivenChar (c : Char) : Text → Option Text
  | [] => none
  | d :: t => if d = c then some t else none

/-- After a separator, except for the first of several. -/
def readSeparator {α : Type} (sep : Char) (index : ℕ) (inner : Text → Option (α × Text)) (t : Text) :
    Option (α × Text) :=
  if index = 0 then inner t else (readGivenChar sep t).bind inner

def readOctet (index : ℕ) (t : Text) : Option (ℕ × Text) :=
  readSeparator '.' index (readNumber 256 10 (some 3) false) t

def readIpv4Addr (t : Text) : Option (Ipv4Addr × Text) := do
  let (a, t) ← readOctet 0 t
  let (b, t) ← readOctet 1 t
  let (c, t) ← readOctet 2 t
  let (d, t) ← readOctet 3 t
  some (.ofOctets a b c d, t)

/-- Up to so many more groups from position `i` on, and whether an IPv4 address ended them. -/
def readGroups (i : ℕ) : ℕ → Text → List ℕ × Bool × Text
  | 0, t => ([], false, t)
  | left + 1, t =>
    match if left = 0 then none else readSeparator ':' i readIpv4Addr t with
    | some (v4, t) =>
      ([v4.octet 0 * 256 + v4.octet 1, v4.octet 2 * 256 + v4.octet 3], true, t)
    | none =>
      match readSeparator ':' i (readNumber 65536 16 (some 4) true) t with
      | some (g, t) =>
        let (gs, v4, t) := readGroups (i + 1) left t
        (g :: gs, v4, t)
      | none => ([], false, t)

/-- The address with these segments. -/
def ofSegments (segments : List ℕ) : Ipv6Addr :=
  BitVec.ofNat 128 (segments.foldl (fun n s => n * 65536 + s) 0)

def readIpv6Addr (t : Text) : Option (Ipv6Addr × Text) :=
  let (head, headIpv4, t) := readGroups 0 8 t
  if head.length = 8 then some (ofSegments head, t)
  else if headIpv4 then none
  else do
    let t ← readGivenChar ':' t
    let t ← readGivenChar ':' t
    let (tail, _, t) := readGroups 0 (8 - (head.length + 1)) t
    some (ofSegments (head ++ List.replicate (8 - head.length - tail.length) 0 ++ tail), t)

def readIpAddr (t : Text) : Option (IpAddr × Text) :=
  match readIpv4Addr t with
  | some (a, t) => some (.v4 a, t)
  | none => (readIpv6Addr t).map fun (a, t) => (.v6 a, t)

def readPort (t : Text) : Option (ℕ × Text) :=
  (readGivenChar ':' t).bind (readNumber 65536 10 none true)

def readScopeId (t : Text) : Option (ℕ × Text) :=
  (readGivenChar '%' t).bind (readNumber 4294967296 10 none true)

/-- An address with its port. The scope of an IPv6 address is read but not kept. -/
def readSocketAddr (t : Text) : Option ((IpAddr × ℕ) × Text) :=
  let v4 := do
    let (a, t) ← readIpv4Addr t
    let (port, t) ← readPort t
    some ((IpAddr.v4 a, port), t)
  match v4 with
  | some r => some r
  | none => do
    let t ← readGivenChar '[' t
    let (a, t) ← readIpv6Addr t
    let t := ((readScopeId t).map Prod.snd).getD t
    let t ← readGivenChar ']' t
    let (port, t) ← readPort t
    some ((IpAddr.v6 a, port), t)

/-- Nothing may be left. -/
def parseWith {α : Type} (inner : Text → Option (α × Text)) (t : Text) : Option α :=
  match inner t with
  | some (a, []) => some a
  | _ => none

def parseIpv6 (t : Text) : Option Ipv6Addr := parseWith readIpv6Addr t

def parseIp (t : Text) : Option IpAddr := parseWith readIpAddr t

def parseSocket (t : Text) : Option (IpAddr × ℕ) := parseWith readSocketAddr t

example : parseIp "2001:db8::1".toList = some (.v6 0x20010db8000000000000000000000001) := by
  decide +kernel

/-! ### What readers take -/

/-- A reader takes these characters only, and any other one ends it like the end of the text. -/
structure Regular {α : Type} (ok : Char → Prop) (r : Text → Option (α × Text)) : Prop where
  takes : ∀ {t a rest}, r t = some (a, rest) → ∃ used, t = used ++ rest ∧ ∀ c ∈ used, ok c
  stops : ∀ t {c} s, ¬ ok c → r (t ++ c :: s) = (r t).map fun x => (x.1, x.2 ++ c :: s)

namespace Regular

variable {α β : Type} {ok ok' : Char → Prop} {r : Text → Option (α × Text)}

theorem mono (h : ∀ c, ok c → ok' c) (hr : Regular ok r) : Regular ok' r where
  takes ht := by
    obtain ⟨used, hu, hok⟩ := hr.takes ht
    exact ⟨used, hu, fun c hc => h c (hok c hc)⟩
  stops t c s hc := hr.stops t s (mt (h c) hc)

theorem pure (a : α) : Regular ok fun t => some (a, t) where
  takes ht := by
    cases ht
    exact ⟨[], rfl, by simp⟩
  stops _ _ _ _ := rfl

theorem bind {f : α → Text → Option (β × Text)} (hr : Regular ok r) (hf : ∀ a, Regular ok (f a)) :
    Regular ok fun t => (r t).bind fun x => f x.1 x.2 where
  takes ht := by
    obtain ⟨⟨a, mid⟩, ha, hb⟩ := Option.bind_eq_some_iff.1 ht
    obtain ⟨u, rfl, hu⟩ := hr.takes ha
    obtain ⟨v, rfl, hv⟩ := (hf a).takes hb
    refine ⟨u ++ v, (List.append_assoc u v _).symm, fun c hc => ?_⟩
    rcases List.mem_append.1 hc with hc | hc
    · exact hu c hc
    · exact hv c hc
  stops t c s hc := by
    rw [hr.stops t s hc]
    cases r t with
    | none => rfl
    | some x => exact (hf x.1).stops x.2 s hc

end Regular

theorem takeWhile_append_stop {p : Char → Bool} {c : Char} (hc : ¬ p c = true) (t s : Text) :
    (t ++ c :: s).takeWhile p = t.takeWhile p := by
  induction t with
  | nil => simp [hc]
  | cons d t ih =>
    by_cases hd : p d = true
    · simp [hd, ih]
    · simp [hd]

theorem dropWhile_append_stop {p : Char → Bool} {c : Char} (hc : ¬ p c = true) (t s : Text) :
    (t ++ c :: s).dropWhile p = t.dropWhile p ++ c :: s := by
  induction t with
  | nil => simp [hc]
  | cons d t ih =>
    by_cases hd : p d = true
    · simp [hd, ih]
    · simp [hd]

theorem regular_readNumber (bound radix : ℕ) (maxDigits : Option ℕ) (zero : Bool) :
    Regular (isDigitOf radix · = true) (readNumber bound radix maxDigits zero) where
  takes {t a rest} ht := by
    simp only [readNumber] at ht
    split_ifs at ht
    cases ht
    exact ⟨_, (List.takeWhile_append_dropWhile).symm, fun c hc => List.mem_takeWhile_imp hc⟩
  stops t c s hc := by
    simp only [readNumber, takeWhile_append_stop hc, dropWhile_append_stop hc]
    split_ifs <;> rfl

theorem readGivenChar_eq_some {c : Char} {t rest : Text} :
    readGivenChar c t = some rest ↔ t = c :: rest := by
  cases t with
  | nil => simp [readGivenChar]
  | cons d t => simp [readGivenChar]

theorem readGivenChar_stops {c d : Char} (hd : d ≠ c) (t s : Text) :
    readGivenChar c (t ++ d :: s) = (readGivenChar c t).map (· ++ d :: s) := by
  cases t with
  | nil => simp [readGivenChar, hd]
  | cons e t =>
    simp only [List.cons_append, readGivenChar]
    split_ifs <;> rfl

theorem regular_readSeparator {α : Type} {ok : Char → Prop} {sep : Char} (hsep : ok sep)
    (index : ℕ) {inner : Text → Option (α × Text)} (hr : Regular ok inner) :
    Regular ok (readSeparator sep index inner) where
  takes {t a rest} ht := by
    rw [readSeparator] at ht
    split_ifs at ht
    · exact hr.takes ht
    · obtain ⟨mid, hm, ha⟩ := Option.bind_eq_some_iff.1 ht
      obtain rfl := readGivenChar_eq_some.1 hm
      obtain ⟨used, rfl, hok⟩ := hr.takes ha
      exact ⟨sep :: used, rfl, List.forall_mem_cons.2 ⟨hsep, hok⟩⟩
  stops t c s hc := by
    rw [readSeparator, readSeparator]
    split_ifs
    · exact hr.stops t s hc
    · have hne : c ≠ sep := by
        rintro rfl
        exact hc hsep
      rw [readGivenChar_stops hne]
      cases readGivenChar sep t with
      | none => rfl
      | some mid => exact hr.stops mid s hc

/-- The characters of an IPv4 address. -/
def IsV4Char (c : Char) : Prop := isDigitOf 10 c = true ∨ c = '.'

/-- The characters of an IPv6 address. -/
def IsV6Char (c : Char) : Prop := isDigitOf 16 c = true ∨ c = '.' ∨ c = ':'

theorem regular_readIpv4Addr : Regular IsV4Char readIpv4Addr := by
  have hoctet (i : ℕ) : Regular IsV4Char (readOctet i) :=
    regular_readSeparator (.inr rfl) i ((regular_readNumber _ _ _ _).mono fun _ h => .inl h)
  exact (hoctet 0).bind fun _ => (hoctet 1).bind fun _ => (hoctet 2).bind fun _ =>
    (hoctet 3).bind fun _ => .pure _

theorem isDigitOf_mono {c : Char} (h : isDigitOf 10 c = true) : isDigitOf 16 c = true := by
  simp only [isDigitOf, toDigit] at h ⊢
  split_ifs at h ⊢ <;> simp_all <;> omega

theorem IsV4Char.isV6Char {c : Char} (h : IsV4Char c) : IsV6Char c := by
  rcases h with h | h
  · exact .inl (isDigitOf_mono h)
  · exact .inr (.inl h)

theorem colon_le_of_readSeparator {α : Type} {index : ℕ} {inner : Text → Option (α × Text)}
    (hr : Regular IsV6Char inner) {t rest : Text} {a : α}
    (h : readSeparator ':' index inner t = some (a, rest)) : ∃ used, t = used ++ rest ∧
      (∀ c ∈ used, IsV6Char c) ∧ 1 ≤ used.count ':' + if index = 0 then 1 else 0 := by
  rw [readSeparator] at h
  split_ifs at h with hi
  · obtain ⟨used, hu, hok⟩ := hr.takes h
    exact ⟨used, hu, hok, by simp [hi]⟩
  · obtain ⟨mid, hm, ha⟩ := Option.bind_eq_some_iff.1 h
    obtain rfl := readGivenChar_eq_some.1 hm
    obtain ⟨used, rfl, hok⟩ := hr.takes ha
    refine ⟨':' :: used, rfl, List.forall_mem_cons.2 ⟨.inr (.inr rfl), hok⟩, ?_⟩
    rw [List.count_cons_self]
    omega

theorem regular_group : Regular IsV6Char (readNumber 65536 16 (some 4) true) :=
  (regular_readNumber _ _ _ _).mono fun _ h => .inl h

theorem regular_embedded : Regular IsV6Char readIpv4Addr :=
  regular_readIpv4Addr.mono fun _ h => h.isV6Char

/-- Groups stand between colons, an embedded IPv4 address counting for two of them. -/
theorem readGroups_takes (i left : ℕ) (t : Text) : ∃ used, t = used ++ (readGroups i left t).2.2 ∧
    (∀ c ∈ used, IsV6Char c) ∧ (readGroups i left t).1.length ≤
      used.count ':' + (if i = 0 then 1 else 0) + (readGroups i left t).2.1.toNat := by
  induction left generalizing i t with
  | zero => exact ⟨[], rfl, by simp, by simp [readGroups]⟩
  | succ left ih =>
    cases hv4 : if left = 0 then none else readSeparator ':' i readIpv4Addr t with
    | some x =>
      obtain ⟨v4, rest⟩ := x
      rw [readGroups, hv4]
      split_ifs at hv4
      obtain ⟨used, hu, hok, hcount⟩ := colon_le_of_readSeparator regular_embedded hv4
      refine ⟨used, hu, hok, ?_⟩
      simp only [List.length_cons, List.length_nil, Bool.toNat_true]
      omega
    | none =>
      cases hg : readSeparator ':' i (readNumber 65536 16 (some 4) true) t with
      | none =>
        rw [readGroups, hv4, hg]
        exact ⟨[], rfl, by simp, by simp⟩
      | some x =>
        obtain ⟨g, mid⟩ := x
        have hstep : readGroups i (left + 1) t = (g :: (readGroups (i + 1) left mid).1,
            (readGroups (i + 1) left mid).2.1, (readGroups (i + 1) left mid).2.2) := by
          rw [readGroups, hv4, hg]
        rw [hstep]
        obtain ⟨used, rfl, hok, hcount⟩ := colon_le_of_readSeparator regular_group hg
        obtain ⟨used', hu', hok', hcount'⟩ := ih (i + 1) mid
        refine ⟨used ++ used', ?_, ?_, ?_⟩
        · rw [List.append_assoc, ← hu']
        · intro c hc
          rcases List.mem_append.1 hc with hc | hc
          · exact hok c hc
          · exact hok' c hc
        · simp only [List.length_cons, List.count_append, if_neg (Nat.succ_ne_zero i)] at hcount' ⊢
          omega

theorem readGroups_stops (i left : ℕ) (t : Text) {c : Char} (s : Text) (hc : ¬ IsV6Char c) :
    readGroups i left (t ++ c :: s) =
      ((readGroups i left t).1, (readGroups i left t).2.1, (readGroups i left t).2.2 ++ c :: s) := by
  induction left generalizing i t with
  | zero => rfl
  | succ left ih =>
    have hcolon : IsV6Char ':' := .inr (.inr rfl)
    rw [readGroups, readGroups, (regular_readSeparator hcolon i regular_embedded).stops t s hc,
      (regular_readSeparator hcolon i regular_group).stops t s hc]
    by_cases hleft : left = 0
    · simp only [if_pos hleft]
      cases readSeparator ':' i (readNumber 65536 16 (some 4) true) t with
      | none => rfl
      | some x => simp only [Option.map_some, ih]
    · simp only [if_neg hleft]
      cases readSeparator ':' i readIpv4Addr t with
      | some x => rfl
      | none =>
        cases readSeparator ':' i (readNumber 65536 16 (some 4) true) t with
        | none => rfl
        | some x => simp only [Option.map_some, Option.map_none, ih]

theorem readIpv6Addr_takes {t rest : Text} {a : Ipv6Addr} (h : readIpv6Addr t = some (a, rest)) :
    ∃ used, t = used ++ rest ∧ (∀ c ∈ used, IsV6Char c) ∧ 2 ≤ used.count ':' := by
  have hcolon : IsV6Char ':' := .inr (.inr rfl)
  obtain ⟨used, hu, hok, hcount⟩ := readGroups_takes 0 8 t
  simp only [readIpv6Addr] at h
  split_ifs at h with hfull hv4
  · cases h
    refine ⟨used, hu, hok, ?_⟩
    have hlast := Bool.toNat_le (readGroups 0 8 t).2.1
    rw [if_pos rfl] at hcount
    omega
  · obtain ⟨mid, hm, h⟩ := Option.bind_eq_some_iff.1 h
    obtain ⟨mid', hm', h⟩ := Option.bind_eq_some_iff.1 h
    obtain rfl := readGivenChar_eq_some.1 hm'
    rw [readGivenChar_eq_some.1 hm] at hu
    cases h
    obtain ⟨used', hu', hok', -⟩ := readGroups_takes 0 (8 - ((readGroups 0 8 t).1.length + 1)) mid'
    refine ⟨used ++ ':' :: ':' :: used', ?_, ?_, ?_⟩
    · refine hu.trans ?_
      rw [List.append_assoc, List.cons_append, List.cons_append, ← hu']
    · intro c hc
      simp only [List.mem_append, List.mem_cons] at hc
      rcases hc with hc | rfl | rfl | hc
      · exact hok c hc
      · exact hcolon
      · exact hcolon
      · exact hok' c hc
    · simp only [List.count_append, List.count_cons_self]
      omega

theorem regular_readIpv6Addr : Regular IsV6Char readIpv6Addr where
  takes h := by
    obtain ⟨used, hu, hok, -⟩ := readIpv6Addr_takes h
    exact ⟨used, hu, hok⟩
  stops t c s hc := by
    have hne : c ≠ ':' := by
      rintro rfl
      exact hc (.inr (.inr rfl))
    simp only [readIpv6Addr, readGroups_stops 0 8 t s hc]
    split_ifs
    · rfl
    · rfl
    · simp only [readGivenChar_stops hne]
      cases readGivenChar ':' (readGroups 0 8 t).2.2 with
      | none => rfl
      | some mid =>
        simp only [Option.map_some, Option.bind_eq_bind, Option.bind_some, readGivenChar_stops hne]
        cases readGivenChar ':' mid with
        | none => rfl
        | some mid' =>
          simp only [Option.map_some, Option.bind_some, readGroups_stops 0 _ mid' s hc]

/-! ### Whole texts -/

theorem parseWith_eq_some {α : Type} {r : Text → Option (α × Text)} {t : Text} {a : α} :
    parseWith r t = some a ↔ r t = some (a, []) := by
  rw [parseWith]
  rcases r t with _ | ⟨b, _ | ⟨c, rest⟩⟩ <;> simp

/-- The text is an IPv4 address. -/
def IsIpv4 (t : Text) (ip : Ipv4Addr) : Prop := readIpv4Addr t = some (ip, [])

/-- The text is an IPv6 address. -/
def IsIpv6 (t : Text) (ip : Ipv6Addr) : Prop := readIpv6Addr t = some (ip, [])

theorem IsIpv4.ok {t : Text} {ip : Ipv4Addr} (h : IsIpv4 t ip) : ∀ c ∈ t, IsV4Char c := by
  obtain ⟨used, hu, hok⟩ := regular_readIpv4Addr.takes h
  rwa [hu, List.append_nil]

theorem IsIpv6.ok {t : Text} {ip : Ipv6Addr} (h : IsIpv6 t ip) : ∀ c ∈ t, IsV6Char c := by
  obtain ⟨used, hu, hok⟩ := regular_readIpv6Addr.takes h
  rwa [hu, List.append_nil]

theorem IsIpv6.two_le_count {t : Text} {ip : Ipv6Addr} (h : IsIpv6 t ip) : 2 ≤ t.count ':' := by
  obtain ⟨used, hu, -, hcount⟩ := readIpv6Addr_takes h
  rwa [hu, List.append_nil]

/-- With fewer than two colons a text is no IPv6 address. -/
theorem parseIpv6_eq_none {t : Text} (h : t.count ':' < 2) : parseIpv6 t = none := by
  cases hp : parseIpv6 t with
  | none => rfl
  | some ip =>
    have hcount := IsIpv6.two_le_count (parseWith_eq_some.1 hp)
    omega

/-- An IPv4 address at the beginning of groups stands before no others. -/
theorem IsIpv6.readIpv4Addr_eq_none {t : Text} {ip : Ipv6Addr} (h : IsIpv6 t ip) :
    readIpv4Addr t = none := by
  cases hv4 : readIpv4Addr t with
  | none => rfl
  | some x =>
    have hgroups : readGroups 0 8 t = ([x.1.octet 0 * 256 + x.1.octet 1,
        x.1.octet 2 * 256 + x.1.octet 3], true, x.2) := by
      rw [readGroups, if_neg (by decide), readSeparator, if_pos rfl, hv4]
    rw [IsIpv6, readIpv6Addr, hgroups] at h
    simp at h

theorem IsIpv4.parseIp {t : Text} {ip : Ipv4Addr} (h : IsIpv4 t ip) : parseIp t = some (.v4 ip) := by
  rw [AddressParse.parseIp, parseWith_eq_some, readIpAddr, h]

theorem IsIpv6.parseIp {t : Text} {ip : Ipv6Addr} (h : IsIpv6 t ip) : parseIp t = some (.v6 ip) := by
  rw [AddressParse.parseIp, parseWith_eq_some, readIpAddr, h.readIpv4Addr_eq_none, h]
  rfl

theorem readNumber_of_stop {bound radix : ℕ} {maxDigits : Option ℕ} {zero : Bool} {c : Char}
    (hc : ¬ isDigitOf radix c = true) (t : Text) :
    readNumber bound radix maxDigits zero (c :: t) = none := by
  simp [readNumber, hc]

theorem readIpv4Addr_bracket (t : Text) : readIpv4Addr ('[' :: t) = none := by
  rw [readIpv4Addr, readOctet, readSeparator, if_pos rfl, readNumber_of_stop (by decide)]
  rfl

theorem parseIp_bracket (t : Text) : parseIp ('[' :: t) = none := by
  have hgroups : readGroups 0 8 ('[' :: t) = ([], false, '[' :: t) := by
    rw [readGroups, if_neg (by decide), readSeparator, if_pos rfl, readIpv4Addr_bracket,
      readSeparator, if_pos rfl, readNumber_of_stop (by decide)]
  have hv6 : readIpv6Addr ('[' :: t) = none := by
    rw [readIpv6Addr, hgroups]
    rfl
  rw [parseIp, parseWith, readIpAddr, readIpv4Addr_bracket, hv6]
  rfl

theorem toNat_of_isDigitOf {c : Char} (h : isDigitOf 16 c = true) :
    48 ≤ c.toNat ∧ c.toNat ≤ 102 := by
  have hlt {d : ℕ} (hd : (if d < 16 then some d else none : Option ℕ).isSome = true) : d < 16 := by
    by_contra hge
    rw [if_neg hge] at hd
    cases hd
  by_cases h0 : '0' ≤ c ∧ c ≤ '9'
  · have hlow : 48 ≤ c.toNat := h0.1
    have hhigh : c.toNat ≤ 57 := h0.2
    omega
  by_cases ha : 'a' ≤ c ∧ c ≤ 'z'
  · simp only [isDigitOf, toDigit, if_neg h0, if_pos ha] at h
    have hlow : 97 ≤ c.toNat := ha.1
    have hhigh := hlt h
    omega
  by_cases hA : 'A' ≤ c ∧ c ≤ 'Z'
  · simp only [isDigitOf, toDigit, if_neg h0, if_neg ha, if_pos hA] at h
    have hlow : 65 ≤ c.toNat := hA.1
    have hhigh := hlt h
    omega
  · simp [isDigitOf, toDigit, h0, ha, hA] at h

/-! ### Ports -/

theorem toDigit_of_isDigit {c : Char} (h : c.isDigit = true) : toDigit 10 c = some (c.toNat - 48) := by
  have hrange : '0' ≤ c ∧ c ≤ '9' := by simpa [Char.isDigit, Char.le_def] using h
  have hle : c.toNat ≤ 57 := hrange.2
  rw [toDigit, if_pos hrange, if_pos (by omega)]

theorem toDigit_of_mem_decimal {n : ℕ} {c : Char} (h : c ∈ decimal n) :
    toDigit 10 c = some (c.toNat - 48) :=
  toDigit_of_isDigit (Nat.isDigit_of_mem_toDigits (by decide) (by decide) h)

theorem isDigitOf_of_mem_decimal {n : ℕ} {c : Char} (h : c ∈ decimal n) :
    isDigitOf 10 c = true := by
  rw [isDigitOf, toDigit_of_mem_decimal h]
  rfl

theorem foldl_decimal (n : ℕ) :
    (decimal n).foldl (fun n c => 10 * n + (toDigit 10 c).getD 0) 0 = n := by
  have hvalue : ∀ c ∈ decimal n, (toDigit 10 c).getD 0 = c.toNat - 48 := fun c hc => by
    rw [toDigit_of_mem_decimal hc]
    rfl
  refine Eq.trans ?_ (Nat.ofDigitChars_ten_toDigits (n := n))
  rw [Nat.ofDigitChars_eq_foldl]
  exact List.foldl_ext _ _ _ fun m c hc => by rw [hvalue c hc]; rfl

theorem readNumber_decimal {bound n : ℕ} (h : n < bound) :
    readNumber bound 10 none true (decimal n) = some (n, []) := by
  have hall : ∀ c ∈ decimal n, isDigitOf 10 c = true := fun c hc => isDigitOf_of_mem_decimal hc
  rw [readNumber, List.takeWhile_eq_self_iff.2 hall, List.dropWhile_eq_nil_iff.2 hall]
  simp [foldl_decimal, decimal_ne_nil, h]

theorem readPort_decimal {p : ℕ} (h : p < 65536) : readPort (':' :: decimal p) = some (p, []) := by
  rw [readPort, readGivenChar_eq_some.2 rfl]
  exact readNumber_decimal h

theorem parseBelow_decimal {bound : ℕ} (n : Fin bound) : parseBelow bound (decimal n) = some n := by
  have hplus : (decimal n).head? ≠ some '+' := by
    intro hh
    have hd := isDigitOf_of_mem_decimal (List.mem_of_mem_head? hh)
    exact absurd hd (by decide)
  have hdigits : ∀ c ∈ decimal n, c.isDigit = true := fun c hc =>
    Nat.isDigit_of_mem_toDigits (by decide) (by decide) hc
  have hvalue : (decimal n).foldl (fun m c => 10 * m + (c.toNat - 48)) 0 = n.val := by
    refine Eq.trans ?_ (Nat.ofDigitChars_ten_toDigits (n := n))
    rw [Nat.ofDigitChars_eq_foldl]
    rfl
  simp only [parseBelow, if_neg hplus, hvalue]
  rw [dif_pos ⟨decimal_ne_nil n, List.all_eq_true.2 hdigits, n.isLt⟩]

/-! ### Addresses with a port -/

theorem IsIpv4.parseSocket_port {t : Text} {ip : Ipv4Addr} (h : IsIpv4 t ip) {p : ℕ}
    (hp : p < 65536) : parseSocket (t ++ ':' :: decimal p) = some (.v4 ip, p) := by
  have hstop : ¬ IsV4Char ':' := by
    rintro (h | h)
    · exact absurd h (by decide)
    · cases h
  have hread : readIpv4Addr (t ++ ':' :: decimal p) = some (ip, ':' :: decimal p) := by
    rw [regular_readIpv4Addr.stops t _ hstop, h]
    rfl
  rw [parseSocket, parseWith_eq_some, readSocketAddr]
  simp [hread, readPort_decimal hp]

theorem readGivenChar_of_notMem {c : Char} {t : Text} (h : c ∉ t) : readGivenChar c t = none := by
  cases t with
  | nil => rfl
  | cons d t =>
    refine if_neg ?_
    rintro rfl
    exact h List.mem_cons_self

theorem not_isV6Char_bracket : ¬ IsV6Char '[' ∧ ¬ IsV6Char ']' := by
  constructor
  · rintro (h | h | h)
    · exact absurd h (by decide)
    · cases h
    · cases h
  · rintro (h | h | h)
    · exact absurd h (by decide)
    · cases h
    · cases h

theorem IsIpv4.parseSocket {t : Text} {ip : Ipv4Addr} (h : IsIpv4 t ip) :
    parseSocket t = none := by
  have hopen : '[' ∉ t := fun hm => not_isV6Char_bracket.1 (h.ok _ hm).isV6Char
  have hread : readIpv4Addr t = some (ip, []) := h
  have hport : readPort [] = none := rfl
  rw [AddressParse.parseSocket, parseWith, readSocketAddr]
  simp [hread, hport, readGivenChar_of_notMem hopen]

theorem IsIpv6.parseSocket {t : Text} {ip : Ipv6Addr} (h : IsIpv6 t ip) :
    parseSocket t = none := by
  have hopen : '[' ∉ t := fun hm => not_isV6Char_bracket.1 (h.ok _ hm)
  rw [AddressParse.parseSocket, parseWith, readSocketAddr]
  simp [h.readIpv4Addr_eq_none, readGivenChar_of_notMem hopen]

/-- What is read of an address in brackets and what follows. -/
theorem IsIpv6.readSocketAddr_bracket {t : Text} {ip : Ipv6Addr} (h : IsIpv6 t ip) (rest : Text) :
    readSocketAddr ('[' :: t ++ ']' :: rest) =
      (readPort rest).map fun x => ((.v6 ip, x.1), x.2) := by
  have hread : readIpv6Addr (t ++ ']' :: rest) = some (ip, ']' :: rest) := by
    rw [regular_readIpv6Addr.stops t rest not_isV6Char_bracket.2, h]
    rfl
  have hscope : readScopeId (']' :: rest) = none := by
    rw [readScopeId, readGivenChar, if_neg (by decide)]
    rfl
  rw [readSocketAddr, List.cons_append, readIpv4Addr_bracket]
  simp only [Option.bind_eq_bind, Option.bind_none, readGivenChar_eq_some.2 rfl, Option.bind_some,
    hread, hscope, Option.map_none, Option.getD_none]
  cases readPort rest with
  | none => rfl
  | some x => rfl

theorem IsIpv6.parseSocket_bracket {t : Text} {ip : Ipv6Addr} (h : IsIpv6 t ip) :
    AddressParse.parseSocket ('[' :: t ++ [']']) = none := by
  rw [AddressParse.parseSocket, parseWith, h.readSocketAddr_bracket]
  rfl

theorem IsIpv6.parseSocket_port {t : Text} {ip : Ipv6Addr} (h : IsIpv6 t ip) {p : ℕ}
    (hp : p < 65536) :
    AddressParse.parseSocket ('[' :: t ++ ']' :: ':' :: decimal p) = some (.v6 ip, p) := by
  rw [AddressParse.parseSocket, parseWith_eq_some, h.readSocketAddr_bracket, readPort_decimal hp]
  rfl

end AddressParse

end FerrumDns
