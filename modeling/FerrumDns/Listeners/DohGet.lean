import FerrumDns.Dns.AddressParse
import FerrumDns.Sample
import FerrumDns.Server
import FerrumDns.Text.Splitting

/-! A query in the URL of an HTTPS request. The value of its parameter is unquoted octet by
octet and decoded from the alphabet for URLs, with or without padding; what is handled is
what the same message in the body of a request is handled as. -/

namespace FerrumDns

open Prog Text AddressParse Server

namespace DohGet

/-! ### The code -/

/-- The two decoders of the alphabet for URLs. -/
structure Engines where
  noPad : Text → Option Bytes
  padded : Text → Option Bytes

/-- `as_bytes` -/
def asBytes (s : Text) : Bytes := s.flatMap String.utf8EncodeChar

/-- `from_str_radix` of two octets in hexadecimal, a plus sign being allowed before a digit. -/
def fromHexPair (h l : UInt8) : Option ℕ :=
  let digit (b : UInt8) := toDigit 16 (Char.ofNat b.toNat)
  if h = 43 then digit l
  else (digit h).bind fun a => (digit l).map fun b => 16 * a + b

/-- Octets become characters one by one, two digits after a percent sign being one octet. -/
def percentDecodeBytes : Bytes → Text
  | [] => []
  | 37 :: h :: l :: rest =>
    match fromHexPair h l with
    | some b => Char.ofNat b :: percentDecodeBytes rest
    | none => '%' :: percentDecodeBytes (h :: l :: rest)
  | b :: rest => Char.ofNat b.toNat :: percentDecodeBytes rest

def percentDecode (s : Text) : Text := percentDecodeBytes (asBytes s)

/-- What one parameter contributes. -/
def decodePart (engines : Engines) (part : Text) : Option Bytes :=
  match splitOnce '=' part with
  | none => none
  | some (k, v) =>
    if k ≠ "dns".toList then none
    else
      let v := percentDecode v
      match engines.noPad v with
      | some b => some b
      | none => engines.padded v

def dnsQueryParam (engines : Engines) (query : Text) : Option Bytes :=
  (query.splitOn '&').findSome? (decodePart engines)

section Handlers

variable [Crates] (reg : Registry) (depth : ℕ) (entry : Tag)

def dohPost (body : Bytes) (peer : IpAddr) : Run DohReply := dohTask reg depth entry body peer

def dohGet (engines : Engines) (query : Option Text) (peer : IpAddr) : Run DohReply :=
  match query.bind (dnsQueryParam engines) with
  | none => done (.badRequest (.other "missing dns= parameter"))
  | some raw => dohTask reg depth entry raw peer

end Handlers

/-! ### Encodings -/

/-- The digit for six bits. -/
def sextet (n : ℕ) : Char :=
  "ABCDEFGHIJKLMNOPQRSTUVWXYZabcdefghijklmnopqrstuvwxyz0123456789-_".toList.getD (n % 64) 'A'

/-- Three octets in four digits. -/
def encode : Bytes → Text
  | [] => []
  | [a] => [sextet (a.toNat / 4), sextet (a.toNat % 4 * 16)]
  | [a, b] =>
    [sextet (a.toNat / 4), sextet (a.toNat % 4 * 16 + b.toNat / 16), sextet (b.toNat % 16 * 4)]
  | a :: b :: c :: rest =>
    sextet (a.toNat / 4) :: sextet (a.toNat % 4 * 16 + b.toNat / 16) ::
      sextet (b.toNat % 16 * 4 + c.toNat / 64) :: sextet (c.toNat % 64) :: encode rest

/-- What fills up the last four digits. -/
def padding (m : Bytes) : Text := List.replicate ((3 - m.length % 3) % 3) '='

/-- The encoding with padding or without. -/
def encoding (pad : Bool) (m : Bytes) : Text := if pad then encode m ++ padding m else encode m

/-- Some characters are written as two hexadecimal digits after a percent sign. -/
inductive Quoted : Text → Text → Prop where
  | nil : Quoted [] []
  | plain (c : Char) {t s : Text} : Quoted t s → Quoted (c :: t) (c :: s)
  | quoted (c : Char) {h l : Char} {a b : ℕ} {t s : Text} : toDigit 16 h = some a →
      toDigit 16 l = some b → 16 * a + b = c.toNat → Quoted t s →
        Quoted (c :: t) ('%' :: h :: l :: s)

/-- The decoders undo the encodings, and the first one takes no padding. -/
structure Engines.Documented (engines : Engines) : Prop where
  noPad_encode : ∀ m, engines.noPad (encode m) = some m
  padded_encode : ∀ m, engines.padded (encode m ++ padding m) = some m
  noPad_padding : ∀ t, '=' ∈ t → engines.noPad t = none

/-- A parameter with another key, or without one. -/
def Foreign (part : Text) : Prop :=
  '&' ∉ part ∧ ∀ k v, splitOnce '=' part = some (k, v) → k ≠ "dns".toList

/-! ### Unquoting -/

theorem asBytes_cons {c : Char} (hc : c.toNat < 128) (s : Text) :
    asBytes (c :: s) = UInt8.ofNat c.toNat :: asBytes s := by
  have hsize : c.utf8Size = 1 := by
    rw [Char.utf8Size_eq_one_iff, UInt32.le_iff_toNat_le]
    have hval : c.toNat = c.val.toNat := rfl
    have hbound : (127 : UInt32).toNat = 127 := rfl
    omega
  rw [asBytes, List.flatMap_cons, String.utf8EncodeChar_eq_singleton hsize]
  rfl

theorem char_octet {c : Char} (hc : c.toNat < 128) :
    Char.ofNat (UInt8.ofNat c.toNat).toNat = c := by
  have hnat : (UInt8.ofNat c.toNat).toNat = c.toNat := by
    rw [UInt8.toNat_ofNat']
    omega
  rw [hnat, Char.ofNat_toNat]

theorem toNat_lt_of_toDigit {c : Char} {n : ℕ} (h : toDigit 16 c = some n) : c.toNat < 128 := by
  have hrange : isDigitOf 16 c = true := by
    rw [isDigitOf, h]
    rfl
  have hbounds := toNat_of_isDigitOf hrange
  omega

theorem percentDecodeBytes_cons {b : UInt8} (hb : b ≠ 37) (rest : Bytes) :
    percentDecodeBytes (b :: rest) = Char.ofNat b.toNat :: percentDecodeBytes rest := by
  rw [percentDecodeBytes]
  rintro h l rest' rfl
  exact absurd rfl hb

/-- Two digits for an octet are read as that octet. -/
theorem fromHexPair_octets {h l : Char} {a b : ℕ} (hh : toDigit 16 h = some a)
    (hl : toDigit 16 l = some b) :
    fromHexPair (UInt8.ofNat h.toNat) (UInt8.ofNat l.toNat) = some (16 * a + b) := by
  have hplus : UInt8.ofNat h.toNat ≠ 43 := by
    intro heq
    have hchar := char_octet (toNat_lt_of_toDigit hh)
    rw [heq] at hchar
    have hnone : toDigit 16 (Char.ofNat (UInt8.toNat 43)) = none := by decide +kernel
    rw [← hchar, hnone] at hh
    cases hh
  simp only [fromHexPair, if_neg hplus, char_octet (toNat_lt_of_toDigit hh),
    char_octet (toNat_lt_of_toDigit hl), hh, hl, Option.bind_some, Option.map_some]

/-- Unquoting undoes quoting. -/
theorem percentDecode_quoted {t s : Text} (h : Quoted t s)
    (ht : ∀ c ∈ t, c.toNat < 128 ∧ c ≠ '%') : percentDecode s = t := by
  induction h with
  | nil => rfl
  | @plain c t s _ ih =>
    rw [List.forall_mem_cons] at ht
    obtain ⟨⟨hc, hne⟩, ht⟩ := ht
    have hb : UInt8.ofNat c.toNat ≠ 37 := by
      intro heq
      have hchar := char_octet hc
      rw [heq] at hchar
      exact hne hchar.symm
    rw [percentDecode, asBytes_cons hc, percentDecodeBytes_cons hb, char_octet hc]
    exact congrArg _ (ih ht)
  | @quoted c h l a b t s hh hl hval _ ih =>
    rw [List.forall_mem_cons] at ht
    rw [percentDecode, asBytes_cons (by decide), asBytes_cons (toNat_lt_of_toDigit hh),
      asBytes_cons (toNat_lt_of_toDigit hl)]
    change percentDecodeBytes (37 :: _) = _
    rw [percentDecodeBytes, fromHexPair_octets hh hl, hval]
    simp only [Char.ofNat_toNat]
    exact congrArg _ (ih ht.2)

theorem amp_notMem_quoted {t s : Text} (h : Quoted t s) (ht : '&' ∉ t) : '&' ∉ s := by
  induction h with
  | nil => simp
  | plain c _ ih =>
    rw [List.mem_cons, not_or] at ht ⊢
    exact ⟨ht.1, ih ht.2⟩
  | @quoted c h l a b t s hh hl _ _ ih =>
    rw [List.mem_cons, not_or] at ht
    simp only [List.mem_cons, not_or]
    have hamp : toDigit 16 '&' = none := by decide
    refine ⟨by decide, ?_, ?_, ih ht.2⟩
    · rintro rfl
      rw [hamp] at hh
      cases hh
    · rintro rfl
      rw [hamp] at hl
      cases hl

/-! ### The alphabet -/

/-- A digit or a padding character. -/
def IsCode (c : Char) : Prop := c.toNat < 128 ∧ c ≠ '%' ∧ c ≠ '&'

theorem isCode_sextet (n : ℕ) : IsCode (sextet n) := by
  have hall : ∀ k < 64, IsCode (sextet k) := by
    unfold IsCode
    decide +kernel
  have hmod : sextet n = sextet (n % 64) := by
    rw [sextet, sextet, Nat.mod_mod]
  rw [hmod]
  exact hall _ (Nat.mod_lt _ (by decide))

theorem isCode_encode (m : Bytes) : ∀ c ∈ encode m, IsCode c := by
  induction m using encode.induct with
  | case1 => simp [encode]
  | case2 a => simp [encode, isCode_sextet]
  | case3 a b => simp [encode, isCode_sextet]
  | case4 a b c rest ih => simpa [encode, isCode_sextet] using ih

theorem isCode_encoding (pad : Bool) (m : Bytes) : ∀ c ∈ encoding pad m, IsCode c := by
  intro c hc
  rw [encoding] at hc
  split_ifs at hc
  · rcases List.mem_append.1 hc with hc | hc
    · exact isCode_encode m c hc
    · obtain rfl := List.eq_of_mem_replicate hc
      unfold IsCode
      decide
  · exact isCode_encode m c hc

/-! ### The parameter -/

variable {engines : Engines}

/-- One of the decoders gets the message. -/
theorem decode_encoding (h : engines.Documented) (pad : Bool) (m : Bytes) :
    (match engines.noPad (encoding pad m) with
      | some b => some b
      | none => engines.padded (encoding pad m)) = some m := by
  rw [encoding]
  split_ifs with hpad
  · by_cases hnil : padding m = []
    · rw [hnil, List.append_nil, h.noPad_encode]
    · obtain ⟨c, r, hr⟩ := List.exists_cons_of_ne_nil hnil
      have hmem : '=' ∈ encode m ++ padding m := by
        have hc : c ∈ padding m := hr ▸ List.mem_cons_self
        exact List.mem_append_right _ (List.eq_of_mem_replicate hc ▸ hc)
      rw [h.noPad_padding _ hmem]
      exact h.padded_encode m
  · rw [h.noPad_encode]

theorem decodePart_foreign {part : Text} (h : Foreign part) : decodePart engines part = none := by
  rw [decodePart]
  cases hcut : splitOnce '=' part with
  | none => rfl
  | some kv => exact if_pos (h.2 kv.1 kv.2 hcut)

/-- The parameter is found among others, however it is quoted and padded. -/
theorem dnsQueryParam_eq (h : engines.Documented) {pad : Bool} {m : Bytes} {value : Text}
    (hvalue : Quoted (encoding pad m) value) {before after : List Text}
    (hbefore : ∀ part ∈ before, Foreign part) (hafter : ∀ part ∈ after, Foreign part) :
    dnsQueryParam engines (['&'].intercalate (before ++ ("dns=".toList ++ value) :: after)) =
      some m := by
  have hcode := isCode_encoding pad m
  have hamp : '&' ∉ "dns=".toList ++ value := by
    intro hmem
    rcases List.mem_append.1 hmem with hmem | hmem
    · exact absurd hmem (by decide)
    · exact amp_notMem_quoted hvalue (fun hc => (hcode _ hc).2.2 rfl) hmem
  have hparts : ∀ part ∈ before ++ ("dns=".toList ++ value) :: after, '&' ∉ part := by
    intro part hpart
    rcases List.mem_append.1 hpart with hpart | hpart
    · exact (hbefore part hpart).1
    · rcases List.mem_cons.1 hpart with rfl | hpart
      · exact hamp
      · exact (hafter part hpart).1
  have hcut : splitOnce '=' ("dns=".toList ++ value) = some ("dns".toList, value) :=
    splitOnce_of_notMem (by decide : '=' ∉ "dns".toList) value
  have hpart : decodePart engines ("dns=".toList ++ value) = some m := by
    rw [decodePart, hcut]
    simp only [ne_eq, not_true_eq_false, if_false,
      percentDecode_quoted hvalue fun c hc => ⟨(hcode c hc).1, (hcode c hc).2.1⟩]
    exact decode_encoding h pad m
  rw [dnsQueryParam, List.splitOn_intercalate _ hparts (by simp), List.findSome?_append,
    List.findSome?_eq_none_iff.2 fun part hp => decodePart_foreign (hbefore part hp),
    List.findSome?_cons, hpart]
  rfl

/-- A message in the URL is handled as the same message in the body. -/
theorem dohGet_eq_dohPost [Crates] (h : engines.Documented) {pad : Bool} {m : Bytes} {value : Text}
    (hvalue : Quoted (encoding pad m) value) {before after : List Text}
    (hbefore : ∀ part ∈ before, Foreign part) (hafter : ∀ part ∈ after, Foreign part)
    (reg : Registry) (depth : ℕ) (entry : Tag) (peer : IpAddr) :
    dnsQueryParam engines (['&'].intercalate (before ++ ("dns=".toList ++ value) :: after)) =
        some m ∧
      dohGet reg depth entry engines
          (some (['&'].intercalate (before ++ ("dns=".toList ++ value) :: after))) peer =
        dohPost reg depth entry m peer := by
  have hparam := dnsQueryParam_eq h hvalue hbefore hafter
  refine ⟨hparam, ?_⟩
  rw [dohGet, Option.bind_some, hparam]
  rfl

namespace Sample

/-! ### A decoder -/

/-- The six bits of a digit. -/
def bits (c : Char) : Option ℕ :=
  let i :=
    "ABCDEFGHIJKLMNOPQRSTUVWXYZabcdefghijklmnopqrstuvwxyz0123456789-_".toList.idxOf c
  if i < 64 then some i else none

theorem bits_sextet (n : ℕ) : bits (sextet n) = some (n % 64) := by
  have hall : ∀ k < 64, bits (sextet k) = some k := by decide +kernel
  have hmod : sextet n = sextet (n % 64) := by
    rw [sextet, sextet, Nat.mod_mod]
  rw [hmod]
  exact hall _ (Nat.mod_lt _ (by decide))

def decode : Text → Option Bytes
  | [] => some []
  | [_] => none
  | [p, q] => do
    let p ← bits p
    let q ← bits q
    some [.ofNat (p * 4 + q / 16)]
  | [p, q, r] => do
    let p ← bits p
    let q ← bits q
    let r ← bits r
    some [.ofNat (p * 4 + q / 16), .ofNat (q * 16 + r / 4)]
  | p :: q :: r :: s :: rest => do
    let p ← bits p
    let q ← bits q
    let r ← bits r
    let s ← bits s
    let m ← decode rest
    some (.ofNat (p * 4 + q / 16) :: .ofNat (q * 16 + r / 4) :: .ofNat (r * 64 + s) :: m)

/-- An octet from a number with its last eight bits. -/
theorem ofNat_eq {n : ℕ} {a : UInt8} (h : n % 256 = a.toNat) : UInt8.ofNat n = a := by
  rw [← UInt8.toNat_inj, UInt8.toNat_ofNat']
  exact h

theorem decode_encode (m : Bytes) : decode (encode m) = some m := by
  induction m using encode.induct with
  | case1 => rfl
  | case2 a =>
    have ha := a.toNat_lt
    simp only [encode, decode, bits_sextet, Option.bind_eq_bind, Option.bind_some,
      Option.some.injEq, List.cons.injEq, and_true]
    exact ofNat_eq (by omega)
  | case3 a b =>
    have ha := a.toNat_lt
    have hb := b.toNat_lt
    simp only [encode, decode, bits_sextet, Option.bind_eq_bind, Option.bind_some,
      Option.some.injEq, List.cons.injEq, and_true]
    exact ⟨ofNat_eq (by omega), ofNat_eq (by omega)⟩
  | case4 a b c rest ih =>
    have ha := a.toNat_lt
    have hb := b.toNat_lt
    have hc := c.toNat_lt
    simp only [encode, decode, bits_sextet, ih, Option.bind_eq_bind, Option.bind_some,
      Option.some.injEq, List.cons.injEq, and_true]
    exact ⟨ofNat_eq (by omega), ofNat_eq (by omega), ofNat_eq (by omega)⟩

theorem padding_notMem_encode (m : Bytes) : '=' ∉ encode m := by
  have hne (n : ℕ) : '=' ≠ sextet n := by
    intro h
    have hbits := bits_sextet n
    rw [← h] at hbits
    have hnone : bits '=' = none := by decide +kernel
    rw [hnone] at hbits
    cases hbits
  induction m using encode.induct with
  | case1 => simp [encode]
  | case2 a => simp [encode, hne]
  | case3 a b => simp [encode, hne]
  | case4 a b c rest ih => simpa [encode, hne] using ih

def decoders : Engines where
  noPad t := if '=' ∈ t then none else decode t
  padded t := decode (t.filter (· ≠ '='))

theorem documented : decoders.Documented where
  noPad_encode m := (if_neg (padding_notMem_encode m)).trans (decode_encode m)
  padded_encode m := by
    have hfilter : (encode m ++ padding m).filter (· ≠ '=') = encode m := by
      rw [List.filter_append, padding, List.filter_replicate_of_neg (by simp), List.append_nil,
        List.filter_eq_self]
      intro c hc
      simpa using fun he : c = '=' => padding_notMem_encode m (he ▸ hc)
    exact (congrArg decode hfilter).trans (decode_encode m)
  noPad_padding t ht := if_pos ht

/-- Two octets with padding, one character being quoted, after another parameter. -/
theorem dohGet_eq_dohPost_quoted :
    dnsQueryParam decoders "v=1&dns=%41AE=".toList = some [0, 1] := by
  have hquoted : Quoted (encoding true [0, 1]) "%41AE=".toList := by
    exact @Quoted.quoted 'A' '4' '1' 4 1 _ _ (by decide) (by decide) rfl
      (.plain 'A' (.plain 'E' (.plain '=' .nil)))
  have hbefore : ∀ part ∈ ["v=1".toList], Foreign part := by
    intro part hpart
    obtain rfl := List.mem_singleton.1 hpart
    refine ⟨by decide, fun k v h => ?_⟩
    cases h
    decide
  have hafter : ∀ part ∈ ([] : List Text), Foreign part := by simp
  let _ := FerrumDns.Sample.crates []
  exact (dohGet_eq_dohPost documented hquoted hbefore hafter (FerrumDns.Sample.registry [] rfl) 0
    "main" (.v4 0)).1

end Sample

end DohGet

end FerrumDns
