import FerrumDns.Dns.AddressGrammar
import FerrumDns.Dns.AddressText

/-! What is printed for an address is read as that address. Numbers are read back digit by
digit; an IPv6 address is read back as the segments before its run of zeros and those
after it, and a mapped one as an IPv4 address behind its prefix. -/

namespace FerrumDns

open Text

namespace AddressParse

/-! ### Numbers -/

theorem toDigit_digitChar {b d : ℕ} (hb : b ≤ 16) (hd : d < b) :
    toDigit b d.digitChar = some d := by
  have hall : ∀ b ≤ 16, ∀ d < b, toDigit b d.digitChar = some d := by decide
  exact hall b hb d hd

section Digits

variable {b : ℕ} (hb : 1 < b) (hb' : b ≤ 16)

include hb hb'

theorem value_toDigits (n : ℕ) : value b (Nat.toDigits b n) = n := by
  induction n using Nat.strong_induction_on with
  | _ n ih =>
    by_cases hn : n < b
    · rw [Nat.toDigits_of_lt_base hn]
      simp [value, toDigit_digitChar hb' hn]
    · have hmod : n % b < b := Nat.mod_lt n (by omega)
      have hdiv := ih (n / b) (Nat.div_lt_self (by omega) hb)
      rw [value] at hdiv
      rw [Nat.toDigits_of_base_le hb (not_lt.1 hn), value, List.foldl_append, hdiv]
      simp [toDigit_digitChar hb' hmod, Nat.div_add_mod]

theorem isDigitOf_of_mem_toDigits {n : ℕ} {c : Char} (h : c ∈ Nat.toDigits b n) :
    isDigitOf b c = true := by
  induction n using Nat.strong_induction_on with
  | _ n ih =>
    rw [Nat.toDigits_eq_if hb] at h
    split_ifs at h with hn
    · rw [List.mem_singleton.1 h, isDigitOf, toDigit_digitChar hb' hn]
      rfl
    · rcases List.mem_append.1 h with h | h
      · exact ih (n / b) (Nat.div_lt_self (by omega) hb) h
      · have hmod : n % b < b := Nat.mod_lt n (by omega)
        rw [List.mem_singleton.1 h, isDigitOf, toDigit_digitChar hb' hmod]
        rfl

/-- No number but zero begins with a zero. -/
theorem head_toDigits {n : ℕ} (hn : n ≠ 0) : (Nat.toDigits b n).head? ≠ some '0' := by
  induction n using Nat.strong_induction_on with
  | _ n ih =>
    by_cases hlt : n < b
    · rw [Nat.toDigits_of_lt_base hlt, List.head?_cons]
      intro h
      exact hn (digitChar_inj (by omega) (by omega) (Option.some.inj h))
    · have hne : n / b ≠ 0 := by
        have := Nat.div_pos (not_lt.1 hlt) (by omega)
        omega
      rw [Nat.toDigits_of_base_le hb (not_lt.1 hlt), List.head?_append_of_ne_nil _ Nat.toDigits_ne_nil]
      exact ih (n / b) (Nat.div_lt_self (by omega) hb) hne

theorem isNumber_toDigits {bound k n : ℕ} (zero : Bool) (hk : 0 < k) (hn : n < bound)
    (hpow : bound ≤ b ^ k) : IsNumber bound b (some k) zero (Nat.toDigits b n) where
  ne_nil := Nat.toDigits_ne_nil
  digits _ hc := isDigitOf_of_mem_toDigits hb hb' hc
  short m hm := by
    obtain rfl : k = m := Option.some.inj hm
    exact (Nat.length_toDigits_le_iff hb hk).2 (by omega)
  zero := by
    by_cases hzero : n = 0
    · subst hzero
      rw [Nat.toDigits_of_lt_base (by omega)]
      exact .inr (.inr le_rfl)
    · exact .inr (.inl (head_toDigits hb hb' hzero))
  lt := by rwa [value_toDigits hb hb']

end Digits

theorem isOctet_decimal {n : ℕ} (h : n < 256) : IsOctet (decimal n) :=
  isNumber_toDigits (by decide) (by decide) false (by decide) h (by decide)

theorem isGroup_lowerHex {n : ℕ} (h : n < 65536) : IsGroup (lowerHex n) :=
  isNumber_toDigits (by decide) (by decide) true (by decide) h (by decide)

/-! ### IPv4 -/

theorem octet_lt (a : Ipv4Addr) (i : ℕ) : a.octet i < 256 := Nat.mod_lt _ (by decide)

theorem ofOctets_octets (a : Ipv4Addr) :
    Ipv4Addr.ofOctets (a.octet 0) (a.octet 1) (a.octet 2) (a.octet 3) = a := by
  apply BitVec.eq_of_toNat_eq
  have hlt : a.toNat < 2 ^ 32 := a.isLt
  rw [Ipv4Addr.ofOctets, BitVec.toNat_ofNat]
  simp only [Ipv4Addr.octet]
  omega

/-- An address is read off its text, whatever follows it. -/
theorem readIpv4Addr_display (a : Ipv4Addr) {rest : Text} (hrest : Stops 10 rest) :
    readIpv4Addr (a.display ++ rest) = some (a, rest) := by
  have hdot : ¬ isDigitOf 10 '.' = true := by decide
  have hvalue (n : ℕ) : value 10 (decimal n) = n := value_toDigits (by decide) (by decide) n
  have hfirst {n : ℕ} (hn : n < 256) {t : Text} (ht : Stops 10 t) :
      readOctet 0 (decimal n ++ t) = some (n, t) :=
    readOctet_zero.2 ⟨_, rfl, isOctet_decimal hn, hvalue n, ht⟩
  have hnext {n : ℕ} (i : ℕ) (hn : n < 256) {t : Text} (ht : Stops 10 t) :
      readOctet (i + 1) ('.' :: (decimal n ++ t)) = some (n, t) :=
    readOctet_succ.2 ⟨_, rfl, isOctet_decimal hn, hvalue n, ht⟩
  have htext : a.display ++ rest = decimal (a.octet 0) ++ '.' :: (decimal (a.octet 1) ++
      '.' :: (decimal (a.octet 2) ++ '.' :: (decimal (a.octet 3) ++ rest))) := by
    simp [Ipv4Addr.display]
  rw [htext, readIpv4Addr, hfirst (octet_lt a 0) (stops_cons hdot _)]
  simp only [Option.bind_eq_bind, Option.bind_some, hnext 0 (octet_lt a 1) (stops_cons hdot _),
    hnext 1 (octet_lt a 2) (stops_cons hdot _), hnext 2 (octet_lt a 3) hrest, ofOctets_octets]

theorem isIpv4_display (a : Ipv4Addr) : IsIpv4 a.display a := by
  have h := readIpv4Addr_display a (stops_nil 10)
  rwa [List.append_nil] at h

/-! ### Groups -/

/-- A group is read before the others. -/
theorem readGroups_lowerHex {i left s : ℕ} {rest : Text} (hs : s < 65536)
    (hr : ∀ c ∈ rest.head?, c = ':') :
    readGroups i (left + 1) (spell i [lowerHex s] ++ rest) =
      ((s :: (readGroups (i + 1) left rest).1), (readGroups (i + 1) left rest).2) := by
  have hgroup := isGroup_lowerHex hs
  have hvalue : value 16 (lowerHex s) = s := value_toDigits (by decide) (by decide) s
  have hstop : Stops 16 rest := fun c hc => by
    rw [hr c hc]
    exact colon_not_digit
  have hv4 : readSeparator ':' i readIpv4Addr (spell i [lowerHex s] ++ rest) = none := by
    rw [readSeparator_spell]
    exact readIpv4Addr_group hgroup.digits hr
  have hread : readSeparator ':' i (readNumber 65536 16 (some 4) true)
      (spell i [lowerHex s] ++ rest) = some (s, rest) := by
    rw [readSeparator_spell]
    exact readNumber_eq_some.2 ⟨_, rfl, hgroup, hvalue, hstop⟩
  rw [readGroups, hv4, ite_self, hread]

/-- Segments in hexadecimal are read as they are. -/
theorem readGroups_map {i left : ℕ} {l : List ℕ} {rest : Text} (hl : ∀ s ∈ l, s < 65536)
    (hn : l.length ≤ left) (hr : Ends rest) :
    readGroups i left (spell i (l.map lowerHex) ++ rest) = (l, false, rest) := by
  induction l generalizing i left with
  | nil =>
    rw [List.map_nil, spell_nil]
    exact readGroups_ends i left hr
  | cons s l ih =>
    obtain ⟨left, rfl⟩ : ∃ n, left = n + 1 := ⟨left - 1, by simp at hn; omega⟩
    obtain ⟨hs, hl⟩ := List.forall_mem_cons.1 hl
    have hhead : ∀ c ∈ (spell 1 (l.map lowerHex) ++ rest).head?, c = ':' := by
      cases l with
      | nil => simpa [spell_nil] using hr.head
      | cons v l => simp [spell]
    rw [List.map_cons, spell_cons, List.append_assoc, readGroups_lowerHex hs hhead,
      ← spell_succ i, ih hl (by simpa using hn)]

/-! ### IPv6 -/

theorem segment_lt {a : Ipv6Addr} : ∀ s ∈ a.segments, s < 65536 := by
  intro s hs
  obtain ⟨i, -, rfl⟩ := List.mem_map.1 hs
  exact Nat.mod_lt _ (by decide)

theorem ofSegments_segments (a : Ipv6Addr) : ofSegments a.segments = a := by
  apply BitVec.eq_of_toNat_eq
  have hlt : a.toNat < 2 ^ 128 := a.isLt
  have hsegments : a.segments = [a.segment 0, a.segment 1, a.segment 2, a.segment 3, a.segment 4,
      a.segment 5, a.segment 6, a.segment 7] := rfl
  rw [ofSegments, BitVec.toNat_ofNat, hsegments]
  simp only [List.foldl_cons, List.foldl_nil, Ipv6Addr.segment]
  omega

theorem displaySegments_spell (l : List ℕ) :
    Ipv6Addr.displaySegments l = spell 0 (l.map lowerHex) := by
  rw [Ipv6Addr.displaySegments_eq]
  by_cases hl : l = []
  · subst hl
    rfl
  · rw [Ipv6Addr.words_of_ne hl]
    rfl

/-- A run of two zero segments or more leaves at most six. -/
theorem length_outside {a : Ipv6Addr} (h : 1 < a.zeros.len) :
    a.outside.1.length + a.outside.2.length ≤ 6 := by
  have hlast := a.zeros_run (a.zeros.len - 1) (by omega)
  obtain ⟨hlt, -⟩ := List.getElem?_eq_some_iff.1 hlast
  have hlen : a.segments.length = 8 := rfl
  simp only [Ipv6Addr.outside, List.length_take, List.length_drop, hlen]
  omega

theorem isIpv6_compressed {a : Ipv6Addr} (h : 1 < a.zeros.len) :
    IsIpv6 (spell 0 (a.outside.1.map lowerHex) ++ ':' :: ':' ::
      spell 0 (a.outside.2.map lowerHex)) a := by
  have hlen := length_outside h
  have hfirst : ∀ s ∈ a.outside.1, s < 65536 := fun s hs =>
    segment_lt s (List.take_subset _ _ hs)
  have hsecond : ∀ s ∈ a.outside.2, s < 65536 := fun s hs =>
    segment_lt s (List.drop_subset _ _ hs)
  have htail : readGroups 0 (8 - (a.outside.1.length + 1))
      (spell 0 (a.outside.2.map lowerHex) ++ []) = (a.outside.2, false, []) :=
    readGroups_map hsecond (by omega) (.inl rfl)
  rw [List.append_nil] at htail
  rw [IsIpv6, readIpv6Addr, readGroups_map hfirst (by omega) (.inr ⟨_, rfl⟩)]
  simp only
  rw [if_neg (by omega), if_neg (by decide)]
  simp only [readGivenChar_eq_some.2 rfl, Option.bind_eq_bind, Option.bind_some, htail]
  rw [← a.segments_eq, ofSegments_segments]

theorem isIpv6_whole (a : Ipv6Addr) : IsIpv6 (spell 0 (a.segments.map lowerHex)) a := by
  have hread : readGroups 0 8 (spell 0 (a.segments.map lowerHex) ++ []) = (a.segments, false, []) :=
    readGroups_map segment_lt le_rfl (.inl rfl)
  rw [List.append_nil] at hread
  rw [IsIpv6, readIpv6Addr, hread]
  simp only
  rw [if_pos (show a.segments.length = 8 from rfl), ofSegments_segments]

theorem isIpv6_mapped {a : Ipv6Addr} {v4 : Ipv4Addr} (h : a.toIpv4Mapped = some v4) :
    IsIpv6 ("::ffff:".toList ++ v4.display) a := by
  have htext : "::ffff:".toList ++ v4.display =
      ':' :: ':' :: (spell 0 [lowerHex 0xffff] ++ ':' :: v4.display) := rfl
  have hembedded : readGroups 1 6 (':' :: v4.display) =
      ([v4.octet 0 * 256 + v4.octet 1, v4.octet 2 * 256 + v4.octet 3], true, []) := by
    have hread : readSeparator ':' 1 readIpv4Addr (':' :: v4.display) = some (v4, []) := by
      rw [readSeparator, if_neg one_ne_zero, readGivenChar_eq_some.2 rfl]
      exact isIpv4_display v4
    rw [readGroups, if_neg (by decide), hread]
  have htail : readGroups 0 7 (spell 0 [lowerHex 0xffff] ++ ':' :: v4.display) =
      ([0xffff, v4.octet 0 * 256 + v4.octet 1, v4.octet 2 * 256 + v4.octet 3], true, []) := by
    rw [readGroups_lowerHex (by decide) (by simp), hembedded]
  have hvalue : ofSegments (List.replicate 5 0 ++
      [0xffff, v4.octet 0 * 256 + v4.octet 1, v4.octet 2 * 256 + v4.octet 3]) = a := by
    apply BitVec.eq_of_toNat_eq
    have hlt : v4.toNat < 2 ^ 32 := v4.isLt
    rw [ofSegments, BitVec.toNat_ofNat, Ipv6Addr.toNat_of_mapped h]
    simp only [List.replicate, List.cons_append, List.nil_append, List.foldl_cons, List.foldl_nil,
      Ipv4Addr.octet]
    omega
  rw [IsIpv6, htext, readIpv6Addr, readGroups_ends 0 8 (.inr ⟨_, rfl⟩)]
  simp only
  rw [if_neg (by decide), if_neg (by decide)]
  simp only [readGivenChar_eq_some.2 rfl, Option.bind_eq_bind, Option.bind_some]
  rw [show 8 - (([] : List ℕ).length + 1) = 7 from rfl, htail]
  exact congrArg (fun b => some (b, [])) hvalue

theorem isIpv6_display (a : Ipv6Addr) : IsIpv6 a.display a := by
  cases hmap : a.toIpv4Mapped with
  | some v4 =>
    rw [Ipv6Addr.display_of_mapped hmap]
    exact isIpv6_mapped hmap
  | none =>
    simp only [Ipv6Addr.display, hmap]
    change IsIpv6 (if 1 < a.zeros.len then _ else _) a
    split_ifs with hrun
    · have htext := isIpv6_compressed hrun
      rw [← displaySegments_spell, ← displaySegments_spell] at htext
      simpa [Ipv6Addr.outside, Ipv6Addr.zeros] using htext
    · rw [displaySegments_spell]
      exact isIpv6_whole a

/-- An address is read off its text. -/
theorem parseIp_display (ip : IpAddr) : parseIp ip.display = some ip := by
  cases ip with
  | v4 a => exact (isIpv4_display a).parseIp
  | v6 a => exact (isIpv6_display a).parseIp

end AddressParse

end FerrumDns
