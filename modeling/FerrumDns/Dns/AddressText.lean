import FerrumDns.Dns.Address
import FerrumDns.Text.Digits
import Mathlib.Data.Nat.Digits.Defs

/-! The text of an address determines it. Dotted decimals are read off their dots. In the
colon form an empty word marks the run of zeros, and what stands on both sides of it gives
back all eight segments; only the mapped form has dots in it. -/

namespace FerrumDns

open Text

/-! ### Digits of fixed number -/

/-- Numbers agree up to a power of the base when their digits below it do. -/
theorem mod_pow_congr {b m n k : ℕ} (h : ∀ i < k, m / b ^ i % b = n / b ^ i % b) :
    m % b ^ k = n % b ^ k := by
  induction k with
  | zero => simp [Nat.mod_one]
  | succ k ih =>
    rw [Nat.mod_pow_succ, Nat.mod_pow_succ, ih fun i hi => h i (by omega), h k (by omega)]

/-! ### IPv4 -/

namespace Ipv4Addr

theorem octets_inj {a b : Ipv4Addr} (h : ∀ i < 4, a.octet i = b.octet i) : a = b := by
  apply BitVec.eq_of_toNat_eq
  have hmod : a.toNat % 256 ^ 4 = b.toNat % 256 ^ 4 := by
    apply mod_pow_congr
    intro i hi
    have hoct := h (3 - i) (by omega)
    have hpow : 2 ^ (24 - 8 * (3 - i)) = 256 ^ i := by
      rw [show 24 - 8 * (3 - i) = 8 * i by omega, pow_mul]
      rfl
    rwa [octet, octet, hpow] at hoct
  rw [show 256 ^ 4 = 2 ^ 32 from rfl] at hmod
  rwa [Nat.mod_eq_of_lt a.isLt, Nat.mod_eq_of_lt b.isLt] at hmod

theorem display_eq (a : Ipv4Addr) : a.display = decimal (a.octet 0) ++
    [decimal (a.octet 1), decimal (a.octet 2), decimal (a.octet 3)].flatMap ('.' :: ·) := by
  simp [display]

theorem display_injective : Function.Injective display := by
  intro a b h
  have hdot (n : ℕ) : '.' ∉ decimal n := fun hd =>
    absurd (isHexDigit_of_mem_decimal hd) (by decide)
  have hdots (a : Ipv4Addr) :
      ∀ f ∈ [decimal (a.octet 1), decimal (a.octet 2), decimal (a.octet 3)], '.' ∉ f := by
    simp [hdot]
  rw [display_eq, display_eq] at h
  obtain ⟨h₀, hrest⟩ := fields_inj (hdots a) (hdots b) rfl h
  simp only [List.cons.injEq, and_true] at hrest
  obtain ⟨h₁, h₂, h₃⟩ := hrest
  apply octets_inj
  intro i hi
  obtain rfl | rfl | rfl | rfl : i = 0 ∨ i = 1 ∨ i = 2 ∨ i = 3 := by omega
  · exact decimal_injective h₀
  · exact decimal_injective h₁
  · exact decimal_injective h₂
  · exact decimal_injective h₃

theorem mem_display {a : Ipv4Addr} {c : Char} (h : c ∈ a.display) : isHexDigit c ∨ c = '.' := by
  simp only [display, List.mem_append, List.mem_cons] at h
  rcases h with ((h | h | h) | h | h) | h | h
  all_goals first | exact .inr h | exact .inl (isHexDigit_of_mem_decimal h)

theorem dot_mem_display (a : Ipv4Addr) : '.' ∈ a.display := by
  simp [display]

end Ipv4Addr

/-! ### IPv6 -/

namespace Ipv6Addr

theorem segments_inj {a b : Ipv6Addr} (h : a.segments = b.segments) : a = b := by
  apply BitVec.eq_of_toNat_eq
  have hmod : a.toNat % 65536 ^ 8 = b.toNat % 65536 ^ 8 := by
    apply mod_pow_congr
    intro i hi
    have hseg : a.segment (7 - i) = b.segment (7 - i) :=
      List.map_inj_left.1 h (7 - i) (by simp only [List.mem_range]; omega)
    have hpow : 2 ^ (112 - 16 * (7 - i)) = 65536 ^ i := by
      rw [show 112 - 16 * (7 - i) = 16 * i by omega, pow_mul]
      rfl
    rwa [segment, segment, hpow] at hseg
  rw [show 65536 ^ 8 = 2 ^ 128 from rfl] at hmod
  rwa [Nat.mod_eq_of_lt a.isLt, Nat.mod_eq_of_lt b.isLt] at hmod

/-! #### The run of zeros -/

/-- The span lies in the list and covers zeros only. -/
def ZeroRun (s : List ℕ) (z : Span) : Prop := ∀ j < z.len, s[z.start + j]? = some 0

theorem longestZeros_run {s rest : List ℕ} {i : ℕ} {current longest : Span} (hr : s.drop i = rest)
    (hc : current.len ≠ 0 → current.start + current.len = i ∧ ZeroRun s current)
    (hl : ZeroRun s longest) : ZeroRun s (longestZeros i current longest rest) := by
  induction rest generalizing i current longest with
  | nil => exact hl
  | cons x rest ih =>
    have hx : s[i]? = some x := by rw [← List.head?_drop, hr, List.head?_cons]
    have hr' : s.drop (i + 1) = rest := by rw [← List.tail_drop, hr, List.tail_cons]
    rw [longestZeros]
    by_cases h0 : x = 0
    · subst h0
      rw [if_pos rfl]
      have hrun : ZeroRun s ⟨if current.len = 0 then i else current.start, current.len + 1⟩ := by
        intro j hj
        by_cases hlen : current.len = 0
        · obtain rfl : j = 0 := by
            dsimp only at hj
            omega
          rw [if_pos hlen]
          exact hx
        · obtain ⟨hend, hcur⟩ := hc hlen
          rw [if_neg hlen]
          by_cases hj' : j < current.len
          · exact hcur j hj'
          · dsimp only at hj ⊢
            rw [show current.start + j = i by omega]
            exact hx
      refine ih hr' (fun _ => ⟨?_, hrun⟩) ?_
      · by_cases hlen : current.len = 0
        · simp only [if_pos hlen]
          omega
        · have hend := (hc hlen).1
          simp only [if_neg hlen]
          omega
      · by_cases hlonger : longest.len < current.len + 1
        · rwa [if_pos hlonger]
        · rwa [if_neg hlonger]
    · rw [if_neg h0]
      exact ih hr' (fun hne => absurd rfl hne) hl

/-- The longest run of zero segments. -/
def zeros (a : Ipv6Addr) : Span := longestZeros 0 ⟨0, 0⟩ ⟨0, 0⟩ a.segments

/-- The segments before and after the run of zeros. -/
def outside (a : Ipv6Addr) : List ℕ × List ℕ :=
  (a.segments.take a.zeros.start, a.segments.drop (a.zeros.start + a.zeros.len))

theorem zeros_run (a : Ipv6Addr) : ZeroRun a.segments a.zeros :=
  longestZeros_run rfl (fun h => absurd rfl h) (fun j hj => absurd hj (Nat.not_lt_zero j))

theorem segments_eq (a : Ipv6Addr) : a.segments = a.outside.1 ++
    List.replicate (8 - a.outside.1.length - a.outside.2.length) 0 ++ a.outside.2 := by
  have hlen : a.segments.length = 8 := rfl
  have hinside : (a.segments.drop a.zeros.start).take a.zeros.len =
      List.replicate a.zeros.len 0 := by
    apply List.ext_getElem?
    intro j
    rw [List.getElem?_take, List.getElem?_drop, List.getElem?_replicate]
    split_ifs with hj
    · exact a.zeros_run j hj
    · rfl
  have hfit : a.zeros.len = 0 ∨ a.zeros.start + a.zeros.len ≤ 8 := by
    by_cases h0 : a.zeros.len = 0
    · exact .inl h0
    · have hlast := a.zeros_run (a.zeros.len - 1) (by omega)
      obtain ⟨hlt, -⟩ := List.getElem?_eq_some_iff.1 hlast
      omega
  have hcount : 8 - a.outside.1.length - a.outside.2.length = a.zeros.len := by
    simp only [outside, List.length_take, List.length_drop, hlen]
    omega
  rw [hcount, ← hinside, outside]
  simp only [← List.drop_drop, List.append_assoc, List.take_append_drop]

/-! #### Words -/

/-- Segments as words, the empty word standing for none. -/
def words (l : List ℕ) : List Text := if l = [] then [[]] else l.map lowerHex

theorem words_of_ne {l : List ℕ} (h : l ≠ []) : words l = l.map lowerHex := if_neg h

theorem notMem_map_lowerHex (l : List ℕ) : [] ∉ l.map lowerHex := by
  rw [List.mem_map]
  rintro ⟨n, -, hn⟩
  exact lowerHex_ne_nil n hn

theorem words_injective : Function.Injective words := by
  have only_nil {l : List ℕ} (h : words l = [[]]) : l = [] := by
    by_contra hne
    rw [words_of_ne hne] at h
    exact notMem_map_lowerHex l (by simp [h])
  intro l l' h
  by_cases hl : l = []
  · subst hl
    exact (only_nil h.symm).symm
  · by_cases hl' : l' = []
    · subst hl'
      exact absurd (only_nil h) hl
    · rw [words_of_ne hl, words_of_ne hl'] at h
      exact List.map_injective_iff.2 lowerHex_injective h

/-- The empty word between two lists of words tells them apart. -/
theorem words_middle_inj {l l' r r' : List ℕ}
    (h : words l ++ [] :: words r = words l' ++ [] :: words r') : l = l' ∧ r = r' := by
  have first {l r r' : List ℕ} (hl : l ≠ []) :
      words l ++ [] :: words r ≠ words [] ++ [] :: words r' := by
    intro heq
    obtain ⟨n, l, rfl⟩ := List.exists_cons_of_ne_nil hl
    rw [words_of_ne hl] at heq
    exact lowerHex_ne_nil n (List.cons.inj heq).1
  by_cases hl : l = []
  · by_cases hl' : l' = []
    · subst hl hl'
      exact ⟨rfl, words_injective (List.cons.inj (List.append_cancel_left h)).2⟩
    · subst hl
      exact absurd h.symm (first hl')
  · by_cases hl' : l' = []
    · subst hl'
      exact absurd h (first hl)
    · rw [words_of_ne hl, words_of_ne hl'] at h
      obtain ⟨hmap, hwords⟩ := bar_append_inj (notMem_map_lowerHex l) (notMem_map_lowerHex l') h
      exact ⟨List.map_injective_iff.2 lowerHex_injective hmap, words_injective hwords⟩

theorem displaySegments_eq (l : List ℕ) : displaySegments l = [':'].intercalate (words l) := by
  induction l with
  | nil => rfl
  | cons n l ih =>
    cases l with
    | nil => simp [displaySegments, words]
    | cons m l =>
      have hword : words (n :: m :: l) = lowerHex n :: words (m :: l) := by
        rw [words_of_ne (by simp), words_of_ne (by simp), List.map_cons]
      have hne : words (m :: l) ≠ [] := by
        rw [words_of_ne (by simp)]
        simp
      rw [displaySegments, ih, hword, List.intercalate_cons_of_ne_nil hne]
      · simp
      · simp

/-- The words of the colon form. -/
def pieces (a : Ipv6Addr) : List Text :=
  if 1 < a.zeros.len then words a.outside.1 ++ [] :: words a.outside.2 else words a.segments

theorem display_of_unmapped {a : Ipv6Addr} (h : a.toIpv4Mapped = none) :
    a.display = [':'].intercalate a.pieces := by
  have hne (l : List ℕ) : words l ≠ [] := by
    rw [words]
    split_ifs <;> simp_all
  simp only [display, h, pieces]
  change (if 1 < a.zeros.len then _ else _) = _
  split_ifs
  · rw [intercalate_append _ (hne _) (by simp), List.intercalate_cons_of_ne_nil (hne _),
      ← displaySegments_eq, ← displaySegments_eq]
    simp [outside, zeros]
  · exact displaySegments_eq _

theorem pieces_inj {a b : Ipv6Addr} (h : a.pieces = b.pieces) : a = b := by
  have full (a : Ipv6Addr) : [] ∉ words a.segments := by
    rw [words_of_ne (by simp [segments])]
    exact notMem_map_lowerHex _
  apply segments_inj
  simp only [pieces] at h
  split_ifs at h with ha hb hb
  · obtain ⟨hl, hr⟩ := words_middle_inj h
    rw [segments_eq a, segments_eq b, hl, hr]
  · exact absurd (h ▸ List.mem_append_right _ (by simp)) (full b)
  · exact absurd (h ▸ List.mem_append_right _ (by simp)) (full a)
  · exact words_injective h

/-- The words can be read off their colons, for no word has one. -/
theorem intercalate_pieces_inj {a b : Ipv6Addr}
    (h : [':'].intercalate a.pieces = [':'].intercalate b.pieces) : a.pieces = b.pieces := by
  have hword (l : List ℕ) : words l ≠ [] ∧ ∀ w ∈ words l, ':' ∉ w := by
    by_cases hl : l = []
    · subst hl
      exact ⟨by simp [words], by simp [words]⟩
    · rw [words_of_ne hl]
      refine ⟨by simpa using hl, ?_⟩
      rintro w hw hc
      obtain ⟨n, -, rfl⟩ := List.mem_map.1 hw
      exact absurd (isHexDigit_of_mem_lowerHex hc) (by decide)
  have hpieces (a : Ipv6Addr) : a.pieces ≠ [] ∧ ∀ w ∈ a.pieces, ':' ∉ w := by
    rw [pieces]
    split_ifs
    · refine ⟨by simp, fun w hw => ?_⟩
      rcases List.mem_append.1 hw with hw | hw
      · exact (hword _).2 w hw
      · rcases List.mem_cons.1 hw with rfl | hw
        · simp
        · exact (hword _).2 w hw
    · exact hword _
  have hsplit := congrArg (List.splitOn ':') h
  rwa [List.splitOn_intercalate _ (hpieces a).2 (hpieces a).1,
    List.splitOn_intercalate _ (hpieces b).2 (hpieces b).1] at hsplit

/-! #### Mapped addresses -/

theorem toNat_of_mapped {a : Ipv6Addr} {v4 : Ipv4Addr} (h : a.toIpv4Mapped = some v4) :
    a.toNat = 0xffff * 2 ^ 32 + v4.toNat := by
  rw [toIpv4Mapped] at h
  split_ifs at h with hhigh
  obtain rfl := Option.some.inj h
  rw [BitVec.toNat_ofNat, ← hhigh]
  exact (Nat.div_add_mod' a.toNat (2 ^ 32)).symm

theorem display_of_mapped {a : Ipv6Addr} {v4 : Ipv4Addr} (h : a.toIpv4Mapped = some v4) :
    a.display = "::ffff:".toList ++ v4.display := by
  simp only [display, h]

/-- The colon form shows digits and colons. -/
theorem mem_pieces {a : Ipv6Addr} {c : Char} (h : c ∈ [':'].intercalate a.pieces) :
    isHexDigit c ∨ c = ':' := by
  have hword (l : List ℕ) : ∀ w ∈ words l, ∀ c ∈ w, isHexDigit c := by
    intro w hw c hc
    rw [words] at hw
    split_ifs at hw
    · obtain rfl := List.mem_singleton.1 hw
      simp at hc
    · obtain ⟨n, -, rfl⟩ := List.mem_map.1 hw
      exact isHexDigit_of_mem_lowerHex hc
  have hpieces : ∀ w ∈ a.pieces, ∀ c ∈ w, isHexDigit c := by
    intro w hw c hc
    rw [pieces] at hw
    split_ifs at hw
    · rcases List.mem_append.1 hw with hw | hw
      · exact hword _ w hw c hc
      · rcases List.mem_cons.1 hw with rfl | hw
        · simp at hc
        · exact hword _ w hw c hc
    · exact hword _ w hw c hc
  rcases mem_intercalate h with h | ⟨w, hw, hc⟩
  · exact .inr (List.mem_singleton.1 h)
  · exact .inl (hpieces w hw c hc)

theorem mem_display {a : Ipv6Addr} {c : Char} (h : c ∈ a.display) :
    isHexDigit c ∨ c = '.' ∨ c = ':' := by
  cases hmap : a.toIpv4Mapped with
  | none =>
    rw [display_of_unmapped hmap] at h
    exact (mem_pieces h).imp_right .inr
  | some v4 =>
    rw [display_of_mapped hmap] at h
    rcases List.mem_append.1 h with h | h
    · have hall : "::ffff:".toList.all (fun c => isHexDigit c || c == ':') = true := by decide
      have hc := List.all_eq_true.1 hall c h
      simp only [Bool.or_eq_true, beq_iff_eq] at hc
      exact hc.imp_right .inr
    · exact (Ipv4Addr.mem_display h).imp_right .inl

theorem colon_mem_display (a : Ipv6Addr) : ':' ∈ a.display := by
  cases hmap : a.toIpv4Mapped with
  | some v4 =>
    rw [display_of_mapped hmap]
    simp
  | none =>
    rw [display_of_unmapped hmap]
    have hjoin (x y : Text) (ws : List Text) : ':' ∈ [':'].intercalate (x :: y :: ws) := by
      rw [List.intercalate_cons_of_ne_nil (by simp)]
      simp
    have htwo : ∃ x y ws, a.pieces = x :: y :: ws := by
      rw [pieces]
      split_ifs
      · cases hw : words a.outside.1 with
        | nil =>
          rw [words] at hw
          split_ifs at hw with hl
          exact absurd (List.map_eq_nil_iff.1 hw) hl
        | cons x ws =>
          cases ws with
          | nil => exact ⟨x, [], _, rfl⟩
          | cons y ws => exact ⟨x, y, _, rfl⟩
      · exact ⟨lowerHex (a.segment 0), lowerHex (a.segment 1), _, rfl⟩
    obtain ⟨x, y, ws, hws⟩ := htwo
    rw [hws]
    exact hjoin x y ws

theorem display_injective : Function.Injective display := by
  have apart {a b : Ipv6Addr} {v4 : Ipv4Addr} (ha : a.toIpv4Mapped = some v4)
      (hb : b.toIpv4Mapped = none) : a.display ≠ b.display := by
    intro h
    have hdot : '.' ∈ b.display := by
      rw [← h, display_of_mapped ha]
      exact List.mem_append_right _ v4.dot_mem_display
    rw [display_of_unmapped hb] at hdot
    exact absurd (mem_pieces hdot) (by decide)
  intro a b h
  cases ha : a.toIpv4Mapped with
  | none =>
    cases hb : b.toIpv4Mapped with
    | none =>
      rw [display_of_unmapped ha, display_of_unmapped hb] at h
      exact pieces_inj (intercalate_pieces_inj h)
    | some w4 => exact absurd h.symm (apart hb ha)
  | some v4 =>
    cases hb : b.toIpv4Mapped with
    | none => exact absurd h (apart ha hb)
    | some w4 =>
      rw [display_of_mapped ha, display_of_mapped hb] at h
      obtain rfl := Ipv4Addr.display_injective (List.append_cancel_left h)
      apply BitVec.eq_of_toNat_eq
      rw [toNat_of_mapped ha, toNat_of_mapped hb]

end Ipv6Addr

/-! ### Either family -/

namespace IpAddr

theorem mem_display {a : IpAddr} {c : Char} (h : c ∈ a.display) :
    isHexDigit c ∨ c = '.' ∨ c = ':' := by
  cases a with
  | v4 a => exact (Ipv4Addr.mem_display h).imp_right .inl
  | v6 a => exact Ipv6Addr.mem_display h

theorem display_injective : Function.Injective display := by
  have apart (a : Ipv4Addr) (b : Ipv6Addr) : a.display ≠ b.display := by
    intro h
    exact absurd (Ipv4Addr.mem_display (h ▸ b.colon_mem_display)) (by decide)
  intro a b h
  cases a with
  | v4 a =>
    cases b with
    | v4 b => exact congrArg v4 (Ipv4Addr.display_injective h)
    | v6 b => exact absurd h (apart a b)
  | v6 a =>
    cases b with
    | v4 b => exact absurd h.symm (apart b a)
    | v6 b => exact congrArg v6 (Ipv6Addr.display_injective h)

end IpAddr

end FerrumDns
