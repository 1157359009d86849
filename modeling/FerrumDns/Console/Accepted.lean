import FerrumDns.Console.Validate
import FerrumDns.Dns.AddressGrammar

/-! The addresses that the console accepts. The patterns it matches are octets and groups as
the standard library reads them. Its counts of separators leave open whether a colon stands
alone at an end of a text that holds a double one, and only there it is content with more than
addresses. -/

namespace FerrumDns

open Text AddressParse Fields

namespace Console

/-! ### Patterns -/

theorem isHex_eq (c : Char) : isHex c = isDigitOf 16 c := by
  have h0 : '0' ≤ c ∧ c ≤ '9' ↔ 48 ≤ c.toNat ∧ c.toNat ≤ 57 := Iff.rfl
  have ha : 'a' ≤ c ∧ c ≤ 'f' ↔ 97 ≤ c.toNat ∧ c.toNat ≤ 102 := Iff.rfl
  have hA : 'A' ≤ c ∧ c ≤ 'F' ↔ 65 ≤ c.toNat ∧ c.toNat ≤ 70 := Iff.rfl
  have hz : 'a' ≤ c ∧ c ≤ 'z' ↔ 97 ≤ c.toNat ∧ c.toNat ≤ 122 := Iff.rfl
  have hZ : 'A' ≤ c ∧ c ≤ 'Z' ↔ 65 ≤ c.toNat ∧ c.toNat ≤ 90 := Iff.rfl
  rw [Bool.eq_iff_iff]
  simp only [isHex, isDigitOf, toDigit, Bool.or_eq_true, Bool.and_eq_true, decide_eq_true_eq, h0, ha,
    hA, hz, hZ]
  split_ifs <;> simp <;> omega

theorem isDigit_eq (c : Char) : c.isDigit = isDigitOf 10 c := by
  have hd : c.isDigit = true ↔ 48 ≤ c.toNat ∧ c.toNat ≤ 57 := Char.isDigit_iff_toNat
  have h0 : '0' ≤ c ∧ c ≤ '9' ↔ 48 ≤ c.toNat ∧ c.toNat ≤ 57 := Iff.rfl
  have ha : 'a' ≤ c ∧ c ≤ 'z' ↔ 97 ≤ c.toNat ∧ c.toNat ≤ 122 := Iff.rfl
  have hA : 'A' ≤ c ∧ c ≤ 'Z' ↔ 65 ≤ c.toNat ∧ c.toNat ≤ 90 := Iff.rfl
  rw [Bool.eq_iff_iff]
  simp only [hd, isDigitOf, toDigit, h0, ha, hA]
  split_ifs <;> simp <;> omega

theorem number_eq {w : Text} (h : ∀ c ∈ w, isDigitOf 10 c = true) : number w = value 10 w := by
  refine List.foldl_ext _ _ _ fun n c hc => ?_
  rw [toDigit_of_isDigit ((isDigit_eq c).trans (h c hc)), Option.getD_some]

theorem value_lt {radix : ℕ} (hr : 0 < radix) (w : Text) : value radix w < radix ^ w.length := by
  have hif (d : ℕ) : (if d < radix then some d else none : Option ℕ).getD 0 < radix := by
    split_ifs with hd
    · exact hd
    · exact hr
  have hdigit (c : Char) : (toDigit radix c).getD 0 < radix := hif _
  induction w using List.reverseRecOn with
  | nil => simp [value]
  | append_singleton w c ih =>
    have hvalue : value radix (w ++ [c]) = radix * value radix w + (toDigit radix c).getD 0 := by
      simp [value]
    have hmul : radix * (value radix w + 1) ≤ radix * radix ^ w.length := Nat.mul_le_mul_left _ ih
    have hc := hdigit c
    rw [hvalue, List.length_append, List.length_singleton, pow_succ']
    rw [Nat.mul_succ] at hmul
    omega

theorem isGroup_iff {w : Text} : isGroup w = true ↔ IsGroup w := by
  simp only [isGroup, Bool.and_eq_true, decide_eq_true_eq, List.all_eq_true, isHex_eq]
  constructor
  · rintro ⟨⟨hpos, hshort⟩, hhex⟩
    refine ⟨List.ne_nil_of_length_pos hpos, hhex, by simpa using hshort, .inl rfl, ?_⟩
    exact (value_lt (by decide) w).trans_le (Nat.pow_le_pow_right (by decide) hshort)
  · intro h
    exact ⟨⟨List.length_pos_iff.2 h.ne_nil, h.short 4 rfl⟩, h.digits⟩

theorem isOctet_iff {w : Text} : isOctet w = true ∧ number w ≤ 255 ↔ IsOctet w := by
  cases w with
  | nil =>
    constructor
    · rintro ⟨h, -⟩
      cases h
    · intro h
      exact absurd rfl h.ne_nil
  | cons c w =>
    have hone : '1' ≤ c ∧ c ≤ '9' ↔ 49 ≤ c.toNat ∧ c.toNat ≤ 57 := Iff.rfl
    have hdigit : isDigitOf 10 c = true ↔ 48 ≤ c.toNat ∧ c.toNat ≤ 57 := by
      rw [← isDigit_eq]
      exact Char.isDigit_iff_toNat
    simp only [isOctet, Bool.or_eq_true, Bool.and_eq_true, decide_eq_true_eq, List.all_eq_true,
      isDigit_eq]
    constructor
    · rintro ⟨⟨rfl, rfl⟩ | ⟨⟨hc, hshort⟩, hw⟩, hle⟩
      · exact ⟨by simp, by simp [hdigit], by simp, by simp, by decide⟩
      · rw [hone] at hc
        have hdigits : ∀ d ∈ c :: w, isDigitOf 10 d = true :=
          List.forall_mem_cons.2 ⟨hdigit.2 ⟨by omega, hc.2⟩, hw⟩
        rw [number_eq hdigits] at hle
        refine ⟨by simp, hdigits, by simp; omega, .inr (.inl ?_), by omega⟩
        rintro ⟨⟩
        exact absurd hc.1 (by decide)
    · intro h
      have hlt := h.lt
      obtain ⟨hc, hw⟩ := List.forall_mem_cons.1 h.digits
      rw [number_eq h.digits]
      refine ⟨?_, by omega⟩
      by_cases hzero : c = '0'
      · rcases h.zero.resolve_left (by decide) with hne | hlen
        · exact absurd (congrArg some hzero) hne
        · exact .inl ⟨hzero, List.length_eq_zero_iff.1 (Nat.le_zero.1 (Nat.le_of_succ_le_succ hlen))⟩
      · have hshort : w.length + 1 ≤ 3 := h.short 3 rfl
        have hne : c.toNat ≠ 48 := fun h48 => hzero (Char.toNat_inj.1 h48)
        rw [hdigit] at hc
        exact .inr ⟨⟨hone.2 ⟨by omega, hc.2⟩, by omega⟩, hw⟩

theorem isIPv4_iff {t : Text} : isIPv4 t = true ↔ IsQuad t := by
  have hdot : ¬ isDigitOf 10 '.' = true := by decide
  have hpart {w : Text} : (isOctet w && decide (number w ≤ 255)) = true ↔ AddressParse.IsOctet w := by
    rw [Bool.and_eq_true, decide_eq_true_eq, isOctet_iff]
  simp only [isIPv4, Bool.and_eq_true, decide_eq_true_eq, List.all_eq_true, hpart]
  constructor
  · rintro ⟨hlen, hall⟩
    obtain ⟨a, b, c, d, hparts⟩ := List.length_eq_four.1 hlen
    have ht : ['.'].intercalate (t.splitOn '.') = t := List.intercalate_splitOn '.'
    rw [hparts] at ht hall
    exact ⟨a, b, c, d, hall a (by simp), hall b (by simp), hall c (by simp), hall d (by simp), by
      rw [← ht]
      simp [List.intercalate_cons_cons]⟩
  · rintro ⟨a, b, c, d, ha, hb, hc, hd, rfl⟩
    have hparts : (a ++ '.' :: (b ++ '.' :: (c ++ '.' :: d))).splitOn '.' = [a, b, c, d] := by
      rw [List.splitOn_append_cons_self_of_not_mem (ha.notMem hdot),
        List.splitOn_append_cons_self_of_not_mem (hb.notMem hdot),
        List.splitOn_append_cons_self_of_not_mem (hc.notMem hdot),
        List.splitOn_eq_singleton (hd.notMem hdot)]
    rw [hparts]
    exact ⟨rfl, by simp [ha, hb, hc, hd]⟩

/-! ### Colons -/

/-- A text is cut at its first double colon. -/
theorem splitOnText_colons {t a b : Text} : splitOnText [':', ':'] t = some (a, b) ↔
    t = a ++ [':', ':'] ++ b ∧ ¬ Doubled ':' (a ++ [':']) := by
  constructor
  · intro h
    refine ⟨eq_of_splitOnText h, ?_⟩
    rintro ⟨x, z, hxz⟩
    rw [List.append_assoc, List.append_eq_append_iff] at hxz
    rcases hxz with ⟨y, rfl, hy⟩ | ⟨y, -, hy⟩
    · have hne : y ≠ [] := by
        rintro rfl
        simp at hy
      refine not_prefix_of_splitOnText h x y rfl hne ⟨z ++ ':' :: b, ?_⟩
      have happ := congrArg (· ++ ':' :: b) hy
      simpa using happ
    · have hlen := congrArg List.length hy
      simp at hlen
      omega
  · rintro ⟨rfl, ha⟩
    refine splitOnText_append (by decide) b ?_
    rintro x y rfl hne ⟨z, hz⟩
    refine ha ?_
    rcases y with _ | ⟨c, _ | ⟨d, y⟩⟩
    · exact absurd rfl hne
    · obtain ⟨rfl, -⟩ := List.cons.inj hz
      exact ⟨x, [], by simp⟩
    · obtain ⟨rfl, rfl, -⟩ : ':' = c ∧ ':' = d ∧ _ := by simpa using hz
      exact ⟨x, y ++ [':'], by simp⟩

theorem splitText_ne_nil (p : Text) (n : ℕ) (t : Text) : splitText p n t ≠ [] := by
  cases n with
  | zero => simp [splitText]
  | succ n =>
    rw [splitText]
    split <;> simp

/-- One part is left where there is nothing to cut. -/
theorem length_splitText {p t : Text} {n : ℕ} (hn : n ≠ 0) :
    1 < (splitText p n t).length ↔ p <:+: t := by
  obtain ⟨n, rfl⟩ := Nat.exists_eq_succ_of_ne_zero hn
  rw [splitText]
  cases hcut : splitOnText p t with
  | none => simpa using not_infix_of_splitOnText hcut
  | some x =>
    have hpos := List.length_pos_iff.2 (splitText_ne_nil p n x.2)
    have hin : p <:+: t := ⟨x.1, x.2, (eq_of_splitOnText hcut).symm⟩
    simp [hin]
    omega

theorem splitText_of_not_infix {p t : Text} (hp : p ≠ []) (h : ¬ p <:+: t) (n : ℕ) :
    splitText p n t = [t] := by
  cases n with
  | zero => rfl
  | succ n => rw [splitText, splitOnText_eq_none hp h]

theorem includes_iff {p t : Text} (hp : p ≠ []) : includes t p = true ↔ p <:+: t := by
  rw [includes, Option.isSome_iff_ne_none]
  refine not_iff_comm.1 ⟨fun h => splitOnText_eq_none hp h, not_infix_of_splitOnText⟩

theorem all_isGroup {ws : List Text} : ws.all isGroup = true ↔ ∀ w ∈ ws, IsGroup w := by
  simp [isGroup_iff]

theorem groupsVersion_of_not_doubled {t : Text} (h : ¬ Doubled ':' t) : groupsVersion t = 6 ↔
    (∀ w ∈ fields ':' t, IsGroup w) ∧ (fields ':' t).length = 8 ∧
      t.head? ≠ some ':' ∧ t.getLast? ≠ some ':' := by
  have hdouble : includes t "::".toList = false :=
    Bool.eq_false_iff.2 fun ht => h ((includes_iff (by decide)).1 ht)
  have htriple : includes t ":::".toList = false := Bool.eq_false_iff.2 fun ht =>
    h (List.IsInfix.trans ⟨[], [':'], rfl⟩ ((includes_iff (by decide)).1 ht))
  have hsplit : split t "::".toList = [t] := splitText_of_not_infix (by decide) h _
  rw [groupsVersion, htriple, hdouble, hsplit, ← all_isGroup]
  change (if _ then _ else if (!(fields ':' t).all isGroup) = true then _ else if _ then _ else
    if ((decide ((fields ':' t).length = 8) && _) && _) = true then 6 else 0) = 6 ↔ _
  cases hall : (fields ':' t).all isGroup with
  | false => simp
  | true => simp [and_assoc]

theorem fields_colons (a b : Text) :
    fields ':' (a ++ [':', ':'] ++ b) = fields ':' a ++ fields ':' b := by
  rw [List.append_assoc]
  change fields ':' (a ++ ':' :: ([] ++ ':' :: b)) = _
  rw [fields_append_cons, fields_append_cons, fields_nil, List.nil_append]

theorem groupsVersion_of_cut {a b : Text} (ha : ¬ Doubled ':' (a ++ [':'])) :
    groupsVersion (a ++ [':', ':'] ++ b) = 6 ↔ ¬ Doubled ':' (':' :: b) ∧
      (∀ w ∈ fields ':' a ++ fields ':' b, IsGroup w) ∧
      (fields ':' a ++ fields ':' b).length < 8 := by
  have hcut : splitOnText "::".toList (a ++ [':', ':'] ++ b) = some (a, b) :=
    splitOnText_colons.2 ⟨rfl, ha⟩
  have hdouble : includes (a ++ [':', ':'] ++ b) "::".toList = true := by rw [includes, hcut]; rfl
  have hsplit : 2 < (split (a ++ [':', ':'] ++ b) "::".toList).length ↔ Doubled ':' b := by
    obtain ⟨n, hn⟩ : ∃ n, (a ++ [':', ':'] ++ b).length = n + 2 := ⟨a.length + b.length, by simp; omega⟩
    rw [split, hn, splitText, hcut]
    exact Nat.succ_lt_succ_iff.trans (length_splitText n.succ_ne_zero)
  have hbad : (includes (a ++ [':', ':'] ++ b) ":::".toList ||
      decide (2 < (split (a ++ [':', ':'] ++ b) "::".toList).length)) = true ↔
        Doubled ':' (':' :: b) := by
    rw [Bool.or_eq_true, includes_iff (by decide), decide_eq_true_eq, hsplit]
    exact tripled_or_doubled_iff ha
  rw [groupsVersion, hdouble, ← all_isGroup, ← fields_colons, ← hbad]
  generalize (includes (a ++ [':', ':'] ++ b) ":::".toList ||
    decide (2 < (split (a ++ [':', ':'] ++ b) "::".toList).length)) = bad
  change (if bad = true then _ else if (!(fields ':' _).all isGroup) = true then _ else if _ then
    if (fields ':' _).length < 8 then _ else _ else _) = 6 ↔ _
  cases bad with
  | true => simp
  | false =>
    cases hall : (fields ':' (a ++ [':', ':'] ++ b)).all isGroup with
    | false => simp
    | true => simp

/-- What the console accepts of an address without dots, in terms of its colons. -/
def GroupsAccepted (t : Text) : Prop :=
  (¬ Doubled ':' (':' :: (t ++ [':'])) ∧ (fields ':' t).length = 8 ∧
    ∀ w ∈ fields ':' t, IsGroup w) ∨
  ∃ a b, t = a ++ [':', ':'] ++ b ∧ ¬ Doubled ':' (a ++ [':']) ∧ ¬ Doubled ':' (':' :: b) ∧
    (fields ':' a).length + (fields ':' b).length ≤ 7 ∧
    (∀ w ∈ fields ':' a, IsGroup w) ∧ ∀ w ∈ fields ':' b, IsGroup w

theorem groupsVersion_eq_six {t : Text} : groupsVersion t = 6 ↔ GroupsAccepted t := by
  by_cases hd : Doubled ':' t
  · cases hcut : splitOnText [':', ':'] t with
    | none => exact absurd hd (not_infix_of_splitOnText hcut)
    | some x =>
      obtain ⟨a, b⟩ := x
      obtain ⟨rfl, ha⟩ := splitOnText_colons.1 hcut
      rw [groupsVersion_of_cut ha, List.forall_mem_append, List.length_append]
      constructor
      · rintro ⟨hb, ⟨hfa, hfb⟩, hlen⟩
        exact .inr ⟨a, b, rfl, ha, hb, Nat.le_of_lt_succ hlen, hfa, hfb⟩
      · rintro (⟨hclosed, -⟩ | ⟨a', b', heq, ha', hb, hlen, hfa, hfb⟩)
        · exact absurd (hd.trans ⟨[':'], [':'], by simp⟩) hclosed
        · rw [splitOnText_colons.2 ⟨heq, ha'⟩] at hcut
          cases hcut
          exact ⟨hb, ⟨hfa, hfb⟩, Nat.lt_succ_of_le hlen⟩
  · rw [groupsVersion_of_not_doubled hd]
    have hclosed : ¬ Doubled ':' (':' :: (t ++ [':'])) ↔
        (t ++ [':']).head? ≠ some ':' ∧ t.getLast? ≠ some ':' := by
      rw [doubled_cons, doubled_concat]
      tauto
    constructor
    · rintro ⟨hall, hlen, hhead, hlast⟩
      refine .inl ⟨hclosed.2 ⟨?_, hlast⟩, hlen, hall⟩
      cases t with
      | nil => simp at hlen
      | cons c t => exact hhead
    · rintro (⟨hends, hlen, hall⟩ | ⟨a, b, rfl, -⟩)
      · obtain ⟨hhead, hlast⟩ := hclosed.1 hends
        refine ⟨hall, hlen, ?_, hlast⟩
        cases t with
        | nil => simp at hlen
        | cons c t => exact hhead
      · exact absurd ⟨a, b, rfl⟩ hd

theorem groupsVersion_eq_zero {t : Text} (h : ¬ GroupsAccepted t) : groupsVersion t = 0 := by
  rw [← groupsVersion_eq_six] at h
  rw [groupsVersion] at h ⊢
  dsimp only at h ⊢
  split_ifs at h ⊢ <;> first | rfl | exact absurd rfl h

/-- Groups on either side of a double colon, and perhaps a colon alone at either end. -/
structure IsLoose (v4 : Bool) (lead : Text) (l r : List Text) (trail : Text) : Prop where
  groups : ∃ n m, Groups false l n ∧ Groups v4 r m ∧ n + m ≤ 7
  lead : Lone ':' l lead
  trail : Lone ':' r trail

theorem groupsAccepted_iff {t : Text} : GroupsAccepted t ↔
    (∃ ws, Groups false ws 8 ∧ t = spell 0 ws) ∨ ∃ lead l r trail, IsLoose false lead l r trail ∧
      t = lead ++ (spell 0 l ++ ':' :: ':' :: spell 0 r) ++ trail := by
  constructor
  · rintro (⟨hclosed, hlen, hall⟩ | ⟨a, b, rfl, ha, hb, hle, hfa, hfb⟩)
    · exact .inl ⟨fields ':' t, groups_false_iff.2 ⟨hall, hlen⟩,
        (eq_intercalate_of_not_doubled hclosed).1⟩
    · obtain ⟨lead, hlead, hla⟩ := exists_lead ha
      obtain ⟨trail, htrail, htb⟩ := exists_trail hb
      refine .inr ⟨lead, fields ':' a, fields ':' b, trail, ⟨⟨_, _, groups_false_iff.2 ⟨hfa, rfl⟩,
        groups_false_iff.2 ⟨hfb, rfl⟩, hle⟩, hlead, htrail⟩, ?_⟩
      conv_lhs => rw [hla, htb]
      simp [spell]
  · rintro (⟨ws, hws, rfl⟩ | ⟨lead, l, r, trail, ⟨⟨n, m, hl, hr, hle⟩, hlead, htrail⟩, rfl⟩)
    · obtain ⟨hall, hlen⟩ := groups_false_iff.1 hws
      have hne : ws ≠ [] := List.ne_nil_of_length_pos (by omega)
      have hfields : fields ':' (spell 0 ws) = ws := fields_intercalate hws.plain
      exact .inl ⟨not_doubled_intercalate hws.plain hne, by rwa [hfields], by rwa [hfields]⟩
    · obtain ⟨hla, rfl⟩ := groups_false_iff.1 hl
      obtain ⟨hra, rfl⟩ := groups_false_iff.1 hr
      have hfl : fields ':' (lead ++ spell 0 l) = l := fields_lead hl.plain hlead
      have hfr : fields ':' (spell 0 r ++ trail) = r := fields_trail hr.plain htrail
      refine .inr ⟨lead ++ spell 0 l, spell 0 r ++ trail, by simp, not_doubled_lead hl.plain hlead,
        not_doubled_trail hr.plain htrail, ?_⟩
      rw [hfl, hfr]
      exact ⟨hle, hla, hra⟩

/-! ### Addresses -/

/-- The texts that the console takes for IPv6 addresses. -/
def IsAccepted (t : Text) : Prop := IsWhole t ∨ ∃ v4 lead l r trail, IsLoose v4 lead l r trail ∧
  (v4 = true → trail = []) ∧ t = lead ++ (spell 0 l ++ ':' :: ':' :: spell 0 r) ++ trail

theorem lastColon_append (z : Text) {q : Text} (hq : ':' ∉ q) :
    upToLastColon (z ++ ':' :: q) = z ++ [':'] ∧ afterLastColon (z ++ ':' :: q) = q := by
  have hrev : (z ++ ':' :: q).reverse = q.reverse ++ ':' :: z.reverse := by simp
  have hpos : ∀ c ∈ q.reverse, (decide (c ≠ ':')) = true := fun c hc => by
    rw [decide_eq_true_eq]
    rintro rfl
    exact hq (List.mem_reverse.1 hc)
  constructor
  · rw [upToLastColon, List.rdropWhile, hrev, List.dropWhile_append_of_pos hpos]
    simp
  · rw [afterLastColon, List.rtakeWhile, hrev, List.takeWhile_append_of_pos hpos]
    simp

theorem exists_lastColon {t : Text} (h : ':' ∈ t) : ∃ z q, t = z ++ ':' :: q ∧ ':' ∉ q := by
  obtain ⟨a, b, hab, ha⟩ := List.eq_append_cons_of_mem (List.mem_reverse.2 h)
  refine ⟨b.reverse, a.reverse, ?_, by simpa using ha⟩
  rw [← t.reverse_reverse, hab]
  simp

/-- Two groups may stand in place of an IPv4 address. -/
theorem groups_zeros {ws : List Text} {n : ℕ} (h : Groups false ws n) :
    Groups false (ws ++ [['0'], ['0']]) (n + 2) := by
  have hzero : IsGroup ['0'] := isGroup_iff.1 rfl
  obtain ⟨hall, rfl⟩ := groups_false_iff.1 h
  exact groups_false_iff.2 ⟨List.forall_mem_append.2 ⟨hall, by simp [hzero]⟩, by simp⟩

theorem fields_zeros : fields ':' "0:0".toList = [['0'], ['0']] :=
  fields_intercalate (groups_zeros .nil).plain

theorem accepted_iff_of_no_dot {t : Text} (h : '.' ∉ t) : GroupsAccepted t ↔ IsAccepted t := by
  rw [groupsAccepted_iff]
  constructor
  · rintro (⟨ws, hws, rfl⟩ | ⟨lead, l, r, trail, hloose, rfl⟩)
    · exact .inl ⟨false, ws, hws, rfl⟩
    · exact .inr ⟨false, lead, l, r, trail, hloose, nofun, rfl⟩
  · rintro (⟨v4, ws, hws, rfl⟩ | ⟨v4, lead, l, r, trail, hloose, -, rfl⟩)
    · obtain rfl := Bool.eq_false_iff.2 (mt hws.dot_mem_iff.2 h)
      exact .inl ⟨ws, hws, rfl⟩
    · obtain ⟨n, m, hl, hr, hle⟩ := hloose.groups
      have hdot : '.' ∉ spell 0 r := fun hr => h (by simp [hr])
      obtain rfl := Bool.eq_false_iff.2 (mt hr.dot_mem_iff.2 hdot)
      exact .inr ⟨lead, l, r, trail, hloose, rfl⟩

theorem spell_append {a b : List Text} (ha : a ≠ []) (hb : b ≠ []) :
    spell 0 (a ++ b) = spell 0 a ++ ':' :: spell 0 b := by
  rw [spell, if_pos rfl, Text.intercalate_append _ ha hb]
  simp [spell]

/-- A double colon before the two groups may end where they begin. -/
theorem cut_zeros {z a b : Text} (h : z ++ ':' :: "0:0".toList = a ++ [':', ':'] ++ b) :
    z = a ++ [':'] ∧ b = "0:0".toList ∨ ∃ y, z = a ++ [':', ':'] ++ y ∧ b = y ++ ':' :: "0:0".toList := by
  rw [List.append_assoc, List.append_eq_append_iff] at h
  rcases h with ⟨x, rfl, hx⟩ | ⟨x, rfl, hx⟩
  · -- The two groups have none themselves.
    have hnone : ¬ Doubled ':' (':' :: "0:0".toList) := by
      have hflat := not_doubled_flatMap (groups_zeros .nil).plain (.inl rfl)
      rwa [List.append_nil] at hflat
    exact absurd ⟨x, b, by rw [hx]; simp⟩ hnone
  · rcases x with _ | ⟨c, _ | ⟨d, x⟩⟩
    · simp at hx
    · obtain ⟨rfl, rfl⟩ : ':' = c ∧ b = "0:0".toList := by simpa using hx
      exact .inl ⟨rfl, rfl⟩
    · obtain ⟨rfl, rfl, rfl⟩ : ':' = c ∧ ':' = d ∧ b = x ++ ':' :: "0:0".toList := by simpa using hx
      exact .inr ⟨x, by simp, rfl⟩

/-- The IPv4 address at the end is put back. -/
theorem isAccepted_of_groupsAccepted {z q : Text} (hq : IsQuad q)
    (h : GroupsAccepted (z ++ ':' :: "0:0".toList)) : IsAccepted (z ++ ':' :: q) := by
  rcases h with ⟨hclosed, hlen, hall⟩ | ⟨a, b, heq, ha, hb, hle, hfa, hfb⟩
  · have hz : ¬ Doubled ':' (':' :: (z ++ [':'])) := fun hd =>
      hclosed (hd.trans ⟨[], "0:0:".toList, by simp⟩)
    obtain ⟨hspell, hne⟩ := eq_intercalate_of_not_doubled hz
    rw [fields_append_cons, fields_zeros, List.length_append] at hlen
    rw [fields_append_cons, List.forall_mem_append] at hall
    refine .inl ⟨true, fields ':' z ++ [q], groups_true_iff.2 ⟨_, q, 6, rfl, rfl,
      groups_false_iff.2 ⟨hall.1, by simpa using hlen⟩, hq⟩, ?_⟩
    rw [spell_append hne (by simp)]
    conv_lhs => rw [hspell]
    simp [spell]
  · obtain ⟨lead, hlead, hla⟩ := exists_lead ha
    have hl : Groups false (fields ':' a) (fields ':' a).length := groups_false_iff.2 ⟨hfa, rfl⟩
    rcases cut_zeros heq with ⟨rfl, rfl⟩ | ⟨y, rfl, rfl⟩
    · rw [fields_zeros] at hle
      refine .inr ⟨true, lead, fields ':' a, [q], [], ⟨⟨_, 2, hl, .embedded hq, hle⟩, hlead,
        .inl rfl⟩, fun _ => rfl, ?_⟩
      conv_lhs => rw [hla]
      simp [spell]
    · have hy : ¬ Doubled ':' (':' :: (y ++ [':'])) := fun hd =>
        hb (hd.trans ⟨[], "0:0".toList, by simp⟩)
      obtain ⟨hspell, hne⟩ := eq_intercalate_of_not_doubled hy
      rw [fields_append_cons, fields_zeros, List.length_append] at hle
      rw [fields_append_cons, List.forall_mem_append] at hfb
      refine .inr ⟨true, lead, fields ':' a, fields ':' y ++ [q], [], ⟨⟨_, _, hl,
        groups_true_iff.2 ⟨_, q, _, rfl, rfl, groups_false_iff.2 ⟨hfb.1, rfl⟩, hq⟩, hle⟩, hlead,
        .inl rfl⟩, fun _ => rfl, ?_⟩
      rw [spell_append hne (by simp)]
      conv_lhs => rw [hla, hspell]
      simp [spell]

/-- The last piece of an address with dots is an IPv4 address, which two groups can replace. -/
theorem IsAccepted.dotted {t : Text} (h : IsAccepted t) (hdot : '.' ∈ t) :
    ∃ z q, t = z ++ ':' :: q ∧ IsQuad q ∧ GroupsAccepted (z ++ ':' :: "0:0".toList) := by
  rcases h with ⟨v4, ws, hws, rfl⟩ | ⟨v4, lead, l, r, trail, hloose, htrail, rfl⟩
  · rw [hws.dot_mem_iff] at hdot
    subst hdot
    obtain ⟨ws, q, m, rfl, hm, hg, hq⟩ := groups_true_iff.1 hws
    have hne : ws ≠ [] := List.ne_nil_of_length_pos (by rw [(groups_false_iff.1 hg).2]; omega)
    refine ⟨spell 0 ws, q, by rw [spell_append hne (by simp)]; simp [spell], hq,
      groupsAccepted_iff.2 (.inl ⟨ws ++ [['0'], ['0']], ?_, ?_⟩)⟩
    · rw [hm]
      exact groups_zeros hg
    · rw [spell_append hne (by simp)]
      rfl
  · obtain ⟨n, m, hl, hr, hle⟩ := hloose.groups
    have hlone {ws : List Text} {x : Text} (hx : Lone ':' ws x) : '.' ∉ x := by
      rcases hx with rfl | ⟨rfl, -⟩ <;> simp
    have hl' := hl.dot_mem_iff
    obtain rfl : v4 = true := by
      rw [← hr.dot_mem_iff]
      simpa [hlone hloose.lead, hlone hloose.trail, hl'] using hdot
    obtain rfl := htrail rfl
    obtain ⟨ws, q, m, rfl, rfl, hg, hq⟩ := groups_true_iff.1 hr
    have hloose' : IsLoose false lead l (ws ++ [['0'], ['0']]) [] :=
      ⟨⟨n, m + 2, hl, groups_zeros hg, hle⟩, hloose.lead, .inl rfl⟩
    by_cases hne : ws = []
    · subst hne
      refine ⟨lead ++ spell 0 l ++ [':'], q, by simp [spell], hq, groupsAccepted_iff.2
        (.inr ⟨lead, l, _, [], hloose', ?_⟩)⟩
      simp [spell]
    · refine ⟨lead ++ (spell 0 l ++ ':' :: ':' :: spell 0 ws), q, ?_, hq, groupsAccepted_iff.2
        (.inr ⟨lead, l, _, [], hloose', ?_⟩)⟩
      · rw [spell_append hne (by simp)]
        simp [spell]
      · rw [spell_append hne (by simp)]
        simp [spell]

theorem IsAccepted.ok {t : Text} (h : IsAccepted t) : ':' ∈ t ∧ ∀ c ∈ t, IsV6Char c := by
  rcases h with hw | ⟨v4, lead, l, r, trail, hloose, -, rfl⟩
  · obtain ⟨ip, hip⟩ := isIpv6_iff.2 (.inl hw)
    have hcount := hip.two_le_count
    exact ⟨List.count_pos_iff.1 (by omega), hip.ok⟩
  · obtain ⟨n, m, hl, hr, hle⟩ := hloose.groups
    obtain ⟨ip, hip⟩ := isIpv6_iff.2 (.inr ⟨l, n, v4, r, m, hl, hr, hle, rfl⟩)
    have hlone {ws : List Text} {x : Text} (hx : Lone ':' ws x) : ∀ c ∈ x, IsV6Char c := by
      rcases hx with rfl | ⟨rfl, -⟩
      · simp
      · simp [IsV6Char]
    exact ⟨by simp, List.forall_mem_append.2 ⟨List.forall_mem_append.2 ⟨hlone hloose.lead, hip.ok⟩,
      hlone hloose.trail⟩⟩

theorem ipVersion_of_isQuad {t : Text} (h : IsQuad t) : ipVersion t = 4 := by
  rw [ipVersion, if_pos (isIPv4_iff.2 h)]

/-- The characters are checked before anything else is. -/
theorem ipVersion_of_ok {t : Text} (hq : ¬ IsQuad t) (hcolon : ':' ∈ t) (hok : ∀ c ∈ t, IsV6Char c) :
    ipVersion t = if '.' ∈ t then
        if !isIPv4 (afterLastColon t) then 0 else groupsVersion (upToLastColon t ++ "0:0".toList)
      else groupsVersion t := by
  have hchars : t.all (fun c => isHex c || c = ':' || c = '.') = true := by
    simp only [List.all_eq_true, Bool.or_eq_true, decide_eq_true_eq, isHex_eq]
    intro c hc
    rcases hok c hc with h | rfl | rfl
    · exact .inl (.inl h)
    · exact .inr rfl
    · exact .inl (.inr rfl)
  rw [ipVersion, if_neg (mt isIPv4_iff.1 hq), if_neg]
  simp [hcolon, hchars]

theorem ipVersion_of_isAccepted {t : Text} (h : IsAccepted t) : ipVersion t = 6 := by
  obtain ⟨hcolon, hok⟩ := h.ok
  rw [ipVersion_of_ok (fun hq => hq.colon_notMem hcolon) hcolon hok]
  split_ifs with hdot hquad
  · obtain ⟨z, q, rfl, hq, -⟩ := h.dotted hdot
    rw [(lastColon_append z hq.colon_notMem).2, isIPv4_iff.2 hq] at hquad
    cases hquad
  · obtain ⟨z, q, rfl, hq, hgroups⟩ := h.dotted hdot
    rw [(lastColon_append z hq.colon_notMem).1, List.append_assoc]
    exact groupsVersion_eq_six.2 hgroups
  · exact groupsVersion_eq_six.2 ((accepted_iff_of_no_dot hdot).2 h)

theorem ipVersion_of_not {t : Text} (hq : ¬ IsQuad t) (h : ¬ IsAccepted t) : ipVersion t = 0 := by
  by_cases hcond : ':' ∈ t ∧ ∀ c ∈ t, IsV6Char c
  · rw [ipVersion_of_ok hq hcond.1 hcond.2]
    split_ifs with hdot hquad
    · rfl
    · obtain ⟨z, q, rfl, hcolon⟩ := exists_lastColon hcond.1
      rw [(lastColon_append z hcolon).2, Bool.not_eq_true', Bool.not_eq_false, isIPv4_iff] at hquad
      rw [(lastColon_append z hcolon).1, List.append_assoc]
      exact groupsVersion_eq_zero fun hgroups => h (isAccepted_of_groupsAccepted hquad hgroups)
    · exact groupsVersion_eq_zero (mt (accepted_iff_of_no_dot hdot).1 h)
  · rw [ipVersion, if_neg (mt isIPv4_iff.1 hq), if_pos]
    by_contra hok
    refine hcond ?_
    simp only [Bool.or_eq_true, decide_eq_true_eq, Bool.not_eq_true', not_or, not_not,
      Bool.not_eq_false, List.all_eq_true, isHex_eq] at hok
    refine ⟨hok.1, fun c hc => ?_⟩
    rcases hok.2 c hc with (hhex | rfl) | rfl
    · exact .inl hhex
    · exact .inr (.inr rfl)
    · exact .inr (.inl rfl)

end Console

end FerrumDns
