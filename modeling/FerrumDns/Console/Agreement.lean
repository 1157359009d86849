import FerrumDns.Api.Request
import FerrumDns.Console.Accepted
import FerrumDns.Fallible
import FerrumDns.Sample

/-! The console against the server. The version that the console gives an address is the one of
the address that the server reads, unless a colon stands alone at an end of a text that holds
a double one: the console, which looks at the ends of a text without a double colon only, lets
it pass, and the server refuses the query. -/

namespace FerrumDns

open Text AddressParse Fields

namespace Console

/-- The version of what the server reads. -/
def version : Option IpAddr → ℕ
  | none => 0
  | some (.v4 _) => 4
  | some (.v6 _) => 6

/-- An IPv6 address with a double colon, and a colon alone before or behind it. -/
def Stray (t : Text) : Prop := ∃ lead u trail, t = lead ++ u ++ trail ∧ lead ++ trail ≠ [] ∧
  (lead = [] ∨ lead = [':'] ∧ u.head? ≠ some ':') ∧
  (trail = [] ∨ trail = [':'] ∧ u.getLast? ≠ some ':' ∧ '.' ∉ u) ∧
  [':', ':'] <:+: u ∧ (parseIpv6 u).isSome

theorem isSome_parseIpv6 {t : Text} : (parseIpv6 t).isSome ↔ IsWhole t ∨ IsCompressed t := by
  rw [← isIpv6_iff, Option.isSome_iff_exists]
  exact exists_congr fun ip => parseWith_eq_some

theorem version_of_isQuad {t : Text} (h : IsQuad t) : version (parseIp t) = 4 := by
  obtain ⟨ip, hip⟩ := isIpv4_iff.2 h
  rw [hip.parseIp, version]

theorem version_of_isSome {t : Text} (h : (parseIpv6 t).isSome) : version (parseIp t) = 6 := by
  obtain ⟨ip, hip⟩ := Option.isSome_iff_exists.1 h
  rw [IsIpv6.parseIp (parseWith_eq_some.1 hip), version]

theorem version_of_not {t : Text} (hq : ¬ IsQuad t) (h : ¬ (parseIpv6 t).isSome) :
    version (parseIp t) = 0 := by
  cases hip : parseIp t with
  | none => rfl
  | some ip =>
    rw [parseIp, parseWith_eq_some, readIpAddr] at hip
    cases hv4 : readIpv4Addr t with
    | some x =>
      obtain ⟨v4, rest⟩ := x
      rw [hv4] at hip
      cases hip
      exact absurd (isIpv4_iff.1 ⟨v4, hv4⟩) hq
    | none =>
      rw [hv4] at hip
      obtain ⟨⟨v6, rest⟩, hv6, hx⟩ := Option.map_eq_some_iff.1 hip
      cases hx
      exact absurd (Option.isSome_iff_exists.2 ⟨v6, parseWith_eq_some.2 hv6⟩) h

theorem isSome_iff_version {t : Text} : (parseIp t).isSome ↔ version (parseIp t) ≠ 0 := by
  rcases parseIp t with _ | (ip | ip) <;> simp [version]

/-! ### Ends -/

theorem spell_ne_nil {ws : List Text} (h : Plain ':' ws) (hne : ws ≠ []) : spell 0 ws ≠ [] := by
  intro hnil
  have hfields := fields_intercalate h
  rw [show [':'].intercalate ws = [] from hnil, fields_nil] at hfields
  exact hne hfields.symm

theorem head?_spell {ws : List Text} (h : Plain ':' ws) (rest : Text) :
    (spell 0 ws ++ ':' :: rest).head? = some ':' ↔ ws = [] := by
  constructor
  · intro hhead
    by_contra hne
    rw [List.head?_append_of_ne_nil _ (spell_ne_nil h hne)] at hhead
    exact head?_intercalate h hhead
  · rintro rfl
    rw [spell_nil]
    rfl

theorem getLast?_spell {ws : List Text} (h : Plain ':' ws) (before : Text) :
    (before ++ ':' :: spell 0 ws).getLast? = some ':' ↔ ws = [] := by
  constructor
  · intro hlast
    by_contra hne
    rw [List.append_cons, List.getLast?_append_of_ne_nil _ (spell_ne_nil h hne)] at hlast
    exact getLast?_intercalate h hlast
  · rintro rfl
    rw [spell_nil, List.getLast?_concat]

/-- What the console lets pass are addresses, and those with a stray colon. -/
theorem isAccepted_iff {t : Text} : IsAccepted t ↔ (parseIpv6 t).isSome ∨ Stray t := by
  constructor
  · rintro (hw | ⟨v4, lead, l, r, trail, hloose, hv4, rfl⟩)
    · exact .inl (isSome_parseIpv6.2 (.inl hw))
    · obtain ⟨n, m, hl, hr, hle⟩ := hloose.groups
      have hu : (parseIpv6 (spell 0 l ++ ':' :: ':' :: spell 0 r)).isSome :=
        isSome_parseIpv6.2 (.inr ⟨l, n, v4, r, m, hl, hr, hle, rfl⟩)
      by_cases hends : lead ++ trail = []
      · obtain ⟨rfl, rfl⟩ := List.append_eq_nil_iff.1 hends
        exact .inl (by simpa using hu)
      · refine .inr ⟨lead, _, trail, rfl, hends, ?_, ?_, ⟨spell 0 l, spell 0 r, by simp⟩, hu⟩
        · refine hloose.lead.imp_right fun ⟨hlead, hne⟩ => ⟨hlead, ?_⟩
          rwa [ne_eq, head?_spell hl.plain]
        · refine hloose.trail.imp_right fun ⟨htrail, hne⟩ => ⟨htrail, ?_, ?_⟩
          · rwa [List.append_cons, ne_eq, getLast?_spell hr.plain]
          · have hfalse : ¬ v4 = true := fun htrue => by
              rw [hv4 htrue] at htrail
              cases htrail
            have hl' := hl.dot_mem_iff
            have hr' := hr.dot_mem_iff
            simp [hl', hr', hfalse]
  · rintro (h | ⟨lead, u, trail, rfl, hends, hlead, htrail, hdouble, hu⟩)
    · rcases isSome_parseIpv6.1 h with hw | ⟨l, n, v4, r, m, hl, hr, hle, rfl⟩
      · exact .inl hw
      · exact .inr ⟨v4, [], l, r, [], ⟨⟨n, m, hl, hr, hle⟩, .inl rfl, .inl rfl⟩, fun _ => rfl,
          by simp⟩
    · rcases isSome_parseIpv6.1 hu with ⟨v4, ws, hws, rfl⟩ | ⟨l, n, v4, r, m, hl, hr, hle, rfl⟩
      · exact absurd (List.infix_cons hdouble) fun hd =>
          not_doubled_trail hws.plain (.inl rfl) (by rwa [List.append_nil])
      · refine .inr ⟨v4, lead, l, r, trail, ⟨⟨n, m, hl, hr, hle⟩, ?_, ?_⟩, ?_, rfl⟩
        · refine hlead.imp_right fun ⟨hlead, hhead⟩ => ⟨hlead, ?_⟩
          rwa [ne_eq, head?_spell hl.plain] at hhead
        · refine htrail.imp_right fun ⟨htrail, hlast, _⟩ => ⟨htrail, ?_⟩
          rwa [List.append_cons, ne_eq, getLast?_spell hr.plain] at hlast
        · intro htrue
          refine htrail.resolve_right fun h => h.2.2 ?_
          simp [hr.dot_mem_iff.2 htrue]

theorem Stray.not_isQuad {t : Text} (h : Stray t) : ¬ IsQuad t := fun hq =>
  hq.colon_notMem (isAccepted_iff.2 (.inr h)).ok.1

/-- An address that begins or ends with a colon does so with two. -/
theorem ends_of_isSome {t : Text} (h : (parseIpv6 t).isSome) :
    (t.head? = some ':' → ∃ s, t = ':' :: ':' :: s) ∧
      (t.getLast? = some ':' → ∃ s, t = s ++ [':', ':']) := by
  rcases isSome_parseIpv6.1 h with ⟨v4, ws, hws, rfl⟩ | ⟨l, n, v4, r, m, hl, hr, -, rfl⟩
  · exact ⟨fun hhead => absurd hhead (head?_intercalate hws.plain),
      fun hlast => absurd hlast (getLast?_intercalate hws.plain)⟩
  · constructor
    · intro hhead
      rw [head?_spell hl.plain] at hhead
      exact ⟨spell 0 r, by rw [hhead, spell_nil]; rfl⟩
    · intro hlast
      rw [List.append_cons, getLast?_spell hr.plain] at hlast
      exact ⟨spell 0 l, by rw [hlast, spell_nil]⟩

/-- The standard library takes no colon that stands alone at an end. -/
theorem Stray.not_isSome {t : Text} (h : Stray t) : ¬ (parseIpv6 t).isSome := by
  obtain ⟨lead, u, trail, rfl, hends, hlead, htrail, hdouble, -⟩ := h
  intro hs
  obtain ⟨hhead, hlast⟩ := ends_of_isSome hs
  have hne : u ≠ [] := List.ne_nil_of_mem (hdouble.subset List.mem_cons_self)
  rcases hlead with rfl | ⟨rfl, hu⟩
  · rcases htrail with rfl | ⟨rfl, hu, -⟩
    · exact hends rfl
    · obtain ⟨s, hs⟩ := hlast List.getLast?_concat
      have hconcat : u ++ [':'] = s ++ [':'] ++ [':'] := by simpa using hs
      have hinit := List.append_cancel_right hconcat
      exact hu (by rw [hinit, List.getLast?_concat])
  · obtain ⟨s, hs⟩ := hhead rfl
    have htail : u ++ trail = ':' :: s := (List.cons.inj hs).2
    rw [← List.head?_append_of_ne_nil u hne, htail] at hu
    exact hu rfl

/-- The versions agree but where a colon is stray. -/
theorem ipVersion_eq_iff (t : Text) : ipVersion t = version (parseIp t) ↔ ¬ Stray t := by
  by_cases hq : IsQuad t
  · rw [ipVersion_of_isQuad hq, version_of_isQuad hq]
    exact iff_of_true rfl fun h => h.not_isQuad hq
  · by_cases hs : (parseIpv6 t).isSome
    · rw [ipVersion_of_isAccepted (isAccepted_iff.2 (.inl hs)), version_of_isSome hs]
      exact iff_of_true rfl fun h => h.not_isSome hs
    · rw [version_of_not hq hs]
      by_cases hstray : Stray t
      · rw [ipVersion_of_isAccepted (isAccepted_iff.2 (.inr hstray))]
        exact iff_of_false (by decide) fun h => h hstray
      · rw [ipVersion_of_not hq fun h => (isAccepted_iff.1 h).elim hs hstray]
        exact iff_of_true rfl hstray

/-! ### Queries -/

theorem isSome_parseIp_iff {t : Text} (h : ipVersion t ≠ 0) : (parseIp t).isSome ↔ ¬ Stray t := by
  rw [isSome_iff_version, ← ipVersion_eq_iff]
  constructor
  · intro hversion
    by_contra hne
    have hstray : Stray t := by
      rw [ipVersion_eq_iff, not_not] at hne
      exact hne
    exact hversion (version_of_not hstray.not_isQuad hstray.not_isSome)
  · intro heq
    rwa [← heq]

theorem not_stray_nil : ¬ Stray [] := fun h => by
  have hcolon := (isAccepted_iff.2 (.inr h)).ok.1
  cases hcolon

theorem ok_of_ipVersion {t : Text} (h : ipVersion t ≠ 0) : ∀ c ∈ t, IsV6Char c := by
  by_cases hq : IsQuad t
  · obtain ⟨ip, hip⟩ := isIpv4_iff.2 hq
    exact fun c hc => (hip.ok c hc).isV6Char
  · by_contra hok
    exact h (ipVersion_of_not hq fun ha => hok ha.ok.2)

theorem isWhitespace_of_range {c : Char} (h : 46 ≤ c.toNat ∧ c.toNat ≤ 102) :
    isWhitespace c = false := by
  simp [isWhitespace]
  omega

theorem range_of_isV6Char {c : Char} (h : IsV6Char c) : 46 ≤ c.toNat ∧ c.toNat ≤ 102 ∧ c ≠ '/' := by
  rcases h with h | rfl | rfl
  · have hrange := toNat_of_isDigitOf h
    refine ⟨by omega, hrange.2, ?_⟩
    rintro rfl
    exact absurd h (by decide)
  · decide
  · decide

/-- A prefix length of the console is one of the server. -/
theorem isSome_parseBelow {p : Text} (hpos : 1 ≤ p.length) (hdigits : p.all Char.isDigit = true)
    (hlt : number p < 256) : (parseBelow 256 p).isSome := by
  have hne : p ≠ [] := List.ne_nil_of_length_pos hpos
  have hplus : p.head? ≠ some '+' := fun h => by
    have hdigit := List.all_eq_true.1 hdigits _ (List.mem_of_mem_head? h)
    exact absurd hdigit (by decide)
  rw [parseBelow]
  simp only [if_neg hplus]
  rw [dif_pos ⟨hne, hdigits, hlt⟩, Option.isSome_some]

/-- What is posted has passed the checks. -/
theorem validateQuery_eq_ok {toUpperCase : Text → Text} {values : Values} {payload : Payload}
    (h : validateQuery toUpperCase values = .ok payload) :
    payload.client_ip = given (text values.client_ip) ∧ payload.ecs = given (text values.ecs) ∧
    (text values.client_ip ≠ [] → ipVersion (text values.client_ip) ≠ 0) ∧
    (text values.ecs ≠ [] → ∃ a p, text values.ecs = a ++ '/' :: p ∧ ipVersion a ≠ 0 ∧
      ((text values.ecs).splitOn '/').headD [] = a ∧ (parseBelow 256 p).isSome ∧
      ∀ c ∈ p, c.isDigit = true) := by
  simp only [validateQuery, Fallible.ite_error_eq_ok] at h
  obtain ⟨-, -, hclient, hecs, h⟩ := h
  cases h
  refine ⟨rfl, rfl, fun hne hzero => hclient ⟨hne, hzero⟩, fun hne => ?_⟩
  have hspec := not_and.1 hecs hne
  simp only [not_or, not_not, not_lt] at hspec
  obtain ⟨hlen, hversion, ⟨hpos, -, hdigits⟩, hle⟩ := hspec
  obtain ⟨a, p, hparts⟩ := List.length_eq_two.1 hlen
  rw [hparts] at hversion hpos hdigits hle ⊢
  have hlt : number p < 256 := lt_of_le_of_lt hle (by split_ifs <;> decide)
  refine ⟨a, p, ?_, hversion, rfl, isSome_parseBelow hpos hdigits hlt, List.all_eq_true.1 hdigits⟩
  have hwhole : ['/'].intercalate ((text values.ecs).splitOn '/') = text values.ecs :=
    List.intercalate_splitOn '/'
  rw [← hwhole, hparts]
  simp [List.intercalate_cons_cons]

/-- The server reads what the console posts, but for stray colons. -/
theorem readable_iff [Crates] {toUpperCase : Text → Text} {values : Values} {payload : Payload}
    (h : validateQuery toUpperCase values = .ok payload) :
    ((∀ ip ∈ payload.client_ip, (parseIp ip).isSome) ∧
        ∀ spec ∈ payload.ecs, (Dnsutil.parseEcsSpec spec).isOk) ↔
      ¬ Stray (text values.client_ip) ∧ ¬ Stray (((text values.ecs).splitOn '/').headD []) := by
  obtain ⟨hip, hecs, hclient, hspec⟩ := validateQuery_eq_ok h
  rw [hip, hecs]
  refine and_congr ?_ ?_
  · by_cases hne : text values.client_ip = []
    · simp [given, hne, not_stray_nil]
    · simp only [given, if_neg hne, Option.mem_def, Option.some.injEq, forall_eq']
      exact isSome_parseIp_iff (hclient hne)
  · by_cases hne : text values.ecs = []
    · simp [given, hne, not_stray_nil]
    · obtain ⟨a, p, hcut, hversion, hhead, hp, hdigits⟩ := hspec hne
      have ha := ok_of_ipVersion hversion
      have hwhite : ∀ c ∈ a ++ '/' :: p, isWhitespace c = false := by
        rw [List.forall_mem_append, List.forall_mem_cons]
        refine ⟨fun c hc => ?_, by decide, fun c hc => ?_⟩
        · have hrange := range_of_isV6Char (ha c hc)
          exact isWhitespace_of_range ⟨hrange.1, hrange.2.1⟩
        · have hrange : 48 ≤ c.toNat ∧ c.toNat ≤ 57 := Char.isDigit_iff_toNat.1 (hdigits c hc)
          exact isWhitespace_of_range (by omega)
      simp only [given, if_neg hne, Option.mem_def, Option.some.injEq, forall_eq', hhead]
      rw [hcut, Api.isOk_parseEcsSpec (fun hm => (range_of_isV6Char (ha _ hm)).2.2 rfl) hwhite hp]
      exact isSome_parseIp_iff hversion

/-- For every text the console gives the version that the server reads, and the server reads the
addresses of every query that the console posts, just where no colon is stray. -/
theorem validation_agrees_iff_not_stray [Crates] (toUpperCase : Text → Text) :
    (∀ s, ipVersion s = version (parseIp s) ↔ ¬ Stray s) ∧
    ∀ values payload, validateQuery toUpperCase values = .ok payload →
      (((∀ ip ∈ payload.client_ip, (parseIp ip).isSome) ∧
          ∀ spec ∈ payload.ecs, (Dnsutil.parseEcsSpec spec).isOk) ↔
        ¬ Stray (text values.client_ip) ∧ ¬ Stray (((text values.ecs).splitOn '/').headD [])) :=
  ⟨ipVersion_eq_iff, fun _ _ h => readable_iff h⟩

/-- A query with a subnet and a client, given as addresses of these texts. -/
def form (subnet client : String) : Values where
  name := some "a".toList
  qtype := none
  entry := none
  ecs := some subnet.toList
  client_ip := some client.toList

/-- What is posted of it. -/
def posted (subnet client : String) : Payload where
  name := "a".toList
  qtype := "A".toList
  entry := none
  client_ip := some client.toList
  ecs := some subnet.toList

theorem validation_agrees_on_posted :
    validateQuery id (form "2001:db8::/48" "::1") = .ok (posted "2001:db8::/48" "::1") ∧
    (((∀ ip ∈ (posted "2001:db8::/48" "::1").client_ip, (parseIp ip).isSome) ∧
        ∀ spec ∈ (posted "2001:db8::/48" "::1").ecs, (@Dnsutil.parseEcsSpec Sample.codec spec).isOk) ↔
      ¬ Stray (text (form "2001:db8::/48" "::1").client_ip) ∧
        ¬ Stray (((text (form "2001:db8::/48" "::1").ecs).splitOn '/').headD [])) :=
  ⟨by decide +kernel, (@validation_agrees_iff_not_stray Sample.codec id).2 _ _ (by decide +kernel)⟩

/-- A colon before an address with a double colon. -/
theorem stray_colon_is_posted : ipVersion ":1::2".toList = 6 ∧ parseIp ":1::2".toList = none ∧
    validateQuery id (form ":1::2/64" ":1::2") = .ok (posted ":1::2/64" ":1::2") ∧
    (@Dnsutil.parseEcsSpec Sample.codec ":1::2/64".toList).isOk = false := by
  decide +kernel

end Console

end FerrumDns
