import FerrumDns.Upstream.Dial

/-! The host and port taken from a URL. The authority is what stands between the first two
separators and before the first slash: it still has the userinfo, and without a path the
query and the fragment. -/

namespace FerrumDns

open Text AddressParse Target

/-! ### URLs -/

/-- `scheme://[userinfo@]host[:port][/path][?query][#fragment]` -/
structure Url where
  scheme : Text
  userinfo : Option Text
  endpoint : Endpoint
  path : Option Text
  query : Option Text
  fragment : Option Text
  scheme_plain : ':' ∉ scheme
  userinfo_plain : ∀ u ∈ userinfo, ∀ c ∈ u, c ∉ "/?#[]@".toList
  host_plain : ∀ c ∈ endpoint.host.text, c ∉ "@?#".toList
  host_ne_nil : endpoint.host.text ≠ []
  not_bare : endpoint.host.isBare = false

namespace Url

/-- An optional part behind its mark. -/
def marked (c : Char) : Option Text → Text
  | none => []
  | some t => c :: t

def userinfoText (u : Url) : Text := (u.userinfo.map (· ++ ['@'])).getD []

/-- Query and fragment. -/
def tail (u : Url) : Text := marked '?' u.query ++ marked '#' u.fragment

def render (u : Url) : Text :=
  u.scheme ++ "://".toList ++
    (u.userinfoText ++ u.endpoint.render ++ (marked '/' u.path ++ u.tail))

/-- Host and port as the URL has them. -/
def hostPort (u : Url) (default : UInt16) : Text × UInt16 :=
  (lowercase u.endpoint.host.text, u.endpoint.port.getD default)

end Url

/-! ### The authority -/

/-- What is read as the authority ends at a slash, or at the colon before it. -/
theorem authority_cases (r : Text) :
    beforePath (((splitOnText "://".toList r).map Prod.fst).getD r) = r.takeWhile (· ≠ '/') ∨
      r.takeWhile (· ≠ '/') =
        beforePath (((splitOnText "://".toList r).map Prod.fst).getD r) ++ [':'] := by
  cases hcut : splitOnText "://".toList r with
  | none => exact .inl (Endpoint.beforePath_eq r)
  | some parts =>
    obtain ⟨a, b⟩ := parts
    have hr : r = a ++ ':' :: '/' :: '/' :: b := by
      rw [eq_of_splitOnText hcut]
      simp
    rw [Option.map_some, Option.getD_some, Endpoint.beforePath_eq]
    by_cases ha : '/' ∈ a
    · left
      obtain ⟨x, y, rfl⟩ := List.append_of_mem ha
      have hassoc : r = x ++ '/' :: (y ++ ':' :: '/' :: '/' :: b) := by rw [hr]; simp
      rw [hassoc, takeWhile_append_stop (by simp), takeWhile_append_stop (by simp)]
    · right
      have hall : ∀ c ∈ a, decide (c ≠ '/') = true := fun c hc => by
        simpa using fun hs : c = '/' => ha (hs ▸ hc)
      have hassoc : r = (a ++ [':']) ++ '/' :: '/' :: b := by rw [hr]; simp
      rw [hassoc, takeWhile_append_stop (by simp), List.takeWhile_eq_self_iff.2 hall,
        List.takeWhile_eq_self_iff]
      intro c hc
      rcases List.mem_append.1 hc with hc | hc
      · exact hall c hc
      · rw [List.mem_singleton.1 hc]
        decide

/-! ### Marks -/

/-- The marks of userinfo, query and fragment. -/
def IsMark (c : Char) : Prop := c ∈ "@?#".toList

theorem IsMark.cases {z : Char} (h : IsMark z) : z = '@' ∨ z = '?' ∨ z = '#' := by
  simpa [IsMark] using h

theorem IsMark.not_digit {z : Char} (h : IsMark z) : z.isDigit = false := by
  rcases h.cases with rfl | rfl | rfl <;> rfl

theorem parseU16_eq_none {z : Char} (hz : IsMark z) {p : Text} (h : z ∈ p) : parseU16 p = none := by
  have hplus : z ≠ '+' := by rcases hz.cases with rfl | rfl | rfl <;> decide
  have hmem : z ∈ (if p.head? = some '+' then p.tail else p) := by
    split_ifs with hhead
    · cases p with
      | nil => cases h
      | cons c p =>
        obtain rfl : c = '+' := Option.some.inj hhead
        exact (List.mem_cons.1 h).resolve_left hplus
    · exact h
  rw [parseU16, parseBelow, dif_neg, Option.map_none]
  rintro ⟨-, hall, -⟩
  have hd := List.all_eq_true.1 hall z hmem
  rw [hz.not_digit] at hd
  cases hd

/-- A mark stays in what is taken for the host. -/
theorem mark_mem_hostOf {z : Char} (hz : IsMark z) {t : Text} (hslash : '/' ∉ t)
    (hhead : t.head? ≠ some '[') (h : z ∈ t) : z ∈ hostOf t := by
  have hstrip : stripPrefix ['['] t = none := by
    refine stripPrefix_eq_none ?_
    rintro ⟨r, rfl⟩
    exact hhead rfl
  have hv6 : parseIpv6 t = none := by
    cases hp : parseIpv6 t with
    | none => rfl
    | some ip =>
      have hok := IsIpv6.ok (parseWith_eq_some.1 hp) z h
      rcases hz.cases with rfl | rfl | rfl
      all_goals
        rcases hok with hok | hok | hok
        · exact absurd hok (by decide)
        · cases hok
        · cases hok
  rw [hostOf, Endpoint.beforePath_of_notMem hslash, hstrip]
  simp only [hv6, Option.isSome_none, Bool.false_eq_true, if_false]
  cases hcut : rsplitOnce ':' t with
  | none => exact h
  | some parts =>
    obtain ⟨a, p⟩ := parts
    simp only
    split_ifs with hport
    · -- The port is a number, so the mark is before it.
      rw [eq_of_rsplitOnce hcut] at h
      rcases List.mem_append.1 h with h | h
      · exact h
      · rcases List.mem_cons.1 h with rfl | h
        · rcases hz.cases with hc | hc | hc <;> cases hc
        · rw [parseU16_eq_none hz h] at hport
          cases hport
    · exact h

theorem mark_of_toLower {z c : Char} (hz : IsMark z) (h : c.toLower = z) : c = z := by
  by_cases hc : c.val ≥ 'A'.val ∧ c.val ≤ 'Z'.val
  · -- A letter becomes a letter.
    have hlower : z.val = c.val + ('a'.val - 'A'.val) :=
      h ▸ congrArg Char.val (dif_pos hc : c.toLower = _)
    have hnat := congrArg UInt32.toNat hlower
    have hlow := UInt32.le_iff_toNat_le.1 hc.1
    have hhigh := UInt32.le_iff_toNat_le.1 hc.2
    rcases hz.cases with rfl | rfl | rfl
    all_goals
      simp at hnat hlow hhigh
      omega
  · have hlower : c.toLower = c := dif_neg hc
    rwa [hlower] at h

theorem mark_mem_lowercase {z : Char} (hz : IsMark z) {t : Text} :
    z ∈ lowercase t ↔ z ∈ t := by
  constructor
  · intro h
    obtain ⟨c, hc, hcz⟩ := List.mem_map.1 h
    exact mark_of_toLower hz hcz ▸ hc
  · intro h
    refine List.mem_map.2 ⟨z, h, ?_⟩
    rcases hz.cases with rfl | rfl | rfl <;> rfl

namespace Url

variable {u : Url}

/-- What is read as the authority. -/
def authority (u : Url) : Text :=
  let rest := u.userinfoText ++ u.endpoint.render ++ (marked '/' u.path ++ u.tail)
  beforePath (((splitOnText "://".toList rest).map Prod.fst).getD rest)

theorem urlHostPort_render (default : UInt16) : urlHostPort u.render default =
    (lowercase (hostOf u.authority), portOf u.authority default) := by
  have hcut : splitOnText "://".toList u.render = some (u.scheme,
      u.userinfoText ++ u.endpoint.render ++ (marked '/' u.path ++ u.tail)) := by
    refine splitOnText_append (by decide) _ fun x y hxy hy hprefix => ?_
    obtain ⟨c, y, rfl⟩ := List.exists_cons_of_ne_nil hy
    obtain ⟨r, hr⟩ := hprefix
    obtain rfl : ':' = c := (List.cons.inj (hr : ':' :: '/' :: '/' :: r = c :: _)).1
    exact u.scheme_plain (hxy ▸ by simp)
  simp only [urlHostPort, hcut]
  rfl

/-- Userinfo, host and port. -/
def login (u : Url) : Text := u.userinfoText ++ u.endpoint.render

theorem slash_notMem_login : '/' ∉ u.login := by
  intro h
  rcases List.mem_append.1 h with h | h
  · rw [userinfoText] at h
    cases hu : u.userinfo with
    | none => simp [hu] at h
    | some t =>
      have hplain := u.userinfo_plain t hu
      simp only [hu, Option.map_some, Option.getD_some, List.mem_append, List.mem_singleton] at h
      rcases h with h | h
      · exact absurd (hplain _ h) (by decide)
      · cases h
  · exact u.endpoint.slash_notMem_render h

theorem render_ne_nil : u.endpoint.render ≠ [] := by
  intro h
  have hhost := (List.append_eq_nil_iff.1 h).1
  have hne := u.host_ne_nil
  cases hh : u.endpoint.host with
  | name t ht => exact hne (by rw [hh] at hhost ⊢; exact hhost)
  | ipv4 t ip ht => exact hne (by rw [hh] at hhost ⊢; exact hhost)
  | ipv6 t ip ht => exact hne (by rw [hh] at hhost ⊢; exact hhost)
  | bracketed t ip ht => simp [hh, Host.render] at hhost

theorem login_ne_colon {x : Text} : u.login ≠ x ++ [':'] := by
  intro h
  have hlast : u.endpoint.render.getLast? = some ':' := by
    rw [← List.getLast?_append_of_ne_nil u.userinfoText render_ne_nil]
    exact (congrArg List.getLast? h).trans List.getLast?_concat
  obtain ⟨y, hy⟩ := List.getLast?_eq_some_iff.1 hlast
  have hbare := Address.isBare_of_render hy
  rw [u.not_bare] at hbare
  cases hbare

theorem tail_cases (u : Url) : u.tail = [] ∨ ∃ z k, IsMark z ∧ u.tail = z :: k := by
  rw [tail]
  cases u.query with
  | some q => exact .inr ⟨'?', _, by simp [IsMark], rfl⟩
  | none =>
    cases u.fragment with
    | some f => exact .inr ⟨'#', _, by simp [IsMark], rfl⟩
    | none => exact .inl rfl

/-- The authority is read up to the path, and without one into the query or the fragment. -/
theorem authority_eq (u : Url) :
    ((u.path.isSome = true ∨ u.tail = []) ∧ u.authority = u.login) ∨
      (u.path = none ∧ ∃ z k, IsMark z ∧ u.tail ≠ [] ∧ u.authority = u.login ++ z :: k) := by
  have hlogin : ∀ c ∈ u.login, decide (c ≠ '/') = true := fun c hc => by
    simpa using fun hs : c = '/' => slash_notMem_login (hs ▸ hc)
  have hcases := authority_cases (u.login ++ (marked '/' u.path ++ u.tail))
  change u.authority = _ ∨ _ = u.authority ++ [':'] at hcases
  have exact_login (h : (u.login ++ (marked '/' u.path ++ u.tail)).takeWhile (· ≠ '/') = u.login) :
      u.authority = u.login := by
    rw [h] at hcases
    rcases hcases with hcases | hcases
    · exact hcases
    · exact absurd hcases login_ne_colon
  cases hpath : u.path with
  | some p =>
    refine .inl ⟨.inl rfl, exact_login ?_⟩
    rw [hpath]
    exact (takeWhile_append_stop (by simp) _ _).trans (List.takeWhile_eq_self_iff.2 hlogin)
  | none =>
    rcases u.tail_cases with htail | ⟨z, k, hz, htail⟩
    · refine .inl ⟨.inr htail, exact_login ?_⟩
      rw [hpath, htail]
      simpa [marked] using hlogin
    · right
      have hslash : z ≠ '/' := by rcases hz.cases with rfl | rfl | rfl <;> decide
      have hcolon : z ≠ ':' := by rcases hz.cases with rfl | rfl | rfl <;> decide
      have htake : (u.login ++ (marked '/' u.path ++ u.tail)).takeWhile (· ≠ '/') =
          u.login ++ z :: k.takeWhile (· ≠ '/') := by
        rw [hpath, htail, marked, List.nil_append, List.takeWhile_append_of_pos hlogin,
          List.takeWhile_cons_of_pos (by simpa using hslash)]
      rw [htake] at hcases
      rcases hcases with hcases | hcases
      · exact ⟨rfl, z, _, hz, by simp [htail], hcases⟩
      · -- The colon that is lost is not the mark.
        refine ⟨rfl, z, (k.takeWhile (· ≠ '/')).dropLast, hz, by simp [htail], ?_⟩
        have hne : k.takeWhile (· ≠ '/') ≠ [] := by
          intro hnil
          rw [hnil] at hcases
          have hlast := congrArg List.getLast? hcases
          rw [List.getLast?_concat, List.getLast?_concat] at hlast
          exact hcolon (Option.some.inj hlast)
        have hdrop := congrArg List.dropLast hcases
        rw [List.dropLast_concat, List.dropLast_append_of_ne_nil (by simp),
          List.dropLast_cons_of_ne_nil hne] at hdrop
        exact hdrop.symm

theorem slash_notMem_authority (u : Url) : '/' ∉ u.authority := by
  rw [authority, Endpoint.beforePath_eq]
  intro h
  simpa using List.mem_takeWhile_imp h

/-- What is taken for the host has the marks that the authority has. -/
theorem urlHostPort_ne {z : Char} (hz : IsMark z) (hmem : z ∈ u.authority)
    (hhead : u.authority.head? ≠ some '[') (default : UInt16) :
    urlHostPort u.render default ≠ u.hostPort default := by
  intro h
  rw [urlHostPort_render, hostPort] at h
  have hhost := mark_mem_hostOf hz u.slash_notMem_authority hhead hmem
  rw [← mark_mem_lowercase hz, (Prod.mk.inj h).1, mark_mem_lowercase hz] at hhost
  exact u.host_plain z hhost hz

/-- In brackets the host is found, but a port before a mark is not. -/
theorem hostOf_portOf_mark {a t k : Text} {ip : Ipv6Addr} (h : IsIpv6 t ip) {z : Char}
    (hz : IsMark z) {port : Option UInt16} (ha : a = '[' :: t ++ [']'] ++ portText port ++ z :: k)
    (hslash : '/' ∉ a) (default : UInt16) : hostOf a = t ∧ portOf a default = default := by
  have hstrip : stripPrefix ['['] a = some (t ++ ']' :: (portText port ++ z :: k)) := by
    rw [stripPrefix_eq_some, ha]
    simp
  have hsplit := List.splitOn_append_cons_self_of_not_mem (Endpoint.close_notMem h)
    (portText port ++ z :: k)
  obtain ⟨first, more, hmore⟩ :=
    List.exists_cons_of_ne_nil (List.splitOn_ne_nil ']' (portText port ++ z :: k))
  have hport : ∀ c ∈ portText port, decide (c ≠ ']') = true := fun c hc => by
    simpa using fun hs : c = ']' => Endpoint.notMem_portText (.inr (.inr rfl)) port (hs ▸ hc)
  have hfirst : first = portText port ++ z :: k.takeWhile (· ≠ ']') := by
    have hz' : z ≠ ']' := by rcases hz.cases with rfl | rfl | rfl <;> decide
    have hhead := headD_splitOn ']' (portText port ++ z :: k)
    rwa [hmore, List.headD_cons, List.takeWhile_append_of_pos hport,
      List.takeWhile_cons_of_pos (by simpa using hz')] at hhead
  constructor
  · rw [hostOf, Endpoint.beforePath_of_notMem hslash, hstrip]
    simp only [hsplit, List.headD_cons]
  · rw [portOf, Endpoint.beforePath_of_notMem hslash, hstrip]
    simp only [hsplit, hmore, List.getElem?_cons_succ, List.getElem?_cons_zero, Option.bind_some,
      hfirst]
    cases port with
    | none =>
      have hcolon : ¬ [':'] <+: z :: k.takeWhile (· ≠ ']') := by
        rintro ⟨r, hr⟩
        obtain rfl := (List.cons.inj hr).1
        rcases hz.cases with hc | hc | hc <;> cases hc
      rw [portText, List.nil_append, stripPrefix_eq_none hcolon]
      rfl
    | some p =>
      have hnum : stripPrefix [':'] (portText (some p) ++ z :: k.takeWhile (· ≠ ']')) =
          some (decimal p.toNat ++ z :: k.takeWhile (· ≠ ']')) := stripPrefix_append [':'] _
      rw [hnum, Option.bind_some, parseU16_eq_none hz (by simp)]
      rfl

/-- An address in brackets. -/
def Bracketed : Host → Prop
  | .bracketed _ _ _ => True
  | _ => False

/-- The mark of the userinfo is part of the host. -/
theorem urlHostPort_of_userinfo {v : Text} (huser : u.userinfo = some v) (default : UInt16) :
    urlHostPort u.render default ≠ u.hostPort default := by
  have hlogin : u.login = v ++ '@' :: u.endpoint.render := by
    rw [login, userinfoText, huser]
    simp
  obtain ⟨k, hk⟩ : ∃ k, u.authority = u.login ++ k := by
    rcases u.authority_eq with ⟨-, h⟩ | ⟨-, z, k, -, -, h⟩
    · exact ⟨[], by rw [h, List.append_nil]⟩
    · exact ⟨z :: k, h⟩
  refine urlHostPort_ne (z := '@') (by simp [IsMark]) (by simp [hk, hlogin]) ?_ default
  rw [hk, hlogin]
  cases v with
  | nil => simp
  | cons c v =>
    intro hhead
    obtain rfl : c = '[' := Option.some.inj hhead
    exact absurd (u.userinfo_plain _ huser '[' (by simp)) (by decide)

/-- The host with its port alone is read as it stands. -/
theorem urlHostPort_of_endpoint (h : u.authority = u.endpoint.render) (default : UInt16) :
    urlHostPort u.render default = u.hostPort default := by
  have hr : beforePath u.authority = u.endpoint.render := by rw [h, Endpoint.beforePath_render]
  rw [urlHostPort_render, Endpoint.hostOf_eq hr, Endpoint.portOf_eq hr]
  rfl

/-- Followed by a mark, an address in brackets is still found, without its port. -/
theorem urlHostPort_marked_iff {z : Char} (hz : IsMark z) {k : Text}
    (h : u.authority = u.endpoint.render ++ z :: k) (default : UInt16) :
    urlHostPort u.render default = u.hostPort default ↔
      Bracketed u.endpoint.host ∧ u.endpoint.port.getD default = default := by
  have hplain {t : Text} (ht : Plain t) (htext : u.endpoint.host.text = t)
      (hrender : u.endpoint.host.render = t) :
      urlHostPort u.render default ≠ u.hostPort default := by
    refine urlHostPort_ne hz (by simp [h]) ?_ default
    obtain ⟨c, r, rfl⟩ := List.exists_cons_of_ne_nil (htext ▸ u.host_ne_nil)
    rw [h, Endpoint.render, hrender]
    intro hhead
    exact (ht c (by simp)).2.2.1 (Option.some.inj hhead)
  cases hh : u.endpoint.host with
  | name t ht =>
    exact iff_of_false (hplain ht (by rw [hh]; rfl) (by rw [hh]; rfl)) (by simp [Bracketed])
  | ipv4 t ip ht =>
    exact iff_of_false (hplain ht.plain (by rw [hh]; rfl) (by rw [hh]; rfl)) (by simp [Bracketed])
  | ipv6 t ip ht =>
    have hbare := u.not_bare
    rw [hh] at hbare
    cases hbare
  | bracketed t ip ht =>
    rw [Endpoint.render, hh] at h
    obtain ⟨hhost, hport⟩ := hostOf_portOf_mark ht hz h u.slash_notMem_authority default
    rw [urlHostPort_render, hhost, hport, hostPort, hh, Prod.mk.injEq]
    simp [Bracketed, Host.text, eq_comm]

/-- The host and the port of a URL are found exactly when there is no userinfo, and a path, or no
query and no fragment, or an address in brackets with no port but the default one. -/
theorem urlHostPort_iff (u : Url) (default : UInt16) :
    urlHostPort u.render default = u.hostPort default ↔ u.userinfo = none ∧
      (u.path.isSome = true ∨ (u.query = none ∧ u.fragment = none) ∨
        (Bracketed u.endpoint.host ∧ u.endpoint.port.getD default = default)) := by
  have htail : u.tail = [] ↔ u.query = none ∧ u.fragment = none := by
    rw [tail]
    cases u.query <;> cases u.fragment <;> simp [marked]
  cases huser : u.userinfo with
  | some v => exact iff_of_false (urlHostPort_of_userinfo huser default) (by simp)
  | none =>
    have hlogin : u.login = u.endpoint.render := by
      rw [login, userinfoText, huser]
      rfl
    rw [and_iff_right rfl, ← htail, ← or_assoc]
    rcases u.authority_eq with ⟨hexact, h⟩ | ⟨hpath, z, k, hz, hne, h⟩
    · exact iff_of_true (urlHostPort_of_endpoint (h.trans hlogin) default) (.inl hexact)
    · rw [hlogin] at h
      rw [urlHostPort_marked_iff hz h, hpath]
      simp [hne]

namespace Sample

/-- `https://name/dns-query`, with userinfo if there is one. -/
def url (userinfo : Option Text) (h : ∀ u ∈ userinfo, ∀ c ∈ u, c ∉ "/?#[]@".toList) : Url where
  scheme := "https".toList
  userinfo := userinfo
  endpoint := ⟨.name "DNS.test".toList (List.all_iff_forall_prop.mp (by decide)), some 8443, nofun⟩
  path := some "dns-query".toList
  query := none
  fragment := none
  scheme_plain := by decide
  userinfo_plain := h
  host_plain := List.all_iff_forall_prop.mp (by decide)
  host_ne_nil := by decide
  not_bare := rfl

/-- A user and a password before the host are taken for a part of it. -/
theorem userinfo_kept :
    urlHostPort (url (some "user:secret".toList) (by simp)).render 443 =
        ("user:secret@dns.test".toList, 8443) ∧
      urlHostPort (url (some "user:secret".toList) (by simp)).render 443 ≠
        (url (some "user:secret".toList) (by simp)).hostPort 443 := by
  decide +kernel

end Sample

end Url

end FerrumDns
