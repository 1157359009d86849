import FerrumDns.Text.Splitting
import FerrumDns.Upstream.Target

/-! A host with its port as text. A host is a name, an IPv4 address, or an IPv6 address
with or without brackets; what the text helpers find in the text is the host and the port
it was made from. -/

namespace FerrumDns

open Text AddressParse Target

/-! ### Hosts -/

/-- Without the characters that set a host off. -/
def Plain (t : Text) : Prop := ∀ c ∈ t, c ≠ ':' ∧ c ≠ '/' ∧ c ≠ '[' ∧ c ≠ ']'

inductive Host where
  | name (t : Text) (h : Plain t)
  | ipv4 (t : Text) (ip : Ipv4Addr) (h : IsIpv4 t ip)
  | ipv6 (t : Text) (ip : Ipv6Addr) (h : IsIpv6 t ip)
  | bracketed (t : Text) (ip : Ipv6Addr) (h : IsIpv6 t ip)

namespace Host

/-- The host itself. -/
def text : Host → Text
  | name t _ | ipv4 t _ _ | ipv6 t _ _ | bracketed t _ _ => t

def render : Host → Text
  | name t _ | ipv4 t _ _ | ipv6 t _ _ => t
  | bracketed t _ _ => '[' :: t ++ [']']

/-- With brackets, as a port needs them. -/
def close : Host → Host
  | ipv6 t ip h => bracketed t ip h
  | h => h

def ip : Host → Option IpAddr
  | name _ _ => none
  | ipv4 _ ip _ => some (.v4 ip)
  | ipv6 _ ip _ | bracketed _ ip _ => some (.v6 ip)

/-- An IPv6 address without brackets. -/
def isBare : Host → Bool
  | ipv6 _ _ _ => true
  | _ => false

end Host

/-- No address holds white space. -/
theorem AddressParse.IsV6Char.not_white {c : Char} (h : IsV6Char c) : isWhitespace c = false := by
  rcases h with h | rfl | rfl
  · have hrange := toNat_of_isDigitOf h
    simp only [isWhitespace, List.mem_cons, List.not_mem_nil, or_false, Bool.or_eq_false_iff,
      decide_eq_false_iff_not, Bool.and_eq_false_iff]
    omega
  · decide
  · decide

theorem AddressParse.IsIpv4.plain {t : Text} {ip : Ipv4Addr} (h : IsIpv4 t ip) : Plain t := by
  intro c hc
  rcases h.ok c hc with hd | rfl
  · refine ⟨?_, ?_, ?_, ?_⟩
    all_goals
      rintro rfl
      exact absurd hd (by decide)
  · decide

theorem AddressParse.IsIpv6.plain_brackets {t : Text} {ip : Ipv6Addr} (h : IsIpv6 t ip) :
    ∀ c ∈ t, c ≠ '/' ∧ c ≠ '[' ∧ c ≠ ']' := by
  intro c hc
  rcases h.ok c hc with hd | rfl | rfl
  · refine ⟨?_, ?_, ?_⟩
    all_goals
      rintro rfl
      exact absurd hd (by decide)
  · decide
  · decide

theorem plain_decimal (n : ℕ) : Plain (decimal n) := by
  intro c hc
  have hd := isDigitOf_of_mem_decimal hc
  refine ⟨?_, ?_, ?_, ?_⟩
  all_goals
    rintro rfl
    exact absurd hd (by decide)

/-! ### Endpoints -/

def portText : Option UInt16 → Text
  | none => []
  | some p => ':' :: decimal p.toNat

/-- A host and a port, which an IPv6 address has only in brackets. -/
structure Endpoint where
  host : Host
  port : Option UInt16
  bare_port : host.isBare = true → port = none

namespace Endpoint

def render (e : Endpoint) : Text := e.host.render ++ portText e.port

theorem parseU16_decimal (p : UInt16) : parseU16 (decimal p.toNat) = some p := by
  have hparse := parseBelow_decimal p.toFin
  have hn : decimal p.toNat = decimal p.toFin.val := rfl
  rw [parseU16, hn, hparse]
  simp

theorem beforePath_eq (t : Text) : beforePath t = t.takeWhile (· ≠ '/') := by
  rw [beforePath, ← headD_splitOn]
  obtain ⟨p, ps, hp⟩ := List.exists_cons_of_ne_nil (List.splitOn_ne_nil '/' t)
  rw [hp]
  rfl

theorem beforePath_of_notMem {t : Text} (h : '/' ∉ t) : beforePath t = t := by
  rw [beforePath_eq, List.takeWhile_eq_self_iff]
  intro c hc
  simpa using fun hs : c = '/' => h (hs ▸ hc)

/-- The port made explicit. -/
def withPort (e : Endpoint) (default : UInt16) : Endpoint where
  host := e.host.close
  port := some (e.port.getD default)
  bare_port h := by
    cases hh : e.host <;> simp [hh, Host.close, Host.isBare] at h

theorem notMem_portText {c : Char} (hc : c = '/' ∨ c = '[' ∨ c = ']') (port : Option UInt16) :
    c ∉ portText port := by
  cases port with
  | none => simp [portText]
  | some p =>
    intro h
    rcases List.mem_cons.1 h with rfl | h
    · simp at hc
    · have hplain := (plain_decimal _ c h).2
      rcases hc with rfl | rfl | rfl <;> simp at hplain

theorem slash_notMem_render (e : Endpoint) : '/' ∉ e.render := by
  have hport := notMem_portText (.inl rfl) e.port
  have hhost : '/' ∉ e.host.render := by
    cases e.host with
    | name t h => exact fun hm => (h _ hm).2.1 rfl
    | ipv4 t ip h => exact fun hm => (h.plain _ hm).2.1 rfl
    | ipv6 t ip h => exact fun hm => (h.plain_brackets _ hm).1 rfl
    | bracketed t ip h =>
      intro hm
      simp only [Host.render, List.cons_append, List.mem_cons, List.mem_append,
        List.not_mem_nil, or_false] at hm
      rcases hm with hm | hm | hm
      · cases hm
      · exact (h.plain_brackets _ hm).1 rfl
      · cases hm
  intro hm
  rcases List.mem_append.1 hm with hm | hm
  · exact hhost hm
  · exact hport hm

theorem beforePath_render (e : Endpoint) : beforePath e.render = e.render :=
  beforePath_of_notMem e.slash_notMem_render

/-! #### Hosts without colons -/

theorem count_plain {t : Text} (h : Plain t) (port : Option UInt16) :
    (t ++ portText port).count ':' = if port.isSome then 1 else 0 := by
  have hzero {t : Text} (h : Plain t) : t.count ':' = 0 :=
    List.count_eq_zero.2 fun hm => (h _ hm).1 rfl
  rw [List.count_append, hzero h]
  cases port with
  | none => rfl
  | some p =>
    rw [portText, List.count_cons_self, hzero (plain_decimal _)]
    rfl

theorem parseIpv6_plain {t : Text} (h : Plain t) (port : Option UInt16) :
    parseIpv6 (t ++ portText port) = none := by
  refine parseIpv6_eq_none ?_
  rw [count_plain h]
  split_ifs <;> omega

theorem bracket_notMem_plain {t : Text} (h : Plain t) (port : Option UInt16) :
    '[' ∉ t ++ portText port := by
  intro hm
  rcases List.mem_append.1 hm with hm | hm
  · exact (h _ hm).2.2.1 rfl
  · exact notMem_portText (.inr (.inl rfl)) port hm

theorem stripPrefix_bracket {t : Text} (h : '[' ∉ t) : stripPrefix ['['] t = none := by
  refine stripPrefix_eq_none ?_
  rintro ⟨r, rfl⟩
  exact h (by simp)

theorem hostOf_plain {rest t : Text} (h : Plain t) {port : Option UInt16}
    (hr : beforePath rest = t ++ portText port) : hostOf rest = t := by
  rw [hostOf, hr, stripPrefix_bracket (bracket_notMem_plain h port)]
  simp only [parseIpv6_plain h, Option.isSome_none, Bool.false_eq_true, if_false]
  cases port with
  | none =>
    rw [portText, List.append_nil, rsplitOnce_eq_none fun hm => (h _ hm).1 rfl]
  | some p =>
    rw [portText, rsplitOnce_of_notMem fun hm => (plain_decimal _ _ hm).1 rfl]
    simp [parseU16_decimal]

theorem portOf_plain {rest t : Text} (h : Plain t) {port : Option UInt16}
    (hr : beforePath rest = t ++ portText port) (default : UInt16) :
    portOf rest default = port.getD default := by
  rw [portOf, hr, stripPrefix_bracket (bracket_notMem_plain h port)]
  simp only [parseIpv6_plain h, Option.isSome_none, Bool.false_eq_true, if_false]
  cases port with
  | none =>
    rw [portText, List.append_nil, rsplitOnce_eq_none fun hm => (h _ hm).1 rfl]
    rfl
  | some p =>
    rw [portText, rsplitOnce_of_notMem fun hm => (plain_decimal _ _ hm).1 rfl]
    simp [parseU16_decimal]

theorem normalizeHostport_plain {rest t : Text} (h : Plain t) {port : Option UInt16}
    (hr : beforePath rest = t ++ portText port) (default : UInt16) :
    normalizeHostport rest default = t ++ portText (some (port.getD default)) := by
  have hhead : (t ++ portText port).head? ≠ some '[' :=
    fun hh => bracket_notMem_plain h port (List.mem_of_mem_head? hh)
  rw [normalizeHostport, hr]
  simp only [if_neg hhead, parseIpv6_plain h, Option.isSome_none, Bool.false_eq_true, if_false,
    count_plain h]
  cases port with
  | none => simp [portText]
  | some p => simp

/-! #### IPv6 hosts -/

theorem parseIpv6_of_isIpv6 {t : Text} {ip : Ipv6Addr} (h : IsIpv6 t ip) : parseIpv6 t = some ip :=
  parseWith_eq_some.2 h

theorem open_notMem {t : Text} {ip : Ipv6Addr} (h : IsIpv6 t ip) : '[' ∉ t :=
  fun hm => (h.plain_brackets _ hm).2.1 rfl

theorem close_notMem {t : Text} {ip : Ipv6Addr} (h : IsIpv6 t ip) : ']' ∉ t :=
  fun hm => (h.plain_brackets _ hm).2.2 rfl

theorem hostOf_bare {rest t : Text} {ip : Ipv6Addr} (h : IsIpv6 t ip) (hr : beforePath rest = t) :
    hostOf rest = t := by
  rw [hostOf, hr, stripPrefix_bracket (open_notMem h), parseIpv6_of_isIpv6 h]
  simp

theorem portOf_bare {rest t : Text} {ip : Ipv6Addr} (h : IsIpv6 t ip) (hr : beforePath rest = t)
    (default : UInt16) : portOf rest default = default := by
  rw [portOf, hr, stripPrefix_bracket (open_notMem h), parseIpv6_of_isIpv6 h]
  simp

theorem normalizeHostport_bare {rest t : Text} {ip : Ipv6Addr} (h : IsIpv6 t ip)
    (hr : beforePath rest = t) (default : UInt16) :
    normalizeHostport rest default = '[' :: t ++ [']'] ++ portText (some default) := by
  have hhead : t.head? ≠ some '[' := fun hh => open_notMem h (List.mem_of_mem_head? hh)
  rw [normalizeHostport, hr]
  simp [hhead, parseIpv6_of_isIpv6 h, portText]

theorem splitOn_bracketed {t : Text} {ip : Ipv6Addr} (h : IsIpv6 t ip) (port : Option UInt16) :
    (t ++ ']' :: portText port).splitOn ']' = [t, portText port] := by
  rw [List.splitOn_append_cons_self_of_not_mem (close_notMem h),
    List.splitOn_eq_singleton (notMem_portText (.inr (.inr rfl)) port)]

theorem stripPrefix_bracketed (t : Text) (port : Option UInt16) :
    stripPrefix ['['] ('[' :: t ++ [']'] ++ portText port) = some (t ++ ']' :: portText port) := by
  rw [stripPrefix_eq_some]
  simp

theorem hostOf_bracketed {rest t : Text} {ip : Ipv6Addr} (h : IsIpv6 t ip) {port : Option UInt16}
    (hr : beforePath rest = '[' :: t ++ [']'] ++ portText port) : hostOf rest = t := by
  rw [hostOf, hr, stripPrefix_bracketed]
  simp only [splitOn_bracketed h, List.headD_cons]

theorem portOf_bracketed {rest t : Text} {ip : Ipv6Addr} (h : IsIpv6 t ip) {port : Option UInt16}
    (hr : beforePath rest = '[' :: t ++ [']'] ++ portText port) (default : UInt16) :
    portOf rest default = port.getD default := by
  rw [portOf, hr, stripPrefix_bracketed]
  simp only [splitOn_bracketed h]
  cases port with
  | none => rfl
  | some p =>
    have hstrip : stripPrefix [':'] (':' :: decimal p.toNat) = some (decimal p.toNat) :=
      stripPrefix_append [':'] _
    simp [portText, hstrip, parseU16_decimal]

theorem normalizeHostport_bracketed {rest t : Text} {ip : Ipv6Addr} (h : IsIpv6 t ip)
    {port : Option UInt16} (hr : beforePath rest = '[' :: t ++ [']'] ++ portText port)
    (default : UInt16) :
    normalizeHostport rest default = '[' :: t ++ [']'] ++ portText (some (port.getD default)) := by
  have hhead : ('[' :: t ++ [']'] ++ portText port).head? = some '[' := rfl
  have hopen : ']' ∉ '[' :: t := by simp [close_notMem h]
  rw [normalizeHostport, hr]
  simp only [if_pos hhead]
  cases port with
  | some p =>
    refine if_pos ⟨'[' :: t, decimal p.toNat, ?_⟩
    simp [portText]
  | none =>
    -- The one closing bracket is the last character.
    have hinfix : ¬ "]:".toList <:+: '[' :: t ++ [']'] ++ portText none := by
      rintro ⟨x, y, hxy⟩
      have hx : ']' ∉ x := by
        intro hx
        have hcount := congrArg (List.count ']') hxy
        have hpos := List.count_pos_iff.2 hx
        simp [portText, List.count_append, List.count_eq_zero.2 (close_notMem h)] at hcount
        omega
      have hcut := congrArg (splitOnce ']') hxy
      have hassoc : x ++ "]:".toList ++ y = x ++ ']' :: ':' :: y := by simp
      rw [hassoc, splitOnce_of_notMem hx, portText, List.append_nil,
        splitOnce_of_notMem hopen] at hcut
      simp at hcut
    rw [if_neg hinfix]
    simp [portText]

/-! #### Any host -/

variable {e : Endpoint} {rest : Text}

theorem hostOf_eq (hr : beforePath rest = e.render) : hostOf rest = e.host.text := by
  rw [render] at hr
  cases hh : e.host with
  | name t h =>
    rw [hh] at hr
    exact hostOf_plain h hr
  | ipv4 t ip h =>
    rw [hh] at hr
    exact hostOf_plain h.plain hr
  | ipv6 t ip h =>
    rw [e.bare_port (by rw [hh]; rfl), portText, List.append_nil, hh] at hr
    exact hostOf_bare h hr
  | bracketed t ip h =>
    rw [hh] at hr
    exact hostOf_bracketed h hr

theorem portOf_eq (hr : beforePath rest = e.render) (default : UInt16) :
    portOf rest default = e.port.getD default := by
  rw [render] at hr
  cases hh : e.host with
  | name t h =>
    rw [hh] at hr
    exact portOf_plain h hr default
  | ipv4 t ip h =>
    rw [hh] at hr
    exact portOf_plain h.plain hr default
  | ipv6 t ip h =>
    have hport := e.bare_port (by rw [hh]; rfl)
    rw [hport, portText, List.append_nil, hh] at hr
    rw [hport]
    exact portOf_bare h hr default
  | bracketed t ip h =>
    rw [hh] at hr
    exact portOf_bracketed h hr default

/-- The target of an endpoint is the same host with its port. -/
theorem normalizeHostport_eq (hr : beforePath rest = e.render) (default : UInt16) :
    normalizeHostport rest default = (e.withPort default).render := by
  rw [render] at hr
  change _ = e.host.close.render ++ portText (some (e.port.getD default))
  cases hh : e.host with
  | name t h =>
    rw [hh] at hr
    exact normalizeHostport_plain h hr default
  | ipv4 t ip h =>
    rw [hh] at hr
    exact normalizeHostport_plain h.plain hr default
  | ipv6 t ip h =>
    have hport := e.bare_port (by rw [hh]; rfl)
    rw [hport, portText, List.append_nil, hh] at hr
    rw [hport]
    exact normalizeHostport_bare h hr default
  | bracketed t ip h =>
    rw [hh] at hr
    exact normalizeHostport_bracketed h hr default

/-! #### Parsing -/

theorem not_white_render (hip : e.host.ip.isSome = true) :
    ∀ c ∈ e.render, isWhitespace c = false := by
  have hport : ∀ c ∈ portText e.port, isWhitespace c = false := by
    cases e.port with
    | none => simp [portText]
    | some p =>
      refine List.forall_mem_cons.2 ⟨by decide, fun c hc => ?_⟩
      exact IsV6Char.not_white (.inl (isDigitOf_mono (isDigitOf_of_mem_decimal hc)))
  have hhost : ∀ c ∈ e.host.render, isWhitespace c = false := by
    cases hh : e.host with
    | name t h => simp [hh, Host.ip] at hip
    | ipv4 t ip h => exact fun c hc => (h.ok c hc).isV6Char.not_white
    | ipv6 t ip h => exact fun c hc => (h.ok c hc).not_white
    | bracketed t ip h =>
      intro c hc
      simp only [Host.render, List.cons_append, List.mem_cons, List.mem_append, List.not_mem_nil,
        or_false] at hc
      rcases hc with rfl | hc | rfl
      · decide
      · exact (h.ok c hc).not_white
      · decide
  intro c hc
  rcases List.mem_append.1 hc with hc | hc
  · exact hhost c hc
  · exact hport c hc

theorem parseIp_text {ip : IpAddr} (hip : e.host.ip = some ip) : parseIp e.host.text = some ip := by
  cases hh : e.host with
  | name t h => simp [hh, Host.ip] at hip
  | ipv4 t a h =>
    rw [hh] at hip
    exact hip ▸ h.parseIp
  | ipv6 t a h =>
    rw [hh] at hip
    exact hip ▸ h.parseIp
  | bracketed t a h =>
    rw [hh] at hip
    exact hip ▸ h.parseIp

/-- An address to dial is read as its address, with its port or the one given. -/
theorem parseIpPort_render {ip : IpAddr} (hip : e.host.ip = some ip) (default : UInt16) :
    parseIpPort e.render default = .ok ⟨ip, e.port.getD default⟩ := by
  rw [parseIpPort, trim_of_not_white (not_white_render (by rw [hip]; rfl)), render]
  cases hh : e.host with
  | name t h => simp [hh, Host.ip] at hip
  | ipv4 t a h =>
    rw [hh] at hip
    cases hip
    cases e.port with
    | none => simp [Host.render, portText, h.parseSocket, h.parseIp]
    | some p => simp [Host.render, portText, h.parseSocket_port p.toNat_lt]
  | ipv6 t a h =>
    rw [e.bare_port (by rw [hh]; rfl)]
    rw [hh] at hip
    cases hip
    simp [Host.render, portText, h.parseSocket, h.parseIp]
  | bracketed t a h =>
    rw [hh] at hip
    cases hip
    cases e.port with
    | none =>
      have hsocket := h.parseSocket_bracket
      have hstrip : stripPrefix ['['] ('[' :: (t ++ [']'])) = some (t ++ [']']) :=
        stripPrefix_append ['['] _
      rw [List.cons_append] at hsocket
      simp [Host.render, portText, hsocket, parseIp_bracket, hstrip, stripSuffix_append, h.parseIp]
    | some p =>
      have hsocket := h.parseSocket_port p.toNat_lt
      rw [List.cons_append] at hsocket
      simp [Host.render, portText, hsocket]

end Endpoint

end FerrumDns
