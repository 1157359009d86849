import Mathlib.Data.Bool.AllAny
import FerrumDns.Upstream.Endpoint

/-! The address an upstream is dialled at. With a fixed address to dial, the port of the
upstream address should stand in for a missing one; over TLS the default port of the scheme
does. A path may hold the separator of the scheme, which without a scheme is taken for it. -/

namespace FerrumDns

open Text AddressParse Target

/-! ### Addresses of upstreams -/

inductive Scheme where
  | udp | tcp | tls | dot
  deriving DecidableEq, Repr

namespace Scheme

def text : Scheme → Text
  | udp => "udp".toList
  | tcp => "tcp".toList
  | tls => "tls".toList
  | dot => "dot".toList

def isTls : Scheme → Bool
  | udp | tcp => false
  | tls | dot => true

end Scheme

/-- `[scheme://]host[:port][/path]` -/
structure Address where
  scheme : Option Scheme
  endpoint : Endpoint
  path : Option Text

namespace Address

def schemeText (a : Address) : Text := (a.scheme.map Scheme.text).getD []

/-- The scheme with its separator. -/
def start (a : Address) : Text :=
  match a.scheme with
  | none => []
  | some s => s.text ++ "://".toList

def pathText (a : Address) : Text :=
  match a.path with
  | none => []
  | some p => '/' :: p

def render (a : Address) : Text := a.start ++ (a.endpoint.render ++ a.pathText)

def isTls (a : Address) : Bool := a.scheme.any Scheme.isTls

def defaultPort (a : Address) : UInt16 := if a.isTls then 853 else 53

end Address

/-! ### Blank ends -/

theorem trimStart_stop {c : Char} (hc : isWhitespace c = false) (t s : Text) :
    trimStart isWhitespace (t ++ c :: s) = trimStart isWhitespace t ++ c :: s :=
  dropWhile_append_stop (by simp [hc]) t s

theorem trimEnd_stop {c : Char} (hc : isWhitespace c = false) (t s : Text) :
    trimEnd isWhitespace (t ++ c :: s) = t ++ c :: trimEnd isWhitespace s := by
  have hrev : (t ++ c :: s).reverse = s.reverse ++ c :: t.reverse := by simp
  rw [trimEnd, List.rdropWhile, hrev, dropWhile_append_stop (by simp [hc])]
  simp [trimEnd, List.rdropWhile]

theorem trimEnd_append {p : Text} (hp : ∀ c ∈ p, isWhitespace c = false) (s : Text) :
    trimEnd isWhitespace (p ++ s) = p ++ trimEnd isWhitespace s := by
  induction p with
  | nil => rfl
  | cons c p ih =>
    rw [List.forall_mem_cons] at hp
    rw [List.cons_append, List.cons_append, ← ih hp.2]
    exact trimEnd_stop hp.1 [] (p ++ s)

theorem trimEnd_of_not_white {t : Text} (h : ∀ c ∈ t, isWhitespace c = false) :
    trimEnd isWhitespace t = t := by
  have hnil : trimEnd isWhitespace [] = [] := rfl
  have happend := trimEnd_append h []
  rwa [hnil, List.append_nil] at happend

/-- A text without blanks is still there when blank ends are gone. -/
theorem infix_trim {p t : Text} (hp : ∀ c ∈ p, isWhitespace c = false) (h : p <:+: t) :
    p <:+: trim t := by
  obtain ⟨x, y, rfl⟩ := h
  cases p with
  | nil => exact List.nil_infix
  | cons c p =>
    rw [List.forall_mem_cons] at hp
    rw [trim, List.append_assoc, List.cons_append, trimStart_stop hp.1, trimEnd_stop hp.1,
      trimEnd_append hp.2]
    exact ⟨trimStart isWhitespace x, trimEnd isWhitespace y, by simp⟩

theorem infix_of_trim (t : Text) : trim t <:+: t :=
  (List.rdropWhile_prefix _ _).isInfix.trans (List.dropWhile_suffix _).isInfix

/-! ### What is left of an address -/

/-- The same host but for the blanks around a name. -/
structure Host.Same (h h' : Host) : Prop where
  ip : h'.ip = h.ip
  isBare : h'.isBare = h.isBare

theorem Host.Same.rfl {h : Host} : h.Same h := ⟨Eq.refl _, Eq.refl _⟩

theorem Host.Same.trans {h h' h'' : Host} (a : h.Same h') (b : h'.Same h'') : h.Same h'' :=
  ⟨b.ip.trans a.ip, b.isBare.trans a.isBare⟩

/-- An address without blanks, or a name. -/
theorem Host.not_white (h : Host) :
    (h.render ≠ [] ∧ ∀ c ∈ h.render, isWhitespace c = false) ∨ ∃ t ht, h = .name t ht := by
  have ne_nil_v6 {t : Text} {ip : Ipv6Addr} (ht : IsIpv6 t ip) : t ≠ [] := by
    rintro rfl
    simpa using ht.two_le_count
  cases h with
  | name t ht => exact .inr ⟨t, ht, Eq.refl _⟩
  | ipv4 t ip ht =>
    refine .inl ⟨?_, fun c hc => (ht.ok c hc).isV6Char.not_white⟩
    rintro hnil
    obtain rfl : t = [] := hnil
    cases ht
  | ipv6 t ip ht => exact .inl ⟨ne_nil_v6 ht, fun c hc => (ht.ok c hc).not_white⟩
  | bracketed t ip ht =>
    refine .inl ⟨by simp [Host.render], fun c hc => ?_⟩
    simp only [Host.render, List.cons_append, List.mem_cons, List.mem_append, List.not_mem_nil,
      or_false] at hc
    rcases hc with rfl | hc | rfl
    · decide
    · exact (ht.ok c hc).not_white
    · decide

theorem Plain.sublist {t t' : Text} (h : Plain t) (hsub : t' ⊆ t) : Plain t' :=
  fun c hc => h c (hsub hc)

theorem not_white_portText (port : Option UInt16) : ∀ c ∈ portText port, isWhitespace c = false := by
  cases port with
  | none => simp [portText]
  | some p =>
    refine List.forall_mem_cons.2 ⟨by decide, fun c hc => ?_⟩
    exact IsV6Char.not_white (.inl (isDigitOf_mono (isDigitOf_of_mem_decimal hc)))

/-- Blanks before a host are those of a name. -/
theorem trimStart_host (h : Host) {s : Text} (hs : ∀ c ∈ s.head?, isWhitespace c = false) :
    ∃ h' : Host, h.Same h' ∧ trimStart isWhitespace (h.render ++ s) = h'.render ++ s := by
  rcases h.not_white with ⟨hne, hwhite⟩ | ⟨t, ht, rfl⟩
  · obtain ⟨c, r, hr⟩ := List.exists_cons_of_ne_nil hne
    refine ⟨h, .rfl, ?_⟩
    rw [hr]
    exact List.dropWhile_cons_of_neg (by simp [hwhite c (by simp [hr])])
  · refine ⟨.name (trimStart isWhitespace t) (ht.sublist (List.dropWhile_suffix _).subset),
      ⟨Eq.refl _, Eq.refl _⟩, ?_⟩
    cases s with
    | nil => simp [Host.render]
    | cons c s => exact trimStart_stop (hs c rfl) t s

/-- Blanks after a host are those of a name. -/
theorem trimEnd_host (h : Host) : ∃ h' : Host, h.Same h' ∧
    trimEnd isWhitespace h.render = h'.render := by
  rcases h.not_white with ⟨-, hwhite⟩ | ⟨t, ht, rfl⟩
  · exact ⟨h, .rfl, trimEnd_of_not_white hwhite⟩
  · exact ⟨.name (trimEnd isWhitespace t) (ht.sublist (List.rdropWhile_prefix _ _).subset),
      ⟨Eq.refl _, Eq.refl _⟩, Eq.refl _⟩

namespace Address

/-- The endpoint with another host of the same kind. -/
def withHost (e : Endpoint) (h : Host) (hs : e.host.Same h) : Endpoint where
  host := h
  port := e.port
  bare_port hb := e.bare_port (hs.isBare ▸ hb)

theorem trimStart_render (a : Address) : ∃ h : Host, a.endpoint.host.Same h ∧
    trimStart isWhitespace a.render =
      a.start ++ (h.render ++ (portText a.endpoint.port ++ a.pathText)) := by
  have hhead : ∀ c ∈ (portText a.endpoint.port ++ a.pathText).head?, isWhitespace c = false := by
    rw [pathText]
    cases a.endpoint.port with
    | some p => simp [portText, isWhitespace]
    | none => cases a.path <;> simp [portText, isWhitespace]
  rw [render, start, Endpoint.render, List.append_assoc]
  cases a.scheme with
  | none => exact trimStart_host a.endpoint.host hhead
  | some s =>
    refine ⟨a.endpoint.host, .rfl, ?_⟩
    cases s <;> rfl

theorem trimEnd_start (a : Address) (t : Text) :
    trimEnd isWhitespace (a.start ++ t) = a.start ++ trimEnd isWhitespace t := by
  refine trimEnd_append ?_ t
  rw [start]
  cases a.scheme with
  | none => simp
  | some s => cases s <;> exact List.all_iff_forall_prop.mp (by decide)

/-- Blanks at the end are those of the path, or of a name that ends the address. -/
theorem trimEnd_endpoint (a : Address) (h : Host) (hs : a.endpoint.host.Same h) :
    ∃ (h' : Host) (hs' : a.endpoint.host.Same h') (tail : Text),
      trimEnd isWhitespace (h.render ++ (portText a.endpoint.port ++ a.pathText)) =
        (withHost a.endpoint h' hs').render ++ tail ∧ (tail = [] ∨ ∃ p, tail = '/' :: p) := by
  cases hpath : a.path with
  | some p =>
    refine ⟨h, hs, '/' :: trimEnd isWhitespace p, ?_, .inr ⟨_, rfl⟩⟩
    rw [pathText, hpath, ← List.append_assoc, trimEnd_stop (by decide)]
    rfl
  | none =>
    have hnil : a.pathText = [] := by rw [pathText, hpath]
    rw [hnil, List.append_nil]
    cases hport : a.endpoint.port with
    | some p =>
      refine ⟨h, hs, [], ?_, .inl rfl⟩
      have hrender : (withHost a.endpoint h hs).render = h.render ++ portText (some p) := by
        rw [← hport]
        rfl
      have hdigits : ∀ c ∈ decimal p.toNat, isWhitespace c = false := fun c hc =>
        not_white_portText (some p) c (List.mem_cons_of_mem _ hc)
      rw [hrender, List.append_nil, portText, trimEnd_stop (by decide),
        trimEnd_of_not_white hdigits]
    | none =>
      obtain ⟨h', hs', hend⟩ := trimEnd_host h
      refine ⟨h', hs.trans hs', [], ?_, .inl rfl⟩
      have hrender : (withHost a.endpoint h' (hs.trans hs')).render =
          h'.render ++ portText none := by
        rw [← hport]
        rfl
      rw [hrender, portText, List.append_nil, List.append_nil, List.append_nil, hend]

/-- What trimming leaves: the scheme, the host with its port, and a path. -/
theorem trim_render (a : Address) : ∃ (h : Host) (hs : a.endpoint.host.Same h) (tail : Text),
    trim a.render = a.start ++ ((withHost a.endpoint h hs).render ++ tail) ∧
      (tail = [] ∨ ∃ p, tail = '/' :: p) := by
  obtain ⟨h, hs, hstart⟩ := a.trimStart_render
  obtain ⟨h', hs', tail, hend, htail⟩ := a.trimEnd_endpoint h hs
  exact ⟨h', hs', tail, by rw [trim, hstart, trimEnd_start, hend], htail⟩

/-! ### Cutting off the scheme -/

theorem beforePath_endpoint (e : Endpoint) {tail : Text} (ht : tail = [] ∨ ∃ p, tail = '/' :: p) :
    beforePath (e.render ++ tail) = e.render := by
  rcases ht with rfl | ⟨p, rfl⟩
  · rw [List.append_nil, e.beforePath_render]
  · have hstop := takeWhile_append_stop (p := (· ≠ '/')) (c := '/') (by simp) e.render p
    rw [Endpoint.beforePath_eq, hstop, ← Endpoint.beforePath_eq, e.beforePath_render]

/-- The separator is where the scheme ends, if it is not taken from the path. -/
theorem splitScheme_trim (a : Address)
    (h : ¬ (a.scheme = none ∧ "://".toList <:+: a.render)) :
    ∃ (g : Host) (hs : a.endpoint.host.Same g) (rest : Text),
      splitScheme (trim a.render) = (a.schemeText, rest) ∧
        beforePath rest = (withHost a.endpoint g hs).render := by
  obtain ⟨g, hs, tail, htrim, htail⟩ := a.trim_render
  refine ⟨g, hs, (withHost a.endpoint g hs).render ++ tail, ?_, beforePath_endpoint _ htail⟩
  cases hscheme : a.scheme with
  | none =>
    have hnot : ¬ "://".toList <:+: trim a.render :=
      fun hin => h ⟨hscheme, hin.trans (infix_of_trim _)⟩
    rw [splitScheme, splitOnText_eq_none (by decide) hnot, htrim, start, schemeText, hscheme]
    rfl
  | some s =>
    have hcolon : ':' ∉ s.text := by cases s <;> decide
    rw [htrim, start, hscheme, splitScheme, splitOnText_append (by decide)]
    · rw [schemeText, hscheme]
      rfl
    · intro x y hxy hy hprefix
      obtain ⟨c, y, rfl⟩ := List.exists_cons_of_ne_nil hy
      obtain ⟨r, hr⟩ := hprefix
      obtain rfl : ':' = c := (List.cons.inj (hr : ':' :: '/' :: '/' :: r = c :: _)).1
      exact hcolon (hxy ▸ by simp)

/-- An endpoint ends with a colon only as an address without brackets. -/
theorem isBare_of_render {e : Endpoint} {x : Text} (h : e.render = x ++ [':']) :
    e.host.isBare = true := by
  have hlast : e.render.getLast? = some ':' := by simp [h]
  rw [Endpoint.render] at hlast
  cases hport : e.port with
  | some p =>
    -- The last character is a digit.
    rw [hport, portText, List.getLast?_append_of_ne_nil _ (by simp),
      List.getLast?_cons_of_ne_nil (decimal_ne_nil _)] at hlast
    exact absurd rfl (plain_decimal _ _ (List.mem_of_getLast? hlast)).1
  | none =>
    rw [hport, portText, List.append_nil] at hlast
    cases hh : e.host with
    | name t ht =>
      rw [hh] at hlast
      exact absurd rfl (ht _ (List.mem_of_getLast? hlast)).1
    | ipv4 t ip ht =>
      rw [hh] at hlast
      exact absurd rfl (ht.plain _ (List.mem_of_getLast? hlast)).1
    | ipv6 t ip ht => rfl
    | bracketed t ip ht =>
      rw [hh, Host.render, List.getLast?_concat] at hlast
      exact absurd hlast (by decide)

/-- Such an address has another colon. -/
theorem colon_mem_of_render {e : Endpoint} {x : Text} (h : e.render = x ++ [':']) : ':' ∈ x := by
  have hbare := isBare_of_render h
  cases hh : e.host with
  | ipv6 t ip ht =>
    have hcount := ht.two_le_count
    rw [Endpoint.render, e.bare_port hbare, portText, List.append_nil, hh] at h
    obtain rfl : t = x ++ [':'] := h
    rw [List.count_append, List.count_singleton_self] at hcount
    exact List.count_pos_iff.1 (by omega)
  | name t ht => simp [hh, Host.isBare] at hbare
  | ipv4 t ip ht => simp [hh, Host.isBare] at hbare
  | bracketed t ip ht => simp [hh, Host.isBare] at hbare

/-- Without a scheme what stands before a separator is none. -/
theorem mem_before_separator {e : Endpoint} {tail x y : Text}
    (ht : tail = [] ∨ ∃ p, tail = '/' :: p) (h : e.render ++ tail = x ++ "://".toList ++ y) :
    ':' ∈ x ∨ '/' ∈ x := by
  by_cases hx : '/' ∈ x
  · exact .inr hx
  · refine .inl (colon_mem_of_render (e := e) ?_)
    have hassoc : x ++ "://".toList ++ y = (x ++ [':']) ++ '/' :: ('/' :: y) := by simp
    have hcut := congrArg (List.takeWhile (· ≠ '/')) h
    rw [hassoc, takeWhile_append_stop (by simp), ← Endpoint.beforePath_eq,
      beforePath_endpoint e ht] at hcut
    rw [hcut, List.takeWhile_eq_self_iff]
    intro c hc
    rcases List.mem_append.1 hc with hc | hc
    · simpa using fun hs : c = '/' => hx (hs ▸ hc)
    · rw [List.mem_singleton.1 hc]
      decide

end Address

/-! ### The address dialled -/

/-- What a stream or a socket is opened to, except over HTTPS. -/
def Kind.target : Kind → Option String
  | .Udp target | .Tcp target | .Tls target _ => some target
  | .Doh _ => none

/-- An exchange with the upstream goes to this socket address. -/
def Dials (net : Lookups) (spec : UpstreamSpec) (dest : SocketAddr) : Prop :=
  ∃ kind target, connect spec = .ok kind ∧ kind.target = some target ∧
    resolveSpec net spec target.toList = .ok dest

namespace Address

/-- An upstream with this address, and perhaps an address to dial. -/
def spec (a : Address) (dial : Option Endpoint) (bootstrap : Option Text) : UpstreamSpec where
  addr := a.render
  dialAddr := dial.map Endpoint.render
  bootstrap := bootstrap

/-- The address to dial, or the one of the upstream, with the port given first, or that of the
scheme. -/
def expected (a : Address) (dial : Option Endpoint) : Option SocketAddr :=
  match dial with
  | some d =>
    d.host.ip.map fun ip => ⟨ip, d.port.getD (a.endpoint.port.getD a.defaultPort)⟩
  | none => a.endpoint.host.ip.map fun ip => ⟨ip, a.endpoint.port.getD a.defaultPort⟩

/-- The port that is used: over TLS a port of the upstream address is lost when another address is
dialled. -/
def usedPort (a : Address) (dial : Option Endpoint) : UInt16 :=
  match dial with
  | some d => d.port.getD (if a.isTls then 853 else a.endpoint.port.getD 53)
  | none => a.endpoint.port.getD a.defaultPort

/-- Without a scheme, a separator in the path. -/
def Misread (a : Address) : Prop := a.scheme = none ∧ "://".toList <:+: a.render

variable {a : Address} {dial : Option Endpoint} {bootstrap : Option Text} {net : Lookups}

/-- A scheme that holds a colon or a slash is not supported. -/
theorem connect_of_misread (h : a.Misread) : ∃ e, connect (a.spec dial bootstrap) = .error e := by
  obtain ⟨g, hs, tail, htrim, htail⟩ := a.trim_render
  rw [start, h.1, List.nil_append] at htrim
  have hin : "://".toList <:+: trim a.render :=
    infix_trim (List.all_iff_forall_prop.mp (by decide)) h.2
  cases hcut : splitOnText "://".toList (trim a.render) with
  | none => exact absurd hin (not_infix_of_splitOnText hcut)
  | some parts =>
    obtain ⟨x, y⟩ := parts
    have hmem := mem_before_separator htail (htrim.symm.trans (eq_of_splitOnText hcut))
    have hne (s : Text) (hs : ':' ∉ s ∧ '/' ∉ s) : x ≠ s := by
      rintro rfl
      rcases hmem with hmem | hmem
      · exact hs.1 hmem
      · exact hs.2 hmem
    have hsplit : splitScheme (trim a.render) = (x, y) := by rw [splitScheme, hcut]
    refine ⟨.config ("unsupported upstream scheme `" ++ String.ofList x ++ "` in " ++
      String.ofList (trim a.render)), ?_⟩
    simp only [connect, spec, hsplit]
    rw [if_neg (by rintro (h | h) <;> exact hne _ (by decide) h),
      if_neg (hne _ (by decide)), if_neg (by rintro (h | h) <;> exact hne _ (by decide) h),
      if_neg (by rintro (h | h | h) <;> exact hne _ (by decide) h), if_neg (hne _ (by decide))]

/-- The transport that a supported scheme stands for. -/
def transport (s : UpstreamSpec) (rest : Text) : Option Scheme → Kind
  | none | some .udp => .Udp (String.ofList (normalizeHostport rest 53))
  | some .tcp => .Tcp (String.ofList (normalizeHostport rest 53))
  | some .tls | some .dot =>
    .Tls (String.ofList (normalizeHostport (s.dialAddr.getD rest) 853))
      (String.ofList (hostOf rest))

theorem connect_eq {s : UpstreamSpec} {scheme : Option Scheme} {rest : Text}
    (h : splitScheme (trim s.addr) = ((scheme.map Scheme.text).getD [], rest)) :
    connect s = .ok (transport s rest scheme) := by
  simp only [connect, h]
  cases scheme with
  | none => rfl
  | some scheme =>
    cases scheme with
    | udp => rfl
    | tcp => rfl
    | tls =>
      rw [transport]
      cases s.dialAddr <;> rfl
    | dot =>
      rw [transport]
      cases s.dialAddr <;> rfl

/-- The target of a stream or a socket: the endpoint of the address with its port, or over TLS the
address to dial with its own. -/
theorem connect_of_read (h : ¬ a.Misread) : ∃ (kind : Kind) (target : String) (g : Host)
    (hs : a.endpoint.host.Same g), connect (a.spec dial bootstrap) = .ok kind ∧
      kind.target = some target ∧
      target.toList = (if a.isTls then (dial.getD (withHost a.endpoint g hs)).withPort 853
        else (withHost a.endpoint g hs).withPort 53).render := by
  obtain ⟨g, hs, rest, hsplit, hrest⟩ := a.splitScheme_trim h
  have hnormal := Endpoint.normalizeHostport_eq hrest
  have hdial : normalizeHostport ((a.spec dial bootstrap).dialAddr.getD rest) 853 =
      ((dial.getD (withHost a.endpoint g hs)).withPort 853).render := by
    cases dial with
    | none => exact hnormal 853
    | some d => exact Endpoint.normalizeHostport_eq d.beforePath_render 853
  have hconnect := connect_eq (s := a.spec dial bootstrap) hsplit
  cases hscheme : a.scheme with
  | none =>
    rw [hscheme] at hconnect
    exact ⟨_, _, g, hs, hconnect, rfl, by simp [isTls, hscheme, hnormal]⟩
  | some s =>
    rw [hscheme] at hconnect
    cases s with
    | udp => exact ⟨_, _, g, hs, hconnect, rfl, by simp [isTls, hscheme, Scheme.isTls, hnormal]⟩
    | tcp => exact ⟨_, _, g, hs, hconnect, rfl, by simp [isTls, hscheme, Scheme.isTls, hnormal]⟩
    | tls => exact ⟨_, _, g, hs, hconnect, rfl, by simp [isTls, hscheme, Scheme.isTls, hdial]⟩
    | dot => exact ⟨_, _, g, hs, hconnect, rfl, by simp [isTls, hscheme, Scheme.isTls, hdial]⟩

theorem ip_withPort (e : Endpoint) (default : UInt16) : (e.withPort default).host.ip = e.host.ip := by
  change e.host.close.ip = _
  cases e.host <;> rfl

theorem portOf_withPort (e : Endpoint) (default default' : UInt16) :
    portOf (e.withPort default).render default' = e.port.getD default :=
  Endpoint.portOf_eq (e.withPort default).beforePath_render default'

/-- The address dialled has the port that is used. -/
theorem dials_used (h : ¬ a.Misread) {dest : SocketAddr} (hd : a.expected dial = some dest) :
    Dials net (a.spec dial bootstrap) ⟨dest.ip, a.usedPort dial⟩ := by
  obtain ⟨kind, target, g, hs, hconnect, htarget, htext⟩ :=
    @connect_of_read a dial bootstrap h
  refine ⟨kind, target, hconnect, htarget, ?_⟩
  rw [htext]
  cases dial with
  | some d =>
    obtain ⟨ip, hip, rfl⟩ := Option.map_eq_some_iff.1 hd
    change parseIpPort d.render _ = _
    rw [Endpoint.parseIpPort_render hip, usedPort]
    split_ifs
    · rw [portOf_withPort, Option.getD_some]
      cases d.port <;> rfl
    · rw [portOf_withPort]
      rfl
  | none =>
    obtain ⟨ip, hip, rfl⟩ := Option.map_eq_some_iff.1 hd
    have hport : (if a.isTls then (withHost a.endpoint g hs).withPort 853
        else (withHost a.endpoint g hs).withPort 53) =
          (withHost a.endpoint g hs).withPort a.defaultPort := by
      rw [defaultPort]
      split_ifs <;> rfl
    have hhost : ((withHost a.endpoint g hs).withPort a.defaultPort).host.ip = some ip := by
      rw [ip_withPort, ← hip]
      exact hs.ip
    rw [Option.getD_none, hport]
    simp only [resolveSpec, spec, Option.map_none,
      Endpoint.hostOf_eq (Endpoint.beforePath_render _), Endpoint.parseIp_text hhost,
      portOf_withPort]
    rfl

theorem dials_iff_eq (h : ¬ a.Misread) {dest dest' : SocketAddr}
    (hd : a.expected dial = some dest) :
    Dials net (a.spec dial bootstrap) dest' ↔ ⟨dest.ip, a.usedPort dial⟩ = dest' := by
  constructor
  · rintro ⟨kind, target, hconnect, htarget, hdest⟩
    obtain ⟨kind', target', hconnect', htarget', hdest'⟩ := @dials_used a dial bootstrap
      net h dest hd
    obtain rfl := Except.ok.inj (hconnect.symm.trans hconnect')
    obtain rfl := Option.some.inj (htarget.symm.trans htarget')
    exact Except.ok.inj (hdest'.symm.trans hdest)
  · rintro rfl
    exact dials_used h hd

/-- Over TLS, a port of the upstream address other than the default one that should stand in for
that of the address to dial. -/
def PortLost (a : Address) (dial : Option Endpoint) : Prop :=
  a.isTls = true ∧ ∃ d p, dial = some d ∧ d.port = none ∧ a.endpoint.port = some p ∧ p ≠ 853

/-- The expected address is dialled exactly when the port is not lost and no separator is taken from
the path. -/
theorem dials_expected_iff {dest : SocketAddr} (hd : a.expected dial = some dest) :
    Dials net (a.spec dial bootstrap) dest ↔ ¬ a.Misread ∧ ¬ a.PortLost dial := by
  by_cases hm : a.Misread
  · refine iff_of_false ?_ fun h => h.1 hm
    rintro ⟨kind, target, hconnect, -⟩
    obtain ⟨e, he⟩ := @connect_of_misread a dial bootstrap hm
    rw [he] at hconnect
    cases hconnect
  · rw [dials_iff_eq hm hd, and_iff_right hm]
    cases dial with
    | none =>
      obtain ⟨ip, -, rfl⟩ := Option.map_eq_some_iff.1 hd
      simp [usedPort, PortLost]
    | some d =>
      obtain ⟨ip, -, rfl⟩ := Option.map_eq_some_iff.1 hd
      rw [SocketAddr.mk.injEq, and_iff_right rfl, usedPort, PortLost, defaultPort]
      cases a.isTls with
      | false => simp
      | true =>
        cases hdial : d.port with
        | some q => simp [hdial]
        | none =>
          cases a.endpoint.port with
          | none => simp
          | some p => simp [hdial, eq_comm]

namespace Sample

/-- No server is asked. -/
def lookups : Lookups where
  bootstrapIps _ _ := .error (.other "not asked")
  resolveTarget _ := .error (.other "not asked")

/-- `dns.test:8853` -/
def endpoint : Endpoint where
  host := .name "dns.test".toList (List.all_iff_forall_prop.mp (by decide))
  port := some 8853
  bare_port := nofun

/-- `192.0.2.1` -/
def dialAddr : Endpoint where
  host := .ipv4 "192.0.2.1".toList 0xc0000201 (by unfold IsIpv4; decide +kernel)
  port := none
  bare_port := nofun

/-- Over TCP the port of the upstream address is used. -/
theorem dials_expected_iff_tcp :
    Dials lookups (spec ⟨some .tcp, endpoint, none⟩ (some dialAddr) none)
      ⟨.v4 0xc0000201, 8853⟩ := by
  refine (dials_expected_iff rfl).2 ⟨?_, ?_⟩
  · rintro ⟨h, -⟩
    cases h
  · rintro ⟨h, -⟩
    cases h

/-- Over TLS it is lost. -/
theorem tls_port_lost : expected ⟨some .tls, endpoint, none⟩ (some dialAddr) =
      some ⟨.v4 0xc0000201, 8853⟩ ∧
    ¬ Dials lookups (spec ⟨some .tls, endpoint, none⟩ (some dialAddr) none)
      ⟨.v4 0xc0000201, 8853⟩ := by
  refine ⟨rfl, ?_⟩
  rintro ⟨kind, target, hconnect, htarget, hdest⟩
  have hkind : connect (spec ⟨some .tls, endpoint, none⟩ (some dialAddr) none) =
      .ok (.Tls "192.0.2.1:853" "dns.test") := by
    decide +kernel
  obtain rfl := Except.ok.inj (hkind.symm.trans hconnect)
  obtain rfl := Option.some.inj htarget
  have hused : resolveSpec lookups (spec ⟨some .tls, endpoint, none⟩ (some dialAddr) none)
      "192.0.2.1:853".toList = .ok ⟨.v4 0xc0000201, 853⟩ := by
    decide +kernel
  have hport := Except.ok.inj (hused.symm.trans hdest)
  exact absurd hport (by decide)

end Sample

end Address

end FerrumDns
