import FerrumDns.Prog.Expand
import FerrumDns.Upstream.Bootstrap
import FerrumDns.Upstream.Dial
import FerrumDns.Upstream.StreamPool

/-! The destination of an upstream. All its exchanges share a slot, which is filled by the
first look-up that succeeds and never emptied; a client for HTTPS remembers addresses by
host instead. Look-ups that overlap may find different addresses, and the exchanges still
go to one destination: that of the slot. -/

namespace FerrumDns

open Prog Dnsutil Target

/-- An upstream that is set up. Over HTTPS it may resolve hosts itself, and then has the addresses
it is pinned to. -/
structure Dialer where
  spec : UpstreamSpec
  tag : Option Tag
  kind : Kind
  resolver : Option (List SocketAddr)
  deriving DecidableEq, Repr

namespace Dialer

/-- `PinResolver::new`. -/
def newResolver (spec : UpstreamSpec) (url : Text) : Except Error (Option (List SocketAddr)) :=
  if spec.dialAddr.isSome ∨ spec.bootstrap.isSome then
    let (_, port) := urlHostPort url (if "http://".toList <+: url then 80 else 443)
    match spec.dialAddr with
    | none => .ok (some [])
    | some dial => do
      let pin ← parseIpPort dial port
      .ok (some [pin])
  else .ok none

def connect (spec : UpstreamSpec) (tag : Option Tag) : Except Error Dialer := do
  let kind ← Target.connect spec
  match kind with
  | .Doh url => do
    let resolver ← newResolver spec url.toList
    .ok ⟨spec, tag, kind, resolver⟩
  | kind => .ok ⟨spec, tag, kind, none⟩

/-- What an exchange needs to know of it. -/
def client (d : Dialer) : Client where
  addr := String.ofList d.spec.addr
  tag := d.tag
  kind := d.kind
  resolver := d.resolver.isSome

end Dialer

/-- Reading and filling the slot, remembering addresses, looking up, and the actions of an
exchange. -/
inductive Dial where
  | get
  | init (dest : SocketAddr)
  | cached (host : Text)
  | remember (host : Text) (addrs : List SocketAddr)
  | bootstrapIps (boot host : Text)
  | resolveTarget (target : Text)
  | lookupHost (host : Text)
  | net (e : Net)

/-- Filling the slot answers with what is in it then. -/
@[reducible] def Dial.Answer : Dial → Type
  | get => Option SocketAddr
  | init _ => SocketAddr
  | cached _ => Option (List SocketAddr)
  | remember _ _ => Unit
  | bootstrapIps _ _ => Except Error (List IpAddr)
  | resolveTarget _ => Except Error SocketAddr
  | lookupHost _ => Except Error (List SocketAddr)
  | net e => e.Answer

abbrev Dialed (α : Type) := Prog Unit Dial Dial.Answer α

abbrev DialTrace := List (Event Dial Dial.Answer)

namespace Dialer

/-- `resolve_spec`. -/
def lookUp (spec : UpstreamSpec) (target : Text) : Dialed (Except Error SocketAddr) :=
  match spec.dialAddr with
  | some dial => done (parseIpPort dial (portOf target 53))
  | none =>
    let host := hostOf target
    let port := portOf target 53
    match AddressParse.parseIp host with
    | some ip => done (.ok ⟨ip, port⟩)
    | none =>
      match AddressParse.parseSocket target with
      | some (ip, port) => done (.ok ⟨ip, .ofNat port⟩)
      | none =>
        match spec.bootstrap with
        | some boot => await () (act (.bootstrapIps boot host) fun (r : Except Error (List IpAddr)) =>
          match r with
          | .error e => done (.error e)
          | .ok ips =>
            match ips.head? with
            | some ip => done (.ok ⟨ip, port⟩)
            | none =>
              done (.error (.config ("bootstrap " ++ String.ofList boot ++
                " returned no addresses for " ++ String.ofList host))))
        | none => await () (act (.resolveTarget target) done)

def cachedDest (spec : UpstreamSpec) (target : Text) : Dialed (Except Error SocketAddr) :=
  act .get fun (slot : Option SocketAddr) =>
    match slot with
    | some dest => done (.ok dest)
    | none => (lookUp spec target).bind fun r =>
      match r with
      | .error e => done (.error e)
      | .ok dest => act (.init dest) fun (dest : SocketAddr) => done (.ok dest)

/-- Addresses that were looked up are remembered. -/
def remembered (host : Text) : Except Error (List SocketAddr) → Dialed (Except Error (List SocketAddr))
  | .error e => done (.error e)
  | .ok addrs => act (.remember host addrs) fun _ => done (.ok addrs)

def resolveHost (bootstrap : Option Text) (pins : List SocketAddr) (host : Text) :
    Dialed (Except Error (List SocketAddr)) :=
  if pins ≠ [] then done (.ok pins)
  else
    match AddressParse.parseIp host with
    | some ip => done (.ok [⟨ip, 0⟩])
    | none => act (.cached host) fun (known : Option (List SocketAddr)) =>
      match known with
      | some addrs => done (.ok addrs)
      | none =>
        match bootstrap with
        | some boot => await () (act (.bootstrapIps boot host) fun (r : Except Error (List IpAddr)) =>
          remembered host (r.map fun ips => ips.map fun ip => ⟨ip, 0⟩))
        | none => await () (act (.lookupHost host) (remembered host))

/-- Resolving is done with the slot or with the addresses remembered, and everything else as it
is. -/
def perform (d : Dialer) : (e : Net) → Dialed e.Answer
  | .resolve target => cachedDest d.spec target.toList
  | .resolveHost url =>
    (resolveHost d.spec.bootstrap (d.resolver.getD []) (urlHostPort url.toList 443).1).bind fun r =>
      done (r.map fun _ => ())
  | e => act (.net e) done

variable [Crates]

def exchangeInner (d : Dialer) (q : Message) : Dialed (Except Error Message) :=
  (d.client.exchangeInner q).expand d.perform

def exchange (d : Dialer) (q : Message) : Dialed (Except Error Message) :=
  (d.exchangeInner q).timeout.bind fun r =>
    match r with
    | .ok r => done r
    | .error () => done (.error (.upstream d.client.addr "timeout"))

/-- What it returns is what the exchange returns for some answer of the resolving. -/
theorem exchange_ok {d : Dialer} {q m : Message} {tr : DialTrace}
    (h : Ends (d.exchange q) tr (.ok m)) : ∃ tr', Ends (d.client.exchange q) tr' (.ok m) := by
  obtain ⟨tr₁, tr₂, r, -, hinner, hdone⟩ := ends_bind h
  cases r with
  | error late => cases (ends_done hdone).2
  | ok r =>
    obtain ⟨-, rfl⟩ := ends_done hdone
    obtain ⟨tr', htr'⟩ := ends_expand (ends_timeout hinner)
    exact ⟨tr' ++ [], htr'.timeout.bind (.refl _)⟩

end Dialer

/-! ### What an exchange goes to -/

/-- The socket address that an action opens a way to. -/
def Net.dest : Net → Option SocketAddr
  | dial dest | connect dest => some dest
  | _ => none

namespace Upstream

/-- The stream was handed out. -/
def Handed (past : NetTrace) (s : StreamId) : Prop := ∃ ev ∈ past, gained ev = some s

theorem Handed.append {past : NetTrace} {s : StreamId} (h : Handed past s) (tr : NetTrace) :
    Handed (past ++ tr) s := by
  obtain ⟨ev, hev, hs⟩ := h
  exact ⟨ev, List.mem_append_left _ hev, hs⟩

theorem Handed.of_owned {past : NetTrace} {s : StreamId} (h : s ∈ owned past) : Handed past s := by
  induction past using List.reverseRecOn with
  | nil => cases h
  | append_singleton past ev ih =>
    rw [owned_concat] at h
    rcases mem_own h with hs | hs
    · exact ⟨ev, by simp, hs⟩
    · exact (ih hs).append _

/-- An exchange goes to an address that was resolved for its upstream, and uses streams that were
handed out. -/
structure Aims (kind : Kind) (past : NetTrace) (e : Net) : Prop where
  dest : ∀ dest, e.dest = some dest → ∃ target, ⟨.resolve target, .ok dest⟩ ∈ past
  uses : ∀ s, e.uses = some s → Handed past s
  resolve : ∀ target, e = .resolve target → kind.target = some target
  resolveHost : ∀ url, e = .resolveHost url → kind = .Doh url

variable {kind : Kind} {past : NetTrace}

/-- An action on a stream that was handed out. -/
theorem Aims.use {e : Net} {s : StreamId} (huses : e.uses = some s) (hs : Handed past s) :
    Aims kind past e := by
  refine ⟨fun dest he => ?_, fun s' hs' => ?_, ?_, ?_⟩
  · cases e with
    | connect d => cases huses
    | dial d => cases huses
    | _ => cases he
  · rwa [← Option.some.inj (huses.symm.trans hs')]
  · rintro target rfl
    cases huses
  · rintro url rfl
    cases huses

/-- An action on the clock, the pool or a socket, or one over HTTPS. -/
theorem Aims.free {e : Net} (hdest : e.dest = none) (huses : e.uses = none)
    (hresolve : ∀ target, e ≠ .resolve target) (hhost : ∀ url, e ≠ .resolveHost url) :
    Aims kind past e where
  dest dest he := by rw [hdest] at he; cases he
  uses s hs := by rw [huses] at hs; cases hs
  resolve target he := absurd he (hresolve target)
  resolveHost url he := absurd he (hhost url)

theorem Aims.open {e : Net} {target : String} {dest : SocketAddr}
    (hd : ⟨.resolve target, .ok dest⟩ ∈ past) (he : e = .connect dest ∨ e = .dial dest) :
    Aims kind past e := by
  rcases he with rfl | rfl
  · exact ⟨fun _ h => ⟨target, Option.some.inj h ▸ hd⟩, nofun, nofun, nofun⟩
  · exact ⟨fun _ h => ⟨target, Option.some.inj h ▸ hd⟩, nofun, nofun, nofun⟩

theorem Aims.andThen {α β : Type} {p : Talk (Except Error α)} {f : α → Talk (Except Error β)}
    (hp : p.Heeds (Aims kind) past)
    (hf : ∀ tr a, Ends p tr (.ok a) → (f a).Heeds (Aims kind) (past ++ tr)) :
    (Talk.andThen p f).Heeds (Aims kind) past := by
  refine hp.bind fun tr r h => ?_
  cases r with
  | error e => trivial
  | ok a => exact hf tr a h

theorem Aims.awaited {e : Net} (h : Aims kind past e) : (Talk.awaited e).Heeds (Aims kind) past :=
  ⟨h, fun _ => trivial⟩

theorem Aims.abandon {β : Type} {s : StreamId} (hs : Handed past s) (e : Error) :
    (Talk.abandon s e : Talk (Except Error β)).Heeds (Aims kind) past :=
  ⟨.use rfl hs, fun _ => trivial⟩

/-- A way of connecting that goes where it may, and hands out the stream it returns. -/
structure Reaches (kind : Kind) (target : String) (dest : SocketAddr)
    (connect : Talk (Except Error StreamId)) : Prop where
  aims : ∀ {past}, ⟨.resolve target, .ok dest⟩ ∈ past → connect.Heeds (Aims kind) past
  handed : ∀ {tr s}, Ends connect tr (.ok s) → ∀ past, Handed (past ++ tr) s

variable {target : String} {dest : SocketAddr}

theorem resolved_aims {k : SocketAddr → Talk (Except Error Message)}
    (hkind : kind.target = some target)
    (hk : ∀ dest past, ⟨.resolve target, .ok dest⟩ ∈ past → (k dest).Heeds (Aims kind) past) :
    (Talk.andThen (Talk.awaited (.resolve target)) k).Heeds (Aims kind) [] := by
  refine Aims.andThen (Aims.awaited ⟨nofun, nofun, ?_, nofun⟩) fun tr dest h => hk dest _ ?_
  · rintro target' he
    cases he
    exact hkind
  · rw [Talk.ends_awaited h]
    exact List.mem_singleton_self _

variable [Crates]

theorem connectTcp_reaches (target : String) (dest : SocketAddr) :
    Reaches kind target dest (connectTcp dest) where
  aims {past} hd := by
    refine Aims.andThen (Aims.awaited (.open hd (.inl rfl))) fun tr s h => ?_
    have hs : Handed (past ++ tr) s := by
      rw [Talk.ends_awaited h]
      exact ⟨_, List.mem_append_right _ (List.mem_singleton_self _), rfl⟩
    refine ⟨.use rfl hs, fun r => ?_⟩
    cases r with
    | error e => exact Aims.abandon (hs.append _) e
    | ok u => trivial
  handed h past := .of_owned ((connectTcp_connects dest).ready h past).1

theorem connectTls_reaches (target sni : String) (dest : SocketAddr) :
    Reaches kind target dest (connectTls dest sni) where
  aims {past} hd := by
    have htcp : Reaches kind target dest (connectTcp dest) := connectTcp_reaches target dest
    refine Aims.andThen (htcp.aims hd) fun tr s h => ?_
    have hs := htcp.handed h past
    refine ⟨.free rfl rfl nofun nofun, fun name => ?_⟩
    cases name with
    | error e => exact Aims.abandon (hs.append _) _
    | ok u =>
      refine ⟨.use rfl (hs.append _), fun r => ?_⟩
      cases r with
      | error e => exact Aims.abandon ((hs.append _).append _) _
      | ok u => trivial
  handed h past := .of_owned ((connectTls_connects dest sni).ready h past).1

theorem framedExchange_aims {s : StreamId} (hs : Handed past s) (q : Message) :
    (framedExchange s q).Heeds (Aims kind) past :=
  Heeds.of_sat (framedExchange_sat s q) (fun _ _ => trivial)
    fun tr _ _ he => .use (Net.uses_of_transfers he) (hs.append tr)

theorem freshExchange_aims {connect : Talk (Except Error StreamId)}
    (hc : Reaches kind target dest connect) (hd : ⟨.resolve target, .ok dest⟩ ∈ past)
    (q : Message) : (freshExchange connect q).Heeds (Aims kind) past := by
  refine Aims.andThen (hc.aims hd) fun tr s hconnect => ?_
  have hs := hc.handed hconnect past
  refine (framedExchange_aims hs q).bind fun tr' r _ => ?_
  cases r with
  | error e => exact Aims.abandon (hs.append _) e
  | ok m => exact ⟨.use rfl (hs.append _), fun _ => trivial⟩

theorem exchangePooled_aims {connect : Talk (Except Error StreamId)}
    (hc : Reaches kind target dest connect) (hd : ⟨.resolve target, .ok dest⟩ ∈ past)
    (q : Message) : (exchangePooled connect q).Heeds (Aims kind) past := by
  refine ⟨.free rfl rfl nofun nofun, fun now => ⟨.free rfl rfl nofun nofun, fun taken => ?_⟩⟩
  cases taken with
  | none => exact freshExchange_aims hc (by simp [hd]) q
  | some s =>
    have hs : Handed (past ++ [⟨.now, now⟩] ++ [⟨.take now, some s⟩]) s :=
      ⟨_, List.mem_append_right _ (List.mem_singleton_self _), rfl⟩
    refine (framedExchange_aims hs q).bind fun tr r _ => ?_
    cases r with
    | error e =>
      exact ⟨.use rfl (hs.append _), fun _ => freshExchange_aims hc (by simp [hd]) q⟩
    | ok m => exact ⟨.use rfl (hs.append _), fun _ => trivial⟩

theorem retryTcp_aims (hd : ⟨.resolve target, .ok dest⟩ ∈ past) (q : Message) :
    (retryTcp dest q).Heeds (Aims kind) past := by
  have htcp : Reaches kind target dest (connectTcp dest) := connectTcp_reaches target dest
  refine Aims.andThen (htcp.aims hd) fun tr s hconnect => ?_
  have hs := htcp.handed hconnect past
  refine (framedExchange_aims hs q).bind fun tr' r _ => ⟨.use rfl (hs.append _), fun _ => ?_⟩
  cases r with
  | error e => trivial
  | ok full =>
    dsimp only
    split_ifs
    · trivial
    · trivial

theorem recvLoop_aims (hd : ⟨.resolve target, .ok dest⟩ ∈ past) (q : Message) (n : ℕ) :
    (recvLoop dest q n).Heeds (Aims kind) past := by
  induction n generalizing past with
  | zero => trivial
  | succ n ih =>
    refine Aims.andThen (Aims.awaited (.free rfl rfl nofun nofun)) fun tr buf _ => ?_
    have hd' : ⟨.resolve target, .ok dest⟩ ∈ past ++ tr := List.mem_append_left _ hd
    cases decode buf.val with
    | error e => exact ih hd'
    | ok resp =>
      dsimp only
      cases takeResponse q resp with
      | error e => exact ih hd'
      | ok ok =>
        dsimp only
        split_ifs
        · exact retryTcp_aims hd' q
        · trivial

theorem udpExchangeAddr_aims (hd : ⟨.resolve target, .ok dest⟩ ∈ past) (q : Message) :
    (udpExchangeAddr dest q).Heeds (Aims kind) past := by
  refine Aims.andThen (Aims.awaited (.free rfl rfl nofun nofun)) fun tr _ _ => ?_
  have hd' : ⟨.resolve target, .ok dest⟩ ∈ past ++ tr := List.mem_append_left _ hd
  refine Aims.andThen (Aims.awaited (.open hd' (.inr rfl))) fun tr' _ _ => ?_
  cases encode q with
  | error e => trivial
  | ok bytes =>
    refine Aims.andThen (Aims.awaited (.free rfl rfl nofun nofun)) fun tr'' _ _ => ?_
    exact recvLoop_aims (List.mem_append_left _ (List.mem_append_left _ hd')) q 4

theorem dohExchange_aims (url : String) (q : Message) :
    (dohExchange url q).Heeds (Aims kind) past := by
  rw [dohExchange]
  cases encode q with
  | error e => trivial
  | ok bytes =>
    refine (Aims.awaited (.free rfl rfl (fun _ => by simp) fun _ => by simp)).bind fun tr r _ => ?_
    cases r with
    | error e => trivial
    | ok reply =>
      obtain ⟨status, text⟩ := reply
      dsimp only
      split_ifs
      · refine (Aims.awaited (.free rfl rfl (fun _ => by simp) fun _ => by simp)).bind
          fun tr' body _ => ?_
        cases body with
        | error e => trivial
        | ok body => exact Aims.andThen (p := done (decode body)) trivial fun _ _ _ => trivial
      · trivial

/-- An exchange resolves its target, and goes to what it got. -/
theorem exchangeKind_aims (c : Client) (q : Message) :
    (c.exchangeKind q).Heeds (Aims c.kind) [] := by
  obtain ⟨up, kind, resolver⟩ := c
  cases kind with
  | Udp target => exact resolved_aims rfl fun dest past hd => udpExchangeAddr_aims hd q
  | Tcp target =>
    exact resolved_aims rfl fun dest past hd =>
      exchangePooled_aims (connectTcp_reaches target dest) hd q
  | Tls target sni =>
    exact resolved_aims rfl fun dest past hd =>
      exchangePooled_aims (connectTls_reaches target sni dest) hd q
  | Doh url =>
    cases resolver with
    | false => exact dohExchange_aims url q
    | true =>
      refine Aims.andThen (Aims.awaited ⟨nofun, nofun, nofun, ?_⟩) fun _ _ _ =>
        dohExchange_aims url q
      rintro url' he
      cases he
      rfl

theorem exchangeInner_aims (c : Client) (q : Message) :
    (c.exchangeInner q).Heeds (Aims c.kind) [] :=
  (exchangeKind_aims c q).bind fun _ _ _ => trivial

end Upstream

/-! ### What a dialled exchange does -/

namespace Dial

def dest : Dial → Option SocketAddr
  | net e => e.dest
  | _ => none

/-- The stream that an action works on. -/
def uses : Dial → Option StreamId
  | net e => e.uses
  | _ => none

def asks : Dial → Bool
  | bootstrapIps _ _ | resolveTarget _ | lookupHost _ => true
  | _ => false

/-- The address was read from the slot. -/
def Known (past : DialTrace) (dest : SocketAddr) : Prop :=
  ⟨.get, some dest⟩ ∈ past ∨ ∃ dest', ⟨.init dest', dest⟩ ∈ past

/-- The stream was handed out. -/
def Handed (past : DialTrace) (s : StreamId) : Prop :=
  ∃ e r, (⟨.net e, r⟩ : Event Dial Answer) ∈ past ∧ gained ⟨e, r⟩ = some s

/-- Every address that these look-ups find was answered. -/
structure Told (lookups : Lookups) (past : DialTrace) : Prop where
  bootstrapIps : ∀ boot host ips, lookups.bootstrapIps boot host = .ok ips →
    ⟨.bootstrapIps boot host, .ok ips⟩ ∈ past
  resolveTarget : ∀ target dest, lookups.resolveTarget target = .ok dest →
    ⟨.resolveTarget target, .ok dest⟩ ∈ past

variable {past past' : DialTrace}

theorem Known.mono {dest : SocketAddr} (h : Known past dest) (hp : past ⊆ past') :
    Known past' dest :=
  h.imp (fun hget => hp hget) fun ⟨dest', hinit⟩ => ⟨dest', hp hinit⟩

theorem Handed.mono {s : StreamId} (h : Handed past s) (hp : past ⊆ past') : Handed past' s := by
  obtain ⟨e, r, hev, hs⟩ := h
  exact ⟨e, r, hp hev, hs⟩

theorem Told.mono {lookups : Lookups} (h : Told lookups past) (hp : past ⊆ past') :
    Told lookups past' :=
  ⟨fun boot host ips he => hp (h.bootstrapIps boot host ips he),
    fun target dest he => hp (h.resolveTarget target dest he)⟩

end Dial

namespace Dialer

open Dial

/-- The destination of the upstream, by answers that were given. -/
def Found (d : Dialer) (past : DialTrace) (dest : SocketAddr) : Prop :=
  ∃ lookups target, Told lookups past ∧ d.kind.target = some target ∧
    resolveSpec lookups d.spec target.toList = .ok dest

/-- The addresses of a host, by an answer that was given. -/
def FoundHost (d : Dialer) (past : DialTrace) (host : Text) (addrs : List SocketAddr) : Prop :=
  match d.spec.bootstrap with
  | some boot => ∃ ips, ⟨.bootstrapIps boot host, .ok ips⟩ ∈ past ∧
      addrs = ips.map fun ip => ⟨ip, 0⟩
  | none => ⟨.lookupHost host, .ok addrs⟩ ∈ past

/-- A look-up that has to be: nothing is known yet, no address is fixed, and the name is no
address. -/
inductive Wanted (d : Dialer) (past : DialTrace) : Dial → Prop
  | target {target : String} (hslot : ⟨.get, none⟩ ∈ past) (htarget : d.kind.target = some target)
      (hdial : d.spec.dialAddr = none)
      (hname : AddressParse.parseIp (hostOf target.toList) = none) :
      Wanted d past
        (match d.spec.bootstrap with
        | some boot => .bootstrapIps boot (hostOf target.toList)
        | none => .resolveTarget target.toList)
  | host {host : Text} (hcached : ⟨.cached host, none⟩ ∈ past) (hpins : d.resolver.getD [] = [])
      (hname : AddressParse.parseIp host = none) :
      Wanted d past
        (match d.spec.bootstrap with
        | some boot => .bootstrapIps boot host
        | none => .lookupHost host)

/-- What every action of an exchange heeds. -/
structure Follows (d : Dialer) (past : DialTrace) (e : Dial) : Prop where
  dest : ∀ dest, e.dest = some dest → Known past dest
  uses : ∀ s, e.uses = some s → Handed past s
  init : ∀ dest, e = .init dest → d.Found past dest
  remember : ∀ host addrs, e = .remember host addrs → d.FoundHost past host addrs
  asks : e.asks → d.Wanted past e

variable {d : Dialer} {past past' : DialTrace}

theorem Found.mono {dest : SocketAddr} (h : d.Found past dest) (hp : past ⊆ past') :
    d.Found past' dest := by
  obtain ⟨lookups, target, htold, htarget, hdest⟩ := h
  exact ⟨lookups, target, htold.mono hp, htarget, hdest⟩

theorem FoundHost.mono {host : Text} {addrs : List SocketAddr} (h : d.FoundHost past host addrs)
    (hp : past ⊆ past') : d.FoundHost past' host addrs := by
  unfold FoundHost at h ⊢
  split at h
  · obtain ⟨ips, hips, haddrs⟩ := h
    exact ⟨ips, hp hips, haddrs⟩
  · exact hp h

/-- An action on the slot, on what is remembered or on the resolvers, if a look-up is wanted. -/
theorem Follows.quiet {e : Dial} (hdest : e.dest = none) (huses : e.uses = none)
    (hinit : ∀ dest, e = .init dest → d.Found past dest)
    (hremember : ∀ host addrs, e = .remember host addrs → d.FoundHost past host addrs)
    (hasks : e.asks → d.Wanted past e) : d.Follows past e where
  dest dest he := by rw [hdest] at he; cases he
  uses s hs := by rw [huses] at hs; cases hs
  init := hinit
  remember := hremember
  asks := hasks

/-- A look-up succeeds by answers that were given. -/
theorem lookUp_found {spec : UpstreamSpec} {target : Text} {tr : DialTrace} {dest : SocketAddr}
    (h : Ends (lookUp spec target) tr (.ok dest)) :
    ∃ lookups, Told lookups tr ∧ resolveSpec lookups spec target = .ok dest := by
  let failing : Lookups := ⟨fun _ _ => .error (.other ""), fun _ => .error (.other "")⟩
  have hfailing (past : DialTrace) : Told failing past := by
    constructor
    · intro boot host ips h
      cases h
    · intro target dest h
      cases h
  unfold lookUp at h
  cases hdial : spec.dialAddr with
  | some dial =>
    rw [hdial] at h
    refine ⟨failing, hfailing _, ?_⟩
    rw [resolveSpec, hdial]
    exact (ends_done h).2
  | none =>
    simp only [hdial] at h
    cases hip : AddressParse.parseIp (hostOf target) with
    | some ip =>
      simp only [hip] at h
      refine ⟨failing, hfailing _, ?_⟩
      simp only [resolveSpec, hdial, hip]
      exact (ends_done h).2
    | none =>
      simp only [hip] at h
      cases hsocket : AddressParse.parseSocket target with
      | some a =>
        simp only [hsocket] at h
        refine ⟨failing, hfailing _, ?_⟩
        simp only [resolveSpec, hdial, hip, hsocket]
        exact (ends_done h).2
      | none =>
        simp only [hsocket] at h
        cases hboot : spec.bootstrap with
        | some boot =>
          simp only [hboot] at h
          obtain ⟨r, tr', rfl, hr⟩ := ends_act (ends_await h)
          cases r with
          | error e => cases (ends_done hr).2
          | ok ips =>
            refine ⟨⟨fun b host => if b = boot ∧ host = hostOf target then .ok ips
              else .error (.other ""), fun _ => .error (.other "")⟩, ⟨?_, fun _ _ he => ?_⟩, ?_⟩
            · intro b host ips' he
              dsimp only at he
              split_ifs at he with hb
              obtain ⟨rfl, rfl⟩ := hb
              cases he
              exact List.mem_cons_self
            · cases he
            · simp only [resolveSpec, hdial, hip, hsocket, hboot, and_self, if_true]
              cases hfirst : ips.head? with
              | some ip =>
                simp only [hfirst] at hr
                simp only [Bind.bind, Except.bind, hfirst]
                exact (ends_done hr).2
              | none =>
                simp only [hfirst] at hr
                simp only [Bind.bind, Except.bind, hfirst]
                exact (ends_done hr).2
        | none =>
          simp only [hboot] at h
          obtain ⟨r, tr', rfl, hr⟩ := ends_act (ends_await h)
          obtain ⟨-, rfl⟩ := ends_done hr
          refine ⟨⟨fun _ _ => .error (.other ""), fun t => if t = target then .ok dest
            else .error (.other "")⟩, ⟨fun _ _ _ he => ?_, ?_⟩, ?_⟩
          · cases he
          · intro t dest' he
            dsimp only at he
            split_ifs at he with ht
            cases he
            exact ht ▸ List.mem_cons_self
          · simp [resolveSpec, hdial, hip, hsocket, hboot]

theorem lookUp_follows {target : String} (htarget : d.kind.target = some target)
    (hslot : ⟨.get, none⟩ ∈ past) : (lookUp d.spec target.toList).Heeds d.Follows past := by
  unfold lookUp
  cases hdial : d.spec.dialAddr with
  | some dial => trivial
  | none =>
    dsimp only
    cases hname : AddressParse.parseIp (hostOf target.toList) with
    | some ip => trivial
    | none =>
      have hwanted := Wanted.target hslot htarget hdial hname
      dsimp only
      cases AddressParse.parseSocket target.toList with
      | some a => trivial
      | none =>
        dsimp only
        cases hboot : d.spec.bootstrap with
        | some boot =>
          rw [hboot] at hwanted
          refine ⟨.quiet rfl rfl (by simp) (by simp) fun _ => hwanted, fun r => ?_⟩
          cases r with
          | error e => trivial
          | ok ips =>
            dsimp only
            split
            · trivial
            · trivial
        | none =>
          rw [hboot] at hwanted
          exact ⟨.quiet rfl rfl (by simp) (by simp) fun _ => hwanted, fun _ => trivial⟩

theorem cachedDest_follows {target : String} (htarget : d.kind.target = some target) :
    (cachedDest d.spec target.toList).Heeds d.Follows past := by
  refine ⟨.quiet rfl rfl (by simp) (by simp) nofun, fun slot => ?_⟩
  cases slot with
  | some dest => trivial
  | none =>
    refine (lookUp_follows htarget (by simp)).bind fun tr r h => ?_
    cases r with
    | error e => trivial
    | ok dest =>
      refine ⟨.quiet rfl rfl (fun dest' he => ?_) (by simp) nofun, fun _ => trivial⟩
      cases he
      obtain ⟨lookups, htold, hdest⟩ := lookUp_found h
      exact ⟨lookups, target, htold.mono (List.subset_append_right _ _), htarget, hdest⟩

/-- What it returns was read from the slot. -/
theorem cachedDest_known {spec : UpstreamSpec} {target : Text} {tr : DialTrace} {dest : SocketAddr}
    (h : Ends (cachedDest spec target) tr (.ok dest)) : Known tr dest := by
  obtain ⟨slot, tr', rfl, hslot⟩ := ends_act h
  cases slot with
  | some dest' =>
    obtain ⟨rfl, hdest⟩ := ends_done hslot
    cases hdest
    exact .inl List.mem_cons_self
  | none =>
    obtain ⟨tr₁, tr₂, r, rfl, -, hr⟩ := ends_bind hslot
    cases r with
    | error e => cases (ends_done hr).2
    | ok found =>
      obtain ⟨dest', tr₃, rfl, hdone⟩ := ends_act hr
      obtain ⟨rfl, hdest⟩ := ends_done hdone
      cases hdest
      exact .inr ⟨found, by simp⟩

theorem remembered_follows {host : Text} {r : Except Error (List SocketAddr)}
    (h : ∀ addrs, r = .ok addrs → d.FoundHost past host addrs) :
    (remembered host r).Heeds d.Follows past := by
  cases r with
  | error e => trivial
  | ok addrs =>
    refine ⟨.quiet rfl rfl (by simp) (fun host' addrs' he => ?_) nofun, fun _ => trivial⟩
    cases he
    exact h addrs rfl

theorem resolveHost_follows (host : Text) :
    (resolveHost d.spec.bootstrap (d.resolver.getD []) host).Heeds d.Follows past := by
  unfold resolveHost
  split_ifs with hpins
  · trivial
  · cases hname : AddressParse.parseIp host with
    | some ip => trivial
    | none =>
      refine ⟨.quiet rfl rfl (by simp) (by simp) nofun, fun known => ?_⟩
      cases known with
      | some addrs => trivial
      | none =>
        have hcached : ⟨.cached host, none⟩ ∈
            past ++ [(⟨.cached host, none⟩ : Event Dial Dial.Answer)] := by
          simp
        have hwanted := Wanted.host (d := d) hcached (not_not.1 hpins) hname
        dsimp only
        cases hboot : d.spec.bootstrap with
        | some boot =>
          rw [hboot] at hwanted
          refine ⟨.quiet rfl rfl (by simp) (by simp) fun _ => hwanted, fun r => ?_⟩
          refine remembered_follows fun addrs haddrs => ?_
          unfold FoundHost
          rw [hboot]
          cases r with
          | error e => cases haddrs
          | ok ips =>
            cases haddrs
            exact ⟨ips, by simp, rfl⟩
        | none =>
          rw [hboot] at hwanted
          refine ⟨.quiet rfl rfl (by simp) (by simp) fun _ => hwanted, fun r => ?_⟩
          refine remembered_follows fun addrs haddrs => ?_
          unfold FoundHost
          rw [hboot, haddrs]
          simp

/-! ### From the exchange to the dialled exchange -/

/-- What was resolved is known, and what was handed out still is. -/
structure Stands (past : NetTrace) (past' : DialTrace) : Prop where
  resolved : ∀ target dest, ⟨.resolve target, .ok dest⟩ ∈ past → Known past' dest
  handed : ∀ s, Upstream.Handed past s → Handed past' s

theorem Stands.append {e : Net} {r : e.Answer} {past : NetTrace} {tr : DialTrace}
    (h : Stands past past')
    (hresolved : ∀ target dest, (⟨.resolve target, .ok dest⟩ : Event Net Net.Answer) = ⟨e, r⟩ →
      Known tr dest)
    (hhanded : ∀ s, gained ⟨e, r⟩ = some s → Handed tr s) :
    Stands (past ++ [⟨e, r⟩]) (past' ++ tr) where
  resolved target dest hd := by
    rcases List.mem_append.1 hd with hd | hd
    · exact (h.resolved target dest hd).mono (List.subset_append_left _ _)
    · exact (hresolved target dest (List.mem_singleton.1 hd)).mono (List.subset_append_right _ _)
  handed s hs := by
    obtain ⟨ev, hev, hgained⟩ := hs
    rcases List.mem_append.1 hev with hev | hev
    · exact (h.handed s ⟨ev, hev, hgained⟩).mono (List.subset_append_left _ _)
    · rw [List.mem_singleton.1 hev] at hgained
      exact (hhanded s hgained).mono (List.subset_append_right _ _)

theorem perform_net {e : Net} (htarget : ∀ target, e ≠ .resolve target)
    (hurl : ∀ url, e ≠ .resolveHost url) : d.perform e = act (Dial.net e) done := by
  cases e with
  | resolve target => exact absurd rfl (htarget target)
  | resolveHost url => exact absurd rfl (hurl url)
  | _ => rfl

theorem perform_follows {past : NetTrace} {e : Net} (hs : Stands past past')
    (he : Upstream.Aims d.kind past e) : (d.perform e).Heeds d.Follows past' ∧
      ∀ tr r, Ends (d.perform e) tr r → Stands (past ++ [⟨e, r⟩]) (past' ++ tr) := by
  by_cases htarget : ∃ target, e = .resolve target
  · obtain ⟨target, rfl⟩ := htarget
    refine ⟨cachedDest_follows (he.resolve target rfl), fun tr r h => hs.append ?_ nofun⟩
    intro target' dest heq
    cases heq
    exact cachedDest_known h
  by_cases hurl : ∃ url, e = .resolveHost url
  · obtain ⟨url, rfl⟩ := hurl
    exact ⟨(resolveHost_follows _).bind fun _ _ _ => trivial,
      fun tr r h => hs.append (fun _ _ heq => by cases heq) nofun⟩
  rw [perform_net (not_exists.1 htarget) (not_exists.1 hurl)]
  refine ⟨⟨⟨fun dest hd => ?_, fun s hu => hs.handed s (he.uses s hu), nofun, nofun, nofun⟩,
    fun _ => trivial⟩, fun tr r h => hs.append (fun target dest heq => ?_) fun s hgained => ?_⟩
  · obtain ⟨target, hmem⟩ := he.dest dest hd
    exact hs.resolved target dest hmem
  · cases heq
    exact absurd rfl (not_exists.1 htarget target)
  · obtain ⟨r', tr', rfl, hdone⟩ := ends_act h
    obtain ⟨-, rfl⟩ := ends_done hdone
    exact ⟨e, r', List.mem_cons_self, hgained⟩

variable [Crates]

/-- Every action of an exchange heeds the rule, wherever the exchange is cut short. -/
theorem exchange_follows (d : Dialer) (q : Message) : (d.exchange q).Heeds d.Follows [] := by
  have hinner : (d.exchangeInner q).Heeds d.Follows [] :=
    (Upstream.exchangeInner_aims d.client q).expand (fun hs he => perform_follows hs he)
      ⟨nofun, fun s hs => by obtain ⟨ev, hev, -⟩ := hs; cases hev⟩
  refine hinner.timeout.bind fun tr r _ => ?_
  cases r with
  | error late => trivial
  | ok r => trivial

end Dialer

/-! ### Exchanges side by side -/

/-- The slot, the addresses remembered, the pool and the clock. -/
structure DialWorld where
  slot : Option SocketAddr
  hosts : List (Text × List SocketAddr)
  net : NetWorld

namespace DialWorld

/-- A slot that is full stays as it is, and look-ups answer anything. -/
def perform (w : DialWorld) : (e : Dial) → e.Answer → DialWorld → Prop
  | .get, r, w' => r = w.slot ∧ w' = w
  | .init dest, r, w' => r = w.slot.getD dest ∧ w' = { w with slot := some (w.slot.getD dest) }
  | .cached host, r, w' => r = w.hosts.lookup host ∧ w' = w
  | .remember host addrs, _, w' => w' = { w with hosts := (host, addrs) :: w.hosts }
  | .net e, r, w' => ∃ n, w.net.perform e r n ∧ w' = { w with net := n }
  | _, _, w' => w' = w

/-- Time passes. -/
inductive Drift : DialWorld → DialWorld → Prop
  | net {w : DialWorld} {n : NetWorld} (h : w.net.Drift n) : Drift w { w with net := n }

end DialWorld

namespace Dialer

open Dial

variable [Crates]

/-- Exchanges, and the client for HTTPS that asks the resolver for a host. -/
inductive Starts (d : Dialer) : Dialed Unit → Prop
  | exchange (q : Message) : Starts d ((d.exchange q).bind fun _ => done ())
  | resolve {pins : List SocketAddr} (h : d.resolver = some pins) (host : Text) :
      Starts d ((resolveHost d.spec.bootstrap pins host).bind fun _ => done ())

def site (d : Dialer) : Site DialWorld Unit Dial Dial.Answer Unit where
  perform := DialWorld.perform
  drift := DialWorld.Drift
  admits := d.Starts

abbrev Dialings := Crew DialWorld Unit Dial Dial.Answer Unit

/-- An upstream that was just set up. -/
def fresh (cap idle clock opened : ℕ) : Dialings :=
  ⟨⟨none, [], .new cap idle, clock, opened⟩, []⟩

theorem Starts.follows {d : Dialer} {p : Dialed Unit} (h : d.Starts p) : p.Heeds d.Follows [] := by
  cases h with
  | exchange q => exact (d.exchange_follows q).bind fun _ _ _ => trivial
  | @resolve pins h host =>
    have hpins : d.resolver.getD [] = pins := by rw [h]; rfl
    exact (hpins ▸ resolveHost_follows host).bind fun _ _ _ => trivial

omit [Crates] in
/-- The state after everything in the log. -/
structure Sound (d : Dialer) (log : DialTrace) (w : DialWorld) : Prop where
  known : ∀ dest, Known log dest → w.slot = some dest
  found : ∀ dest, w.slot = some dest → d.Found log dest
  hosts : ∀ host addrs, w.hosts.lookup host = some addrs → d.FoundHost log host addrs
  aimed : ∀ ev ∈ log, ∀ dest, ev.1.dest = some dest → w.slot = some dest
  pooled : ∀ s ∈ w.net.pool.ids, ∃ dest, ⟨.net (.connect dest), .ok s⟩ ∈ log
  handed : ∀ s, Handed log s → ∃ dest, ⟨.net (.connect dest), .ok s⟩ ∈ log
  used : ∀ ev ∈ log, ∀ s, ev.1.uses = some s → ∃ dest, ⟨.net (.connect dest), .ok s⟩ ∈ log

omit [Crates] in
/-- The slot keeps what it has, and is filled with what was found. -/
theorem slot_of_perform {w w' : DialWorld} {e : Dial} {r : e.Answer} (h : w.perform e r w') :
    (∀ dest, w.slot = some dest → w'.slot = some dest) ∧
    (∀ dest, Known [⟨e, r⟩] dest → w'.slot = some dest) ∧
    ∀ dest, w'.slot = some dest → w.slot = some dest ∨ e = .init dest := by
  cases e with
  | get =>
    obtain ⟨rfl, rfl⟩ := h
    refine ⟨fun _ h => h, fun dest hk => ?_, fun _ h => .inl h⟩
    rcases hk with hk | ⟨dest', hk⟩
    · simpa [eq_comm] using hk
    · simp at hk
  | init dest =>
    obtain ⟨rfl, rfl⟩ := h
    refine ⟨fun dest' hd => by simp [hd], fun dest' hk => ?_, fun dest' hd => ?_⟩
    · rcases hk with hk | ⟨_, hk⟩
      · simp at hk
      · cases List.mem_singleton.1 hk
        rfl
    · cases hs : w.slot with
      | none => simpa [hs] using hd
      | some dest'' => exact .inl (by simpa [hs] using hd)
  | cached host =>
    obtain ⟨-, rfl⟩ := h
    exact ⟨fun _ h => h, by simp [Known], fun _ h => .inl h⟩
  | net e =>
    obtain ⟨n, -, rfl⟩ := h
    exact ⟨fun _ h => h, by simp [Known], fun _ h => .inl h⟩
  | _ =>
    cases h
    exact ⟨fun _ h => h, by simp [Known], fun _ h => .inl h⟩

omit [Crates] in
/-- Addresses are remembered as they were found. -/
theorem hosts_of_perform {w w' : DialWorld} {e : Dial} {r : e.Answer} (h : w.perform e r w')
    {host : Text} {addrs : List SocketAddr} (ha : w'.hosts.lookup host = some addrs) :
    w.hosts.lookup host = some addrs ∨ e = .remember host addrs := by
  cases e with
  | get | init _ | cached _ =>
    obtain ⟨-, rfl⟩ := h
    exact .inl ha
  | remember host' addrs' =>
    cases h
    rw [List.lookup_cons] at ha
    by_cases heq : host == host'
    · rw [heq] at ha
      cases ha
      exact .inr (by rw [eq_of_beq heq])
    · rw [Bool.eq_false_iff.2 heq] at ha
      exact .inl ha
  | net e =>
    obtain ⟨n, -, rfl⟩ := h
    exact .inl ha
  | _ =>
    cases h
    exact .inl ha

omit [Crates] in
/-- What is pooled was pooled or is put back now, and what is handed out was pooled or is opened
now. -/
theorem streams_of_perform {w w' : DialWorld} {e : Dial} {r : e.Answer} (h : w.perform e r w')
    (s : StreamId) :
    (s ∈ w'.net.pool.ids → s ∈ w.net.pool.ids ∨ e.uses = some s) ∧
    (Handed [⟨e, r⟩] s → s ∈ w.net.pool.ids ∨
      ∃ dest, (⟨e, r⟩ : Event Dial Answer) = ⟨.net (.connect dest), .ok s⟩) := by
  cases e with
  | net e =>
    obtain ⟨n, hn, rfl⟩ := h
    constructor
    · intro hs
      rcases Upstream.ids_of_perform hn hs with hs | rfl
      · exact .inl hs
      · exact .inr rfl
    · rintro ⟨e', r', hmem, hgained⟩
      cases List.mem_singleton.1 hmem
      cases e with
      | take now =>
        obtain ⟨hr, -⟩ := hn
        obtain ⟨stale, t, heq, -⟩ := StreamPool.takeSlots_some (hr.symm.trans hgained)
        refine .inl (List.mem_map.2 ⟨(s, t), ?_, rfl⟩)
        rw [heq]
        exact List.mem_append_right _ List.mem_cons_self
      | connect dest =>
        cases r with
        | error err => cases hgained
        | ok s' =>
          cases hgained
          exact .inr ⟨dest, rfl⟩
      | _ => cases hgained
  | get | init _ | cached _ =>
    obtain ⟨-, rfl⟩ := h
    exact ⟨.inl, by simp [Handed]⟩
  | _ =>
    cases h
    exact ⟨.inl, by simp [Handed]⟩

omit [Crates] in
theorem Sound.act {d : Dialer} {log past : DialTrace} {w w' : DialWorld} {e : Dial} {r : e.Answer}
    (h : d.Sound log w) (hpast : past ⊆ log) (hf : d.Follows past e) (hw : w.perform e r w') :
    d.Sound (log ++ [⟨e, r⟩]) w' := by
  have hlog : log ⊆ log ++ [⟨e, r⟩] := List.subset_append_left _ _
  obtain ⟨hkeeps, hknows, hfills⟩ := slot_of_perform hw
  have hlonger {s : StreamId} (hs : ∃ dest, ⟨.net (.connect dest), .ok s⟩ ∈ log) :
      ∃ dest, ⟨.net (.connect dest), .ok s⟩ ∈ log ++ [⟨e, r⟩] :=
    hs.imp fun _ hmem => hlog hmem
  have huses {s : StreamId} (hs : e.uses = some s) :
      ∃ dest, ⟨.net (.connect dest), .ok s⟩ ∈ log ++ [⟨e, r⟩] :=
    hlonger (h.handed s ((hf.uses s hs).mono hpast))
  constructor
  · intro dest hk
    rcases hk with hk | ⟨dest', hk⟩
    · rcases List.mem_append.1 hk with hk | hk
      · exact hkeeps dest (h.known dest (.inl hk))
      · exact hknows dest (.inl hk)
    · rcases List.mem_append.1 hk with hk | hk
      · exact hkeeps dest (h.known dest (.inr ⟨dest', hk⟩))
      · exact hknows dest (.inr ⟨dest', hk⟩)
  · intro dest hd
    rcases hfills dest hd with hd | rfl
    · exact (h.found dest hd).mono hlog
    · exact (hf.init dest rfl).mono (List.Subset.trans hpast hlog)
  · intro host addrs ha
    rcases hosts_of_perform hw ha with ha | rfl
    · exact (h.hosts host addrs ha).mono hlog
    · exact (hf.remember host addrs rfl).mono (List.Subset.trans hpast hlog)
  · intro ev hev dest hd
    rcases List.mem_append.1 hev with hev | hev
    · exact hkeeps dest (h.aimed ev hev dest hd)
    · rw [List.mem_singleton.1 hev] at hd
      exact hkeeps dest (h.known dest ((hf.dest dest hd).mono hpast))
  · intro s hs
    rcases (streams_of_perform hw s).1 hs with hs | hs
    · exact hlonger (h.pooled s hs)
    · exact huses hs
  · rintro s ⟨e', r', hmem, hgained⟩
    rcases List.mem_append.1 hmem with hmem | hmem
    · exact hlonger (h.handed s ⟨e', r', hmem, hgained⟩)
    · rcases (streams_of_perform hw s).2 ⟨e', r', hmem, hgained⟩ with hs | ⟨dest, heq⟩
      · exact hlonger (h.pooled s hs)
      · exact ⟨dest, heq ▸ List.mem_append_right _ (List.mem_singleton_self _)⟩
  · intro ev hev s hs
    rcases List.mem_append.1 hev with hev | hev
    · exact hlonger (h.used ev hev s hs)
    · rw [List.mem_singleton.1 hev] at hs
      exact huses hs

omit [Crates] in
theorem Sound.fresh (d : Dialer) (cap idle clock opened : ℕ) :
    d.Sound [] (Dialer.fresh cap idle clock opened).world where
  known dest hk := by simp [Known] at hk
  found _ := nofun
  hosts _ _ := nofun
  aimed _ := nofun
  pooled s hs := by simp [Dialer.fresh, StreamPool.new, StreamPool.ids] at hs
  handed s hs := by simp [Handed] at hs
  used _ := nofun

/-- In every run of exchanges with one upstream, which may overlap and be dropped anywhere: whatever
they open a stream or a socket to is the one address in the slot; that address is the destination of
the upstream by answers that were given, and what is remembered of a host is too; a stream that is
used was opened to it, also when it was pooled; nobody looks up but for a destination that it found
the slot without; and an exchange returns only a response to its query. -/
theorem one_destination (d : Dialer) (cap idle clock opened : ℕ) (log : DialTrace) (c : Dialings)
    (h : Crew.Run d.site (fresh cap idle clock opened) log c) :
    (∀ ev ∈ log, ∀ dest, ev.1.dest = some dest → c.world.slot = some dest) ∧
    (∀ dest, c.world.slot = some dest → d.Found log dest) ∧
    (∀ host addrs, c.world.hosts.lookup host = some addrs → d.FoundHost log host addrs) ∧
    (∀ ev ∈ log, ∀ s, ev.1.uses = some s →
      ∃ dest, ⟨.net (.connect dest), .ok s⟩ ∈ log ∧ c.world.slot = some dest) ∧
    (∀ t ev c', Crew.Step d.site c (some (t, ev)) c' → ev.1.asks → d.Wanted t.past ev.1) ∧
    ∀ q m tr, Ends (d.exchange q) tr (.ok m) → Accepts q m := by
  have hinv := h.inv (G := d.Follows) (I := d.Sound) Starts.follows
    (fun hs hpast hf hw => hs.act hpast hf hw) (fun hs hd => ?_) (Sound.fresh d cap idle clock opened)
  · obtain ⟨hsound, hall⟩ := hinv
    refine ⟨hsound.aimed, hsound.found, hsound.hosts, fun ev hev s hs => ?_, ?_, ?_⟩
    · obtain ⟨dest, hdest⟩ := hsound.used ev hev s hs
      exact ⟨dest, hdest, hsound.aimed _ hdest dest rfl⟩
    · intro t ev c' hstep hasks
      cases hstep with
      | act hrest r hw => exact (Member.heeds (hall t (by simp)).1 hrest).asks hasks
    · intro q m tr hends
      obtain ⟨tr', hclient⟩ := exchange_ok hends
      exact Client.exchange_accepts hclient
  · cases hd with
    | net hdrift =>
      cases hdrift with
      | tick => exact ⟨hs.known, hs.found, hs.hosts, hs.aimed, hs.pooled, hs.handed, hs.used⟩

/-! ### Two look-ups that overlap -/

section Sample

omit [Crates]

open Sample Upstream

/-- `dns.test` over TCP. -/
def named : Dialer where
  spec := ⟨"tcp://dns.test".toList, none, none⟩
  tag := none
  kind := .Tcp "dns.test:53"
  resolver := none

example : connect named.spec none = .ok named := by decide +kernel

def other : SocketAddr := ⟨.v4 1, 53⟩

/-- Looking up `dns.test` answers with another address once the slot is full. -/
def resolving : Oracle DialWorld Unit Unit Dial Dial.Answer
  | w, .get => some (w.slot, w, [])
  | w, .init dest => some (w.slot.getD dest, { w with slot := some (w.slot.getD dest) }, [])
  | w, .resolveTarget _ => some (.ok (if w.slot.isNone then server else other), w, [])
  | w, .net e => (serving w.net e).map fun x => (x.1, { w with net := x.2.1 }, [])
  | _, _ => none

theorem resolving_performs {w w' : DialWorld} {e : Dial} {r : e.Answer}
    {new : List (Unit × Dialed Unit)} (h : resolving w e = some (r, w', new)) :
    w.perform e r w' := by
  cases e with
  | net e =>
    obtain ⟨⟨r', n, new'⟩, hserving, heq⟩ := Option.map_eq_some_iff.1 h
    cases heq
    exact ⟨n, serving_performs hserving, rfl⟩
  | get | init _ =>
    cases h
    exact ⟨rfl, rfl⟩
  | resolveTarget target =>
    cases h
    rfl
  | _ => cases h

/-- An exchange with the sample query. -/
def asking : Dialed Unit := (@exchange codec named query).bind fun _ => done ()

theorem asking_starts : @Starts codec named asking := @Starts.exchange codec named query

/-- How a program goes on that is about to read the slot. -/
def reading : Dialed Unit → Option (Option SocketAddr → Dialed Unit)
  | .act .get k => some k
  | .await _ p => reading p
  | .choose k => reading (k false)
  | _ => none

theorem reading_leads {p : Dialed Unit} {k : Option SocketAddr → Dialed Unit}
    (h : reading p = some k) : Leads p [] (act .get k) := by
  induction p with
  | done a => cases h
  | act e next ih =>
    cases e with
    | get =>
      cases h
      exact .refl _
    | _ => cases h
  | await s p ih => exact .await (ih h)
  | choose next ih => exact .choose false (ih false h)

/-- An exchange finds the slot empty; before it looks up, another one fills the slot. The address
that the first one finds is not the one it goes to. -/
theorem one_destination_overlapping : ∃ (log : DialTrace) (c : Dialings),
    Crew.Run (@site codec named) (fresh 8 10 0 0) log c ∧ ⟨.init other, server⟩ ∈ log ∧
      c.world.slot = some server ∧ named.Found log server := by
  have hplay : ((reading asking).bind fun k => (asking.play resolving false
      (fresh 8 10 0 0).world).bind fun x => ((k none).play resolving false x.2.2.1).map fun y =>
        (y.1.any fun ev =>
          match ev with
          | ⟨.init dest, r⟩ => dest == other && r == server
          | _ => false, y.2.2.1.slot)) = some (true, some server) := by
    decide +kernel
  obtain ⟨k, hk, hplay⟩ := Option.bind_eq_some_iff.1 hplay
  obtain ⟨⟨tr, a, w, new⟩, hfirst, hplay⟩ := Option.bind_eq_some_iff.1 hplay
  obtain ⟨⟨tr', a', w', new'⟩, hsecond, hplay⟩ := Option.map_eq_some_iff.1 hplay
  simp only [Prod.mk.injEq] at hplay
  obtain ⟨hinit, hslot⟩ := hplay
  -- the exchange that reads first, and stops there
  have harrive : Crew.Run (@site codec named) (fresh 8 10 0 0) []
      ⟨(fresh 8 10 0 0).world, [Member.begin asking]⟩ := .step .refl (.arrive asking_starts)
  have hmove := harrive.step (@Crew.Step.move _ _ _ _ _ _ _ [] [] _ _ (reading_leads hk))
  have hempty : (fresh 8 10 0 0).world.perform .get none (fresh 8 10 0 0).world := ⟨rfl, rfl⟩
  have hrest : ((Member.begin asking).moved (reading_leads hk)).rest = .act .get k := rfl
  have hread := hmove.step (.act hrest none hempty)
  -- the one that fills the slot
  have harrive' := hread.step (.arrive asking_starts)
  obtain ⟨t, -, hrun⟩ := @Crew.play_run _ _ _ _ _ (@site codec named) _ _ _ resolving_performs
    _ _ _ _ _ _ hfirst _ _ _ [_] [] rfl harrive'
  obtain ⟨t', -, hrun'⟩ := @Crew.play_run _ _ _ _ _ (@site codec named) _ _ _ resolving_performs
    _ _ _ _ _ _ hsecond _ _ _ [] _ rfl hrun
  refine ⟨_, _, hrun', List.mem_append_right _ ?_, hslot,
    (@one_destination codec named 8 10 0 0 _ _ hrun').2.1 server hslot⟩
  obtain ⟨⟨e, r⟩, hmem, he⟩ := List.any_eq_true.1 hinit
  cases e with
  | init dest =>
    simp only [Bool.and_eq_true, beq_iff_eq] at he
    obtain ⟨rfl, rfl⟩ := he
    exact hmem
  | _ => cases he

end Sample

end Dialer

end FerrumDns
