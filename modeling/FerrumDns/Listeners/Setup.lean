import FerrumDns.Context
import FerrumDns.Fallible
import FerrumDns.Text.Splitting
import FerrumDns.Config

/-! Setting up listeners. The settings of a listener are checked when a runtime is built
and read again when the listener is started. What was checked starts: every file and
address is read as it was by the check, and the paths of a listener for HTTPS are fixed and
differ, as the router asks. -/

namespace FerrumDns

open Text Fallible

/-- What is read by other crates or from files: socket addresses, a path with its query, a
certificate with its key, and the number of processors. -/
structure ListenerCrates where
  socketAddr : String → Except String Unit
  uri : Text → Except String (Text × Option Text)
  tlsAcceptor : String → String → List String → Except Error Unit
  parallelism : Option ℕ

namespace ListenerConfig

/-- The protocol in lower case. -/
def proto (l : ListenerConfig) : String := String.ofList (lowercase l.protocol.toList)

def dohPath (l : ListenerConfig) : Text := (l.urlPath.getD "/dns-query").toList

/-- Whether the settings ask for TLS, as the administrative interface reads them. -/
def isTls (l : ListenerConfig) : Bool :=
  l.proto ∈ ["tls", "dot"] ||
    (l.proto ∈ ["http", "https", "doh"] && l.cert.isSome && l.key.isSome)

/-- What clients of a listener for HTTPS may offer. -/
def alpn : List String := ["h2", "http/1.1"]

end ListenerConfig

/-- A path without captures, which a router takes. -/
structure FixedPath (path : Text) : Prop where
  absolute : path.head? = some '/'
  plain : ∀ c ∈ path, c ∉ "{}*#".toList
  segments : ∀ segment ∈ path.splitOn '/', segment.head? ≠ some ':'

namespace Server

open ListenerConfig

/-- The check of the path in `validate_listener`. -/
def validatePath (c : ListenerCrates) (path : Text) : Except Error Unit := do
  let uri ← (c.uri path).mapError fun e => .config ("bad doh path: " ++ e)
  if path.head? ≠ some '/' ∨ uri.1 ≠ path ∨ uri.2.isSome ∨ path.any (· ∈ "{}*#".toList) ∨
      (path.splitOn '/').any fun segment => segment.head? = some ':' then
    .error (.config "doh url_path must be a fixed absolute URL path")
  else .ok ()

/-- The acceptor of a listener for streams over TLS, which is made for the check too. -/
def acceptor (c : ListenerCrates) (l : ListenerConfig) : Except Error Unit :=
  match l.cert, l.key with
  | none, _ => .error (.config "tls listener needs cert")
  | some _, none => .error (.config "tls listener needs key")
  | some cert, some key => c.tlsAcceptor cert key []

/-- The check of a listener for HTTPS, or for HTTP behind a terminator. -/
def validateDoh (c : ListenerCrates) (l : ListenerConfig) : Except Error Unit := do
  validatePath c l.dohPath
  match l.cert, l.key with
  | some cert, some key => c.tlsAcceptor cert key alpn
  | none, none => .ok ()
  | _, _ => .error (.config "doh https needs both cert and key")

def validateListener (c : ListenerCrates) (l : ListenerConfig) : Except Error Unit := do
  (c.socketAddr l.addr).mapError fun e => .config ("bad listen addr " ++ l.addr ++ ": " ++ e)
  match l.proto with
  | "udp" | "" | "tcp" => .ok ()
  | "tls" | "dot" => acceptor c l
  | "doh" | "https" | "http" => validateDoh c l
  | other => .error (.config ("unknown listener protocol `" ++ other ++ "`"))

/-! ### Starting -/

/-- What a listener is before its sockets are bound: how many sockets for datagrams, how long a
stream may be idle, or which paths are served and how long a handshake may take. -/
inductive Service where
  | datagrams (workers : ℕ)
  | streams (proto : ClientProto) (idle : ℕ) (tls : Bool)
  | https (paths : List Text) (handshake : Option ℕ)
  deriving DecidableEq, Repr

structure Started where
  entry : Tag
  timeout : ℕ
  addr : String
  service : Service
  deriving DecidableEq, Repr

def udpWorkerCount (c : ListenerCrates) (l : ListenerConfig) : ℕ :=
  match l.workers with
  | some n => if 0 < n then n.toNat else ((c.parallelism.map fun n => min (max n 1) 8).getD 2)
  | none => (c.parallelism.map fun n => min (max n 1) 8).getD 2

/-- The time a connection may be idle, in seconds. -/
def idle (l : ListenerConfig) : ℕ := max (l.idleTimeout.getD 10).toNat 1

/-- The default path is always served. -/
def routes (path : Text) : List Text :=
  if path ≠ "/dns-query".toList then ["/dns-query".toList, path] else ["/dns-query".toList]

def spawnDoh (c : ListenerCrates) (l : ListenerConfig) : Except Error Service := do
  (c.socketAddr l.addr).mapError fun e => .config ("bad doh addr: " ++ e)
  match l.cert, l.key with
  | some cert, some key => do
    c.tlsAcceptor cert key alpn
    .ok (.https (routes l.dohPath) (some (min (idle l) 10)))
  | none, none => .ok (.https (routes l.dohPath) none)
  | _, _ =>
    .error (.config ("doh https needs both cert and key " ++
      "(omit both for plaintext behind a TLS terminator)"))

/-- What is started for the protocol. -/
def service (c : ListenerCrates) (l : ListenerConfig) : Except Error Service :=
  match l.proto with
  | "udp" | "" => .ok (.datagrams (max (udpWorkerCount c l) 1))
  | "tcp" => .ok (.streams .Tcp (idle l) false)
  | "tls" | "dot" => (acceptor c l).map fun _ => .streams .Tls (idle l) true
  | "doh" | "https" | "http" => spawnDoh c l
  | other => .error (.config ("unknown listener protocol `" ++ other ++ "`"))

/-- `spawn_listener` up to the binding of sockets. -/
def spawnListener (c : ListenerCrates) (entry : Tag) (timeout : ℕ) (l : ListenerConfig) :
    Except Error Started := do
  validateListener c l
  let service ← service c l
  .ok ⟨entry, timeout, l.addr, service⟩

/-- The listeners that `Live::serve` starts, each with the entry of its server. -/
def spawnAll (c : ListenerCrates) (servers : List ServerConfig) : List (Except Error Started) :=
  servers.flatMap fun server =>
    server.listeners.map fun l => spawnListener c server.exec (max server.timeout.toNat 1) l

/-! ### What the check is for -/

theorem validatePath_eq_ok {c : ListenerCrates} {path : Text} (h : validatePath c path = .ok ()) :
    FixedPath path := by
  obtain ⟨uri, -, hpath⟩ := bind_eq_ok.1 h
  have hnot := (ite_error_eq_ok.1 hpath).1
  simp only [not_or, not_not, List.any_eq_true, decide_eq_true_eq, not_exists, not_and] at hnot
  obtain ⟨habsolute, -, -, hplain, hsegments⟩ := hnot
  exact ⟨habsolute, hplain, hsegments⟩

/-- The path that is served next to the default one is another one. -/
theorem nodup_routes (path : Text) : (routes path).Nodup := by
  unfold routes
  split_ifs with hpath
  · simpa using hpath.symm
  · exact List.nodup_singleton _

theorem fixed_routes {path : Text} (h : FixedPath path) : ∀ p ∈ routes path, FixedPath p := by
  have hdefault : FixedPath "/dns-query".toList :=
    ⟨rfl, by simp, by decide⟩
  unfold routes
  split_ifs
  · simpa using ⟨hdefault, h⟩
  · simpa using hdefault

/-- What a service is by its protocol, and whether it is one over TLS. -/
inductive Service.Serves : String → Bool → Service → Prop
  | datagrams {proto : String} {workers : ℕ} (hproto : proto = "udp" ∨ proto = "")
      (hworkers : 0 < workers) : Serves proto false (.datagrams workers)
  | tcp {idle : ℕ} : Serves "tcp" false (.streams .Tcp idle false)
  | tls {proto : String} {idle : ℕ} (hproto : proto = "tls" ∨ proto = "dot") :
      Serves proto true (.streams .Tls idle true)
  | https {proto : String} {tls : Bool} {paths : List Text} {handshake : Option ℕ}
      (hproto : proto = "doh" ∨ proto = "https" ∨ proto = "http") (hnodup : paths.Nodup)
      (hfixed : ∀ p ∈ paths, FixedPath p) (htls : handshake.isSome = tls) :
      Serves proto tls (.https paths handshake)

/-- A listener for HTTPS whose settings were checked is set up, over TLS if it has a certificate
with its key. -/
theorem spawnDoh_serves {c : ListenerCrates} {l : ListenerConfig}
    (haddr : c.socketAddr l.addr = .ok ())
    (hproto : l.proto = "doh" ∨ l.proto = "https" ∨ l.proto = "http")
    (h : validateDoh c l = .ok ()) :
    ∃ s, spawnDoh c l = .ok s ∧ s.Serves l.proto (l.cert.isSome && l.key.isSome) := by
  obtain ⟨_, hpath, hfiles⟩ := bind_eq_ok.1 h
  have hfixed := fixed_routes (validatePath_eq_ok hpath)
  split at hfiles
  next cert key hcert hkey =>
    rw [hcert, hkey]
    refine ⟨.https (routes l.dohPath) (some (min (idle l) 10)), ?_,
      .https hproto (nodup_routes _) hfixed rfl⟩
    simp only [spawnDoh, haddr, hcert, hkey, hfiles]
    rfl
  next hcert hkey =>
    rw [hcert, hkey]
    refine ⟨.https (routes l.dohPath) none, ?_, .https hproto (nodup_routes _) hfixed rfl⟩
    simp only [spawnDoh, haddr, hcert, hkey]
    rfl
  next => cases hfiles

/-- For settings that were checked there is a service, over TLS if they ask for it. -/
theorem service_serves {c : ListenerCrates} {l : ListenerConfig}
    (h : validateListener c l = .ok ()) : ∃ s, service c l = .ok s ∧ s.Serves l.proto l.isTls := by
  obtain ⟨_, haddr, hproto⟩ := bind_eq_ok.1 h
  have haddr' : c.socketAddr l.addr = .ok () := mapError_eq_ok haddr
  have hworkers : 0 < max (udpWorkerCount c l) 1 := by omega
  unfold service
  split at hproto
  next hp => exact ⟨_, rfl, by simpa [isTls, hp] using .datagrams (.inl rfl) hworkers⟩
  next hp => exact ⟨_, rfl, by simpa [isTls, hp] using .datagrams (.inr rfl) hworkers⟩
  next hp => exact ⟨_, rfl, by simpa [isTls, hp] using .tcp⟩
  next hp =>
    rw [hproto]
    exact ⟨_, rfl, by simpa [isTls, hp] using .tls (.inl rfl)⟩
  next hp =>
    rw [hproto]
    exact ⟨_, rfl, by simpa [isTls, hp] using .tls (.inr rfl)⟩
  next hp => simpa [isTls, hp] using spawnDoh_serves haddr' (.inl hp) hproto
  next hp => simpa [isTls, hp] using spawnDoh_serves haddr' (.inr (.inl hp)) hproto
  next hp => simpa [isTls, hp] using spawnDoh_serves haddr' (.inr (.inr hp)) hproto
  next => cases hproto

/-- A listener whose settings were checked is set up as they say. -/
theorem spawnListener_serves {c : ListenerCrates} {l : ListenerConfig}
    (h : validateListener c l = .ok ()) (entry : Tag) (timeout : ℕ) :
    ∃ s, spawnListener c entry timeout l = .ok ⟨entry, timeout, l.addr, s⟩ ∧
      s.Serves l.proto l.isTls := by
  obtain ⟨s, hs, hserves⟩ := service_serves h
  refine ⟨s, ?_, hserves⟩
  simp only [spawnListener, h, hs]
  rfl

end Server

end FerrumDns
