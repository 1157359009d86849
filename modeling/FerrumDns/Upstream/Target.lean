import FerrumDns.Dns.AddressParse
import FerrumDns.Text.Splitting
import FerrumDns.Upstream.Exchange

/-! Where an upstream is dialled. Its address is a text with scheme, host, port and path;
the target is the host with a port, and a fixed address to dial stands in for the host.
Ports default to that of the scheme. -/

namespace FerrumDns

open Text AddressParse

structure UpstreamSpec where
  addr : Text
  dialAddr : Option Text
  bootstrap : Option Text
  deriving DecidableEq, Repr

namespace Target

/-- Bootstrap look-ups and the resolver of the system. -/
structure Lookups where
  bootstrapIps : Text → Text → Except Error (List IpAddr)
  resolveTarget : Text → Except Error SocketAddr

def splitScheme (addr : Text) : Text × Text :=
  match splitOnText "://".toList addr with
  | some parts => parts
  | none => ([], addr)

/-- What comes before the first slash. -/
def beforePath (rest : Text) : Text := (rest.splitOn '/').headD rest

def hostOf (rest : Text) : Text :=
  let rest := beforePath rest
  match stripPrefix ['['] rest with
  | some inner => (inner.splitOn ']').headD inner
  | none =>
    if (parseIpv6 rest).isSome then rest
    else match rsplitOnce ':' rest with
      | some (h, p) => if (parseU16 p).isSome then h else rest
      | none => rest

def portOf (hostport : Text) (default : UInt16) : UInt16 :=
  let rest := beforePath hostport
  match stripPrefix ['['] rest with
  | some inner =>
    ((((inner.splitOn ']')[1]?).bind (stripPrefix [':'])).bind parseU16).getD default
  | none =>
    if (parseIpv6 rest).isSome then default
    else ((rsplitOnce ':' rest).bind fun (_, p) => parseU16 p).getD default

def normalizeHostport (rest : Text) (defaultPort : UInt16) : Text :=
  let rest := beforePath rest
  if rest.head? = some '[' then
    if "]:".toList <:+: rest then rest else rest ++ ':' :: decimal defaultPort.toNat
  else if (parseIpv6 rest).isSome then '[' :: rest ++ ']' :: ':' :: decimal defaultPort.toNat
  else if rest.count ':' = 1 then rest
  else rest ++ ':' :: decimal defaultPort.toNat

def urlHostPort (url : Text) (defaultPort : UInt16) : Text × UInt16 :=
  -- `nth(1)` of the parts ends at a second separator.
  let rest :=
    match splitOnText "://".toList url with
    | some (_, rest) => ((splitOnText "://".toList rest).map Prod.fst).getD rest
    | none => url
  let authority := beforePath rest
  (lowercase (hostOf authority), portOf authority defaultPort)

def parseIpPort (s : Text) (defaultPort : UInt16) : Except Error SocketAddr :=
  let s := trim s
  match parseSocket s with
  | some (ip, port) => .ok ⟨ip, .ofNat port⟩
  | none =>
    match parseIp s with
    | some ip => .ok ⟨ip, defaultPort⟩
    | none =>
      match ((stripPrefix ['['] s).bind (stripSuffix [']'])).bind parseIp with
      | some ip => .ok ⟨ip, defaultPort⟩
      | none =>
        .error (.config ("dial_addr/bootstrap must be an IP address, got `" ++ String.ofList s ++ "`"))

def bootstrapSocket (s : Text) : Except Error SocketAddr :=
  let s := trim s
  let s :=
    match stripPrefix "udp://".toList s with
    | some rest => rest
    | none => (stripPrefix "tcp://".toList s).getD s
  parseIpPort s 53

/-- The transport of an upstream; client, connector and pools are made for it. -/
def connect (spec : UpstreamSpec) : Except Error Kind :=
  let addr := trim spec.addr
  let (scheme, rest) := splitScheme addr
  if scheme = "udp".toList ∨ scheme = [] then
    .ok (.Udp (String.ofList (normalizeHostport rest 53)))
  else if scheme = "tcp".toList then .ok (.Tcp (String.ofList (normalizeHostport rest 53)))
  else if scheme = "tls".toList ∨ scheme = "dot".toList then
    let host := hostOf rest
    let target :=
      match spec.dialAddr with
      | some d => normalizeHostport d 853
      | none => normalizeHostport rest 853
    .ok (.Tls (String.ofList target) (String.ofList host))
  else if scheme = "https".toList ∨ scheme = "h2".toList ∨ scheme = "doh".toList then
    .ok (.Doh (String.ofList
      (if "https://".toList <+: addr then addr else "https://".toList ++ rest)))
  else if scheme = "http".toList then
    .ok (.Doh (String.ofList (if "http".toList <+: addr then addr else "http://".toList ++ rest)))
  else
    .error (.config ("unsupported upstream scheme `" ++ String.ofList scheme ++ "` in " ++
      String.ofList addr))

def resolveSpec (net : Lookups) (spec : UpstreamSpec) (target : Text) : Except Error SocketAddr :=
  match spec.dialAddr with
  | some dial => parseIpPort dial (portOf target 53)
  | none =>
    let host := hostOf target
    let port := portOf target 53
    match parseIp host with
    | some ip => .ok ⟨ip, port⟩
    | none =>
      match parseSocket target with
      | some (ip, port) => .ok ⟨ip, .ofNat port⟩
      | none =>
        match spec.bootstrap with
        | some boot => do
          let ips ← net.bootstrapIps boot host
          match ips.head? with
          | some ip => .ok ⟨ip, port⟩
          | none =>
            .error (.config ("bootstrap " ++ String.ofList boot ++ " returned no addresses for " ++
              String.ofList host))
        | none => net.resolveTarget target

end Target

end FerrumDns
