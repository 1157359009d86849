import FerrumDns.Plugin.Basic

/-! Attaching and removing the EDNS Client Subnet of a query. -/

namespace FerrumDns

open Dnsutil

/-! ### Addresses -/

/-- Not in a private, local, documentation, shared or multicast range. -/
def isPublicIpv4 (v : Ipv4Addr) : Bool :=
  !(v.isPrivate || v.isLoopback || v.isLinkLocal || v.isUnspecified || v.isBroadcast ||
      v.isDocumentation || v.isMulticast) &&
    !(v.octet 0 == 100 && v.octet 1 &&& 0xc0 == 64) && !(v.octet 0 == 0 || 224 ≤ v.octet 0)

def isPublicIp : IpAddr → Bool
  | .v4 v => isPublicIpv4 v
  | .v6 v =>
    match v.toIpv4Mapped with
    | some v4 => isPublicIpv4 v4
    | none => !v.isLoopback && !v.isUnspecified && !v.isMulticast &&
        v.segment 0 &&& 0xfe00 != 0xfc00 && v.segment 0 &&& 0xffc0 != 0xfe80

/-- `IpNet::new` fails only on a prefix longer than the address. -/
def masked [Crates] (ip : IpAddr) (pre : UInt8) : IpAddr × UInt8 :=
  let pre := min pre (if ip.isIpv4 then 32 else 128)
  (Crates.network ⟨ip, pre.toNat⟩, pre)

/-! ### The plugin -/

namespace Ecs

/-- The address to attach with its prefix length. -/
def pick (e : Ecs) (ctx : QueryContext) : Option (IpAddr × UInt8) :=
  if e.auto then
    match ctx.clientAddr with
    | none => none
    | some ip =>
      if isPublicIp ip then some (ip, if ip.isIpv4 then e.mask4 else e.mask6) else none
  else
    let four := e.ipv4.map fun ip => (IpAddr.v4 ip, e.mask4)
    let six := e.ipv6.map fun ip => (IpAddr.v6 ip, e.mask6)
    if ctx.qtype ≠ .AAAA then four <|> six else six <|> four

/-- The subnet put on the query, unless it is left alone. -/
def attaches [Crates] (e : Ecs) (ctx : QueryContext) : Option ClientSubnet :=
  if (ecsOf ctx.query).isSome ∧ e.forceOverwrite = false then none
  else (e.pick ctx).map fun p => let (net, mask) := masked p.1 p.2; ⟨net, mask, 0⟩

def exec [Crates] (e : Ecs) (ctx : QueryContext) : QueryContext :=
  let existing := ecsOf ctx.query
  if existing.isSome ∧ e.forceOverwrite = false then ctx.pushTrace e.tag "keep"
  else
    match e.pick ctx with
    | none => ctx.pushTrace e.tag "skip"
    | some (ip, mask) =>
      let (net, mask) := masked ip mask
      let ctx := if existing.isNone then { ctx with stripEcsOnReply := true } else ctx
      { ctx with query := setEcs ctx.query ⟨net, mask, 0⟩ }.pushTrace e.tag "attach"

end Ecs

def NoEcs.exec (n : NoEcs) (ctx : QueryContext) : QueryContext :=
  { ctx with query := removeEcs ctx.query, stripEcsOnReply := true, ecsRefused := true }.pushTrace
    n.tag "strip"

end FerrumDns
