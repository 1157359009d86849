import FerrumDns.Dns.AddressParse
import FerrumDns.Plugin.Ecs
import FerrumDns.Text.Splitting

/-! A diagnostic query as it is posted to the administrative interface: which of its texts are
read, and as what. -/

namespace FerrumDns

open Text AddressParse

/-- `parse_ecs_spec`: an address and perhaps the length of its prefix. -/
def Dnsutil.parseEcsSpec [Crates] (s : Text) : Except Error ClientSubnet :=
  let s := trim s
  let address (t : Text) : Except Error IpAddr :=
    match parseIp t with
    | some ip => .ok ip
    | none => .error (.config "bad ecs addr: invalid IP address syntax")
  let spec : Except Error (IpAddr × UInt8) :=
    match splitOnce '/' s with
    | some (a, p) => do
      let ip ← address a
      match parseBelow 256 p with
      | some pre => .ok (ip, .ofNat pre.val)
      | none => .error (.config "bad ecs prefix")
    | none => do
      let ip ← address s
      .ok (ip, if ip.isIpv4 then 24 else 48)
  spec.map fun (addr, pre) =>
    let (net, pre) := masked addr pre
    ⟨net, pre, 0⟩

namespace Api

structure QueryReq where
  name : Text
  qtype : Text
  entry : Option Text
  ecs : Option Text
  client_ip : Option Text
  deriving DecidableEq, Repr

/-- A subnet with its prefix is read where its two parts are. -/
theorem isOk_parseEcsSpec [Crates] {a p : Text} (ha : '/' ∉ a)
    (hwhite : ∀ c ∈ a ++ '/' :: p, isWhitespace c = false) (hp : (parseBelow 256 p).isSome) :
    (Dnsutil.parseEcsSpec (a ++ '/' :: p)).isOk = (parseIp a).isSome := by
  obtain ⟨pre, hpre⟩ := Option.isSome_iff_exists.1 hp
  simp only [Dnsutil.parseEcsSpec, trim_of_not_white hwhite, splitOnce_of_notMem ha, hpre]
  cases parseIp a with
  | none => rfl
  | some ip => rfl

end Api

end FerrumDns
