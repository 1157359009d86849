import FerrumDns.Config
import FerrumDns.Dns.AddressParse
import FerrumDns.Fallible
import FerrumDns.Plugin.Ecs

/-! Reading the arguments of a plugin that attaches a subnet: fixed addresses or the client's,
and how many bits of them are told. -/

namespace FerrumDns

open Text AddressParse Fallible

namespace Ecs

def parseMask (args : Value) (key : String) (default maximum : UInt8) : Except Error UInt8 :=
  match args.get key with
  | none => .ok default
  | some value =>
    match value.asU64 with
    | some n =>
      if n.toNat ≤ maximum.toNat then .ok (.ofNat n.toNat)
      else .error (.config ("ecs " ++ key ++ " must be an integer in 0..=" ++
        String.ofList (decimal maximum.toNat)))
    | none => .error (.config ("ecs " ++ key ++ " must be an integer in 0..=" ++
        String.ofList (decimal maximum.toNat)))

/-- An address that may be left out. -/
def parseAddr {α : Type} (parse : Text → Option α) (args : Value) (key family : String) :
    Except Error (Option α) :=
  match (args.get key).bind Value.asStr with
  | none => .ok none
  | some s =>
    match parse s with
    | some a => .ok (some a)
    | none => .error (.config ("ecs " ++ key ++ ": invalid " ++ family ++ " address syntax"))

def flag (args : Value) (key : String) : Bool := ((args.get key).bind Value.asBool).getD false

def fromArgs (tag : Tag) (args : Value) : Except Error Ecs := do
  let ipv4 ← parseAddr (parseWith readIpv4Addr) args "ipv4" "IPv4"
  let ipv6 ← parseAddr parseIpv6 args "ipv6" "IPv6"
  if flag args "auto" = false ∧ ipv4.isNone ∧ ipv6.isNone then
    .error (.config "ecs plugin needs `ipv4`/`ipv6` or `auto: true`")
  else do
    let mask4 ← parseMask args "mask4" 24 32
    let mask6 ← parseMask args "mask6" 48 128
    .ok
      { tag := tag
        auto := flag args "auto"
        ipv4 := ipv4
        ipv6 := ipv6
        forceOverwrite := flag args "force_overwrite"
        mask4 := mask4
        mask6 := mask6 }

theorem auto_of_fromArgs {tag : Tag} {args : Value} {e : Ecs} (h : fromArgs tag args = .ok e) :
    e.auto = flag args "auto" := by
  simp only [fromArgs, bind_eq_ok] at h
  obtain ⟨_, -, _, -, h⟩ := h
  obtain ⟨_, h⟩ := ite_error_eq_ok.1 h
  obtain ⟨_, -, h⟩ := bind_eq_ok.1 h
  obtain ⟨_, -, h⟩ := bind_eq_ok.1 h
  cases h
  rfl

end Ecs

end FerrumDns
