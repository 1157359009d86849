import FerrumDns.Dns.Message

/-! The third-party functions the program calls. Their code is not part of the
repository, so they are parameters; results that need a property of one of them
name it as a hypothesis. -/

namespace FerrumDns

/-- `ipnet::IpNet`. -/
structure IpNet where
  addr : IpAddr
  prefixLen : ℕ
  deriving DecidableEq, Repr

class Crates where
  /-- `Message::to_vec`, the error as text. -/
  toVec : Message → Except String Bytes
  /-- `Message::from_vec`, the error as text. -/
  fromVec : Bytes → Except String Message
  /-- `Message::truncate`. -/
  truncate : Message → Message
  /-- `Name::to_ascii`. -/
  toAscii : Name → Text
  /-- `Name::from_str`. -/
  nameFromStr : Text → Option Name
  /-- `{:?}` of a record type. -/
  debugType : RecordType → Text
  /-- `{:?}` of a class. -/
  debugClass : DNSClass → Text
  /-- `IpNet::network`. -/
  network : IpNet → IpAddr
  /-- `IpNet::contains` of an address. -/
  netContains : IpNet → IpAddr → Bool

namespace Crates

variable [Crates]

/-- Decoding undoes encoding. -/
def RoundTrip : Prop := ∀ m b, toVec m = .ok b → fromVec b = .ok m

/-- A decoded OPT record advertises at least 512 octets: lower values are read as 512. -/
def PayloadFloor : Prop := ∀ b m, fromVec b = .ok m → ∀ e, m.edns = some e → 512 ≤ e.maxPayload

end Crates

end FerrumDns
