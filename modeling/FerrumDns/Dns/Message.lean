import FerrumDns.Dns.Address

/-! DNS messages as `hickory_proto` hands them to the program: decoded headers,
questions, records and the EDNS record apart from the sections. Only what the
program reads or writes is kept; record data other than addresses and aliases
stays opaque, and signature records are left out. -/

namespace FerrumDns

abbrev Bytes := List UInt8

/-! ### Names -/

/-- Non-empty labels, the leftmost first, and whether the name is absolute. -/
structure Name where
  labels : List Bytes
  fqdn : Bool
  nonempty : ∀ label ∈ labels, label ≠ [] := by decide
  deriving DecidableEq, Repr

def lowerOctet (b : UInt8) : UInt8 := if 65 ≤ b ∧ b ≤ 90 then b + 32 else b

namespace Name

def lower (n : Name) : Name where
  labels := n.labels.map (List.map lowerOctet)
  fqdn := n.fqdn
  nonempty := by
    intro label h
    obtain ⟨l, hl, rfl⟩ := List.mem_map.1 h
    simpa using n.nonempty l hl

/-- `==` on names: ASCII case does not count, being absolute does. -/
def Same (a b : Name) : Prop := a.lower = b.lower

instance (a b : Name) : Decidable (a.Same b) := inferInstanceAs (Decidable (_ = _))

@[refl] theorem Same.refl (a : Name) : a.Same a := rfl

theorem Same.symm {a b : Name} (h : a.Same b) : b.Same a := Eq.symm h

theorem Same.trans {a b c : Name} (h : a.Same b) (h' : b.Same c) : a.Same c := Eq.trans h h'

end Name

/-! ### Codes -/

inductive RecordType where
  | A | AAAA | CNAME | MX | NS | PTR | SOA | SRV | TXT | HTTPS | SVCB | ANY | OPT
  | other (code : UInt16)
  deriving DecidableEq, Repr

inductive DNSClass where
  | IN | CH | HS | NONE | ANY
  | other (code : UInt16)
  deriving DecidableEq, Repr

inductive ResponseCode where
  | NoError | FormErr | ServFail | NXDomain | NotImp | Refused
  | other (code : UInt16)
  deriving DecidableEq, Repr

inductive OpCode where
  | Query | Status | Notify | Update
  | other (code : UInt8)
  deriving DecidableEq, Repr

inductive MessageType where
  | Query | Response
  deriving DecidableEq, Repr

/-! ### Questions and records -/

structure Query where
  name : Name
  queryType : RecordType
  queryClass : DNSClass
  deriving DecidableEq, Repr

/-- `==` on questions. -/
def Query.Same (a b : Query) : Prop :=
  a.name.Same b.name ∧ a.queryType = b.queryType ∧ a.queryClass = b.queryClass

instance (a b : Query) : Decidable (a.Same b) := inferInstanceAs (Decidable (_ ∧ _))

inductive RData where
  | A (ip : Ipv4Addr)
  | AAAA (ip : Ipv6Addr)
  | CNAME (target : Name)
  | other (recordType : RecordType) (data : Bytes)
  deriving DecidableEq, Repr

def RData.recordType : RData → RecordType
  | A _ => .A
  | AAAA _ => .AAAA
  | CNAME _ => .CNAME
  | other t _ => t

/-- A `u32`. -/
abbrev U32 := Fin (2 ^ 32)

instance neZero_u32 : NeZero (2 ^ 32 : ℕ) := ⟨by decide⟩

namespace U32

/-- `saturating_sub`. -/
def saturatingSub (a b : U32) : U32 := ⟨a.val - b.val, by omega⟩

@[simp] theorem val_saturatingSub (a b : U32) : (saturatingSub a b).val = a.val - b.val := rfl

/-- `n as u32`. -/
def wrap (n : ℕ) : U32 := ⟨n % 2 ^ 32, Nat.mod_lt _ (by decide)⟩

@[simp] theorem val_wrap (n : ℕ) : (wrap n).val = n % 2 ^ 32 := rfl

end U32

structure Record where
  name : Name
  dnsClass : DNSClass
  ttl : U32
  rdata : RData
  deriving DecidableEq, Repr

namespace Record

def recordType (r : Record) : RecordType := r.rdata.recordType

/-- `Record::from_rdata`. -/
def fromRdata (name : Name) (ttl : U32) (rdata : RData) : Record := ⟨name, .IN, ttl, rdata⟩

end Record

/-! ### EDNS -/

structure ClientSubnet where
  addr : IpAddr
  sourcePrefix : UInt8
  scopePrefix : UInt8
  deriving DecidableEq, Repr

inductive EdnsCode where
  | Subnet
  | other (code : UInt16)
  deriving DecidableEq, Repr

inductive EdnsOption where
  | Subnet (cs : ClientSubnet)
  | Unknown (code : UInt16) (data : Bytes)
  deriving DecidableEq, Repr

def EdnsOption.code : EdnsOption → EdnsCode
  | Subnet _ => .Subnet
  | Unknown c _ => .other c

structure Edns where
  rcodeHigh : UInt8
  version : UInt8
  dnssecOk : Bool
  z : UInt16
  maxPayload : UInt16
  options : List (EdnsCode × EdnsOption)
  deriving DecidableEq, Repr

namespace Edns

/-- `Edns::new`. -/
def new : Edns := ⟨0, 0, false, 0, 512, []⟩

/-- Values below 512 are taken as 512. -/
def setMaxPayload (e : Edns) (n : UInt16) : Edns :=
  { e with maxPayload := if n < 512 then 512 else n }

/-- The first option with this code. -/
def option (e : Edns) (code : EdnsCode) : Option EdnsOption :=
  (e.options.find? (·.1 = code)).map Prod.snd

def insertOption (e : Edns) (o : EdnsOption) : Edns :=
  { e with options := e.options ++ [(o.code, o)] }

def removeOption (e : Edns) (code : EdnsCode) : Edns :=
  { e with options := e.options.filter (·.1 ≠ code) }

end Edns

/-! ### Messages -/

structure Message where
  id : UInt16
  messageType : MessageType
  opCode : OpCode
  authoritative : Bool
  truncated : Bool
  recursionDesired : Bool
  recursionAvailable : Bool
  authenticData : Bool
  checkingDisabled : Bool
  responseCode : ResponseCode
  queries : List Query
  answers : List Record
  nameServers : List Record
  additionals : List Record
  edns : Option Edns
  deriving DecidableEq, Repr

/-- `Message::new`. -/
def Message.new : Message where
  id := 0
  messageType := .Query
  opCode := .Query
  authoritative := false
  truncated := false
  recursionDesired := false
  recursionAvailable := false
  authenticData := false
  checkingDisabled := false
  responseCode := .NoError
  queries := []
  answers := []
  nameServers := []
  additionals := []
  edns := none

end FerrumDns
