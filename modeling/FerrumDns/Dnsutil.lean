import FerrumDns.Crates
import FerrumDns.Error
import Mathlib.Data.List.MinMax
import Mathlib.Order.Fin.Basic

/-! Helpers on DNS messages: the wire codec with its error type, the checks made
on incoming queries and upstream responses, reply skeletons, TTL edits over the
record sections, and the Client Subnet option. -/

namespace FerrumDns

open Text

namespace Dnsutil

section Codec

variable [Crates]

def decode (buf : Bytes) : Except Error Message := (Crates.fromVec buf).mapError .protocol

theorem decode_eq_ok {buf : Bytes} {msg : Message} :
    decode buf = .ok msg ↔ Crates.fromVec buf = .ok msg := by
  rw [decode]
  cases Crates.fromVec buf <;> simp [Except.mapError]

def encode (msg : Message) : Except Error Bytes := (Crates.toVec msg).mapError .protocol

theorem encode_eq_ok {msg : Message} {buf : Bytes} :
    encode msg = .ok buf ↔ Crates.toVec msg = .ok buf := by
  rw [encode]
  cases Crates.toVec msg <;> simp [Except.mapError]

theorem decode_of_encode (hrt : Crates.RoundTrip) {msg : Message} {buf : Bytes}
    (h : encode msg = .ok buf) : decode buf = .ok msg :=
  decode_eq_ok.2 (hrt msg buf (encode_eq_ok.1 h))

def encodeUdp (msg : Message) (maxLen : ℕ) : Except Error Bytes :=
  match encode msg with
  | .error e => .error e
  | .ok bytes => if bytes.length ≤ maxLen then .ok bytes else encode (Crates.truncate msg)

end Codec

/-! ### Incoming messages and responses -/

/-- How a packet received on a listener is treated. -/
inductive Incoming where
  | Drop | NotImp | Ok
  deriving DecidableEq, Repr

def classifyIncoming (msg : Message) : Incoming :=
  if msg.messageType ≠ .Query then .Drop
  else if msg.opCode ≠ .Query then .NotImp
  else .Ok

/-- `==` on question lists. -/
def SameQueries (a b : List Query) : Prop := List.Forall₂ Query.Same a b

instance (a b : List Query) : Decidable (SameQueries a b) :=
  inferInstanceAs (Decidable (List.Forall₂ Query.Same a b))

def takeResponse (query resp : Message) : Except Error Message :=
  if resp.messageType ≠ .Response then .error (.protocol "upstream sent a query")
  else if resp.id ≠ query.id then .error (.protocol "id mismatch")
  else if resp.opCode ≠ query.opCode then .error (.protocol "opcode mismatch")
  else if ¬ SameQueries resp.queries query.queries then .error (.protocol "question mismatch")
  else .ok resp

/-- A response that should win a race of upstreams. -/
def isUsableResponse (msg : Message) : Bool :=
  msg.messageType = .Response && !msg.truncated &&
    !(msg.responseCode = .ServFail || msg.responseCode = .FormErr ||
      msg.responseCode = .NotImp || msg.responseCode = .Refused)

def udpPayloadMax (query : Message) : ℕ :=
  min (((query.edns.map fun e => e.maxPayload.toNat).filter (512 ≤ ·)).getD 512) 4096

def replySkeleton (query : Message) (rcode : ResponseCode) : Message :=
  { Message.new with
    id := query.id
    messageType := .Response
    opCode := query.opCode
    recursionDesired := query.recursionDesired
    recursionAvailable := true
    responseCode := rcode
    queries := query.queries
    edns := query.edns }

/-! ### TTLs -/

/-- The smallest TTL of the answer and authority sections. -/
def minTtl (msg : Message) : U32 :=
  ((msg.answers ++ msg.nameServers).map Record.ttl).min?.getD 0

/-- An OPT pseudo-record carries no TTL, so it is left alone. -/
def bump (elapsed : U32) (r : Record) : Record :=
  if r.recordType = .OPT then r else { r with ttl := U32.saturatingSub r.ttl elapsed }

def subtractTtl (msg : Message) (elapsed : U32) : Message :=
  { msg with
    answers := msg.answers.map (bump elapsed)
    nameServers := msg.nameServers.map (bump elapsed)
    additionals := msg.additionals.map (bump elapsed) }

def setAllTtl (msg : Message) (ttl : U32) : Message :=
  { msg with
    answers := msg.answers.map fun r => { r with ttl }
    nameServers := msg.nameServers.map fun r => { r with ttl } }

def recordA (name : Name) (ttl : U32) (ip : Ipv4Addr) : Record := .fromRdata name ttl (.A ip)

def recordAaaa (name : Name) (ttl : U32) (ip : Ipv6Addr) : Record := .fromRdata name ttl (.AAAA ip)

def recordCname (name : Name) (ttl : U32) (target : Name) : Record :=
  .fromRdata name ttl (.CNAME target)

def rcodeToU16 : ResponseCode → UInt16
  | .NoError => 0
  | .FormErr => 1
  | .ServFail => 2
  | .NXDomain => 3
  | .NotImp => 4
  | .Refused => 5
  | .other c => c

/-- `ResponseCode::from`. -/
def codeFromU16 (c : UInt16) : ResponseCode :=
  if c = 0 then .NoError else if c = 1 then .FormErr else if c = 2 then .ServFail
  else if c = 3 then .NXDomain else if c = 4 then .NotImp else if c = 5 then .Refused else .other c

def rcodeFromStr (s : Text) : ResponseCode :=
  match String.ofList (Text.uppercase s) with
  | "NOERROR" | "0" => .NoError
  | "FORMERR" | "1" => .FormErr
  | "SERVFAIL" | "2" => .ServFail
  | "NXDOMAIN" | "3" => .NXDomain
  | "NOTIMP" | "4" => .NotImp
  | "REFUSED" | "5" => .Refused
  | n => ((Text.parseBelow (2 ^ 16) n.toList).map fun v => codeFromU16 (.ofFin v)).getD .Refused

/-- `other` is `RecordType::from_str`. -/
def qtypeFromStr (other : Text → Option RecordType) (s : Text) : Option RecordType :=
  match String.ofList (Text.uppercase s) with
  | "A" => some .A
  | "AAAA" => some .AAAA
  | "CNAME" => some .CNAME
  | "MX" => some .MX
  | "NS" => some .NS
  | "PTR" => some .PTR
  | "SOA" => some .SOA
  | "SRV" => some .SRV
  | "TXT" => some .TXT
  | "HTTPS" => some .HTTPS
  | "SVCB" => some .SVCB
  | "ANY" | "*" => some .ANY
  | t => other t.toList

/-! ### Client Subnet -/

def ecsOf (msg : Message) : Option ClientSubnet :=
  match msg.edns with
  | none => none
  | some edns =>
    match edns.option .Subnet with
    | some (.Subnet cs) => some cs
    | _ => none

/-- The query gets an OPT record of its own when it had none. -/
def setEcs (msg : Message) (cs : ClientSubnet) : Message :=
  let edns := msg.edns.getD (Edns.new.setMaxPayload 1232)
  { msg with edns := some ((edns.removeOption .Subnet).insertOption (.Subnet cs)) }

def removeEcs (msg : Message) : Message :=
  { msg with edns := msg.edns.map (Edns.removeOption · .Subnet) }

/-- The subnet's part of a cache key. -/
def ecsCacheKey (msg : Message) : Text :=
  match ecsOf msg with
  | some cs => "ecs=".toList ++ cs.addr.display ++ '/' :: decimal cs.sourcePrefix.toNat
  | none => "ecs=-".toList

@[simp] theorem edns_setEcs_isSome (msg : Message) (cs : ClientSubnet) :
    (setEcs msg cs).edns.isSome = true := rfl

@[simp] theorem edns_removeEcs_isSome (msg : Message) :
    (removeEcs msg).edns.isSome = msg.edns.isSome := by
  simp [removeEcs]

end Dnsutil

end FerrumDns
