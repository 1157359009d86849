import FerrumDns.Context

/-! The matchers of a sequence step: domain sets (suffix tree, full names,
keywords and compiled expressions), address sets, and the tests on the context
they are combined with. -/

namespace FerrumDns

open Text Dnsutil

/-! ### Domain sets -/

/-- Reverse-label suffix tree. -/
inductive SuffixNode where
  | node (children : List (Text × SuffixNode)) (terminal : Bool)

namespace SuffixNode

def children : SuffixNode → List (Text × SuffixNode)
  | node ch _ => ch

def terminal : SuffixNode → Bool
  | node _ t => t

/-- Walk down the labels of a domain, the last label first. -/
def suffixMatch : SuffixNode → List Text → Bool
  | n, [] => n.terminal
  | n, lab :: labels =>
    match n.children.lookup lab with
    | some next => next.terminal || next.suffixMatch labels
    | none => false

end SuffixNode

/-- A compiled expression is kept as the test it performs. -/
structure DomainSet where
  suffix : SuffixNode
  full : List Text
  keywords : List Text
  regexes : List (Text → Bool)

namespace DomainSet

def normalizeDomain (s : Text) : Text :=
  lowercase (trimStart (· == '.') (trimDots (trim s)))

def suffixMatch (set : DomainSet) (domain : Text) : Bool :=
  set.suffix.suffixMatch (labelsRev domain)

def contains (set : DomainSet) (domain : Text) : Bool :=
  let d := normalizeDomain domain
  d ∈ set.full || set.suffixMatch d || set.keywords.any (fun kw => decide (kw <:+: d)) ||
    set.regexes.any (· d)

end DomainSet

/-! ### Address sets -/

structure IpSet where
  nets : List IpNet
  deriving DecidableEq, Repr

variable [Crates]

def IpSet.contains (set : IpSet) (ip : IpAddr) : Bool :=
  set.nets.any fun n => Crates.netContains n ip

/-! ### Matchers -/

inductive Matcher where
  | Qname (set : DomainSet)
  | Qtype (types : List RecordType)
  | ClientIp (set : IpSet)
  | RespIp (set : IpSet)
  | HasResp
  | HasWantedAns
  | Rcode (code : UInt16)
  | Mark (m : U32)
  | HasEcs
  | Neg (inner : Matcher)

def Matcher.matches : Matcher → QueryContext → Bool
  | Qname set, ctx => set.contains ctx.qnameStr
  | Qtype types, ctx => ctx.qtype ∈ types
  | ClientIp set, ctx => (ctx.clientAddr.map set.contains).getD false
  | RespIp set, ctx => ctx.answerIps.any set.contains
  | HasResp, ctx => ctx.hasResp
  | HasWantedAns, ctx => ctx.hasWantedAns
  | Rcode code, ctx => (ctx.response.map fun r => rcodeToU16 r.responseCode == code).getD false
  | Mark m, ctx => ctx.hasMark m
  | HasEcs, ctx => (ecsOf ctx.query).isSome
  | Neg inner, ctx => !inner.matches ctx

end FerrumDns
