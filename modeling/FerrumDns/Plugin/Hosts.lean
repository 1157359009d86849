import FerrumDns.Plugin.Basic

/-! Answering from a table of host names. -/

namespace FerrumDns

open Text Dnsutil

namespace Hosts

/-- The table's spelling of a name. -/
def keyOf (name : Text) : Text := lowercase (trimDots name)

/-- The record for one address, if the question asks for its family. -/
def recordFor (h : Hosts) (n : Name) : RecordType → IpAddr → Option Record
  | .A, .v4 ip | .ANY, .v4 ip => some (recordA n h.ttl ip)
  | .AAAA, .v6 ip | .ANY, .v6 ip => some (recordAaaa n h.ttl ip)
  | _, _ => none

def lookup [Crates] (h : Hosts) (name : Text) (qtype : RecordType) : List Record :=
  match h.table.lookup (keyOf name) with
  | none => []
  | some recs =>
    match Crates.nameFromStr (keyOf name ++ ['.']) with
    | none => []
    | some n => recs.filterMap (h.recordFor n qtype)

def knownName (h : Hosts) (name : Text) : Bool := (h.table.lookup (keyOf name)).isSome

/-- A listed name without a record of the asked type is answered without data, not passed on. -/
def exec [Crates] (h : Hosts) (ctx : QueryContext) : QueryContext :=
  let name := ctx.qnameStr
  let recs := h.lookup name ctx.qtype
  if recs ≠ [] then
    let ctx := ctx.pushTrace h.tag "hit"
    ctx.setResponse (.hosts h.tag) (buildHostsResponse ctx.query recs)
  else if h.knownName name then
    let ctx := ctx.pushTrace h.tag "nodata"
    ctx.setResponse (.hosts h.tag) (buildHostsResponse ctx.query [])
  else ctx

end Hosts

end FerrumDns
