import FerrumDns.Config
import FerrumDns.Fallible
import FerrumDns.Path
import FerrumDns.Plugin.Hosts

/-! Reading a table of host names from a plugin's arguments: entries, files of hosts
lines, and a mapping from names to addresses. -/

namespace FerrumDns

open Text

/-- What a table is read with: files and the parsers of addresses and names, each with the text of
its error. -/
structure HostsSource where
  readToString : String → Except String Text
  parseAddr : Text → Except String IpAddr
  checkName : Text → Except String Unit

namespace Hosts

abbrev Table := List (Text × List IpAddr)

/-- `entry(key).or_default().push(ip)`. -/
def push (key : Text) (ip : IpAddr) : Table → Table
  | [] => [(key, [ip])]
  | (k, ips) :: table => if k = key then (k, ips ++ [ip]) :: table else (k, ips) :: push key ip table

variable (src : HostsSource)

def isIp (t : Text) : Bool := (src.parseAddr t).toOption.isSome

/-- The address and the names of a line, which come in either order. -/
def splitLine (line : Text) : Except Error (Text × List Text) :=
  let first := (words line).headD []
  let rest := (words line).tail
  if isIp src first then .ok (first, rest)
  else
    match rest with
    | [ip] =>
      if isIp src ip then .ok (ip, [first])
      else .error (.config ("bad hosts line: " ++ String.ofList line))
    | _ => .error (.config ("bad hosts line: " ++ String.ofList line))

def addName (ip : IpAddr) (table : Table) (n : Text) : Except Error Table :=
  match src.checkName n with
  | .error e => .error (.config ("bad hostname in hosts `" ++ String.ofList n ++ "`: " ++ e))
  | .ok _ => .ok (push (keyOf n) ip table)

def parseHostsLine (table : Table) (line : Text) : Except Error Table :=
  let line := trim ((line.splitOn '#').headD [])
  if line = [] ∨ line.head? = some '#' then .ok table
  else do
    let (ipS, names) ← splitLine src line
    let ip ← (src.parseAddr ipS).mapError fun e =>
      .config ("bad ip in hosts `" ++ String.ofList ipS ++ "`: " ++ e)
    if names = [] then
      .error (.config ("hosts line needs a hostname: " ++ String.ofList line))
    else names.foldlM (addName src ip) table

def loadFile (table : Table) (path : String) : Except Error Table := do
  let text ← (src.readToString path).mapError fun e => .config ("hosts file " ++ path ++ ": " ++ e)
  (lines text).foldlM (parseHostsLine src) table

/-- `as u32` of the configured number. -/
def ttlOf (args : Value) : U32 := .wrap (((args.get "ttl").bind Value.asU64).getD 60).toNat

def readEntry (table : Table) (e : Value) : Except Error Table :=
  match e.asStr with
  | some s => parseHostsLine src table s
  | none => .ok table

def readFile (base : String) (table : Table) (f : Value) : Except Error Table :=
  match f.asStr with
  | some p => loadFile src table (resolvePath base (String.ofList p))
  | none => .ok table

def readPair (table : Table) (entry : Value × Value) : Except Error Table :=
  match entry.1.asStr, entry.2.asStr with
  | some name, some ip => parseHostsLine src table (ip ++ ' ' :: name)
  | _, _ => .ok table

def fromArgs (tag : Tag) (args : Value) (base : String) : Except Error Hosts := do
  let table ← (((args.get "entries").bind Value.asSequence).getD []).foldlM (readEntry src) []
  let table ← (((args.get "files").bind Value.asSequence).getD []).foldlM (readFile src base) table
  let table ← (((args.get "hosts").bind Value.asMapping).getD []).foldlM (readPair src) table
  .ok { tag := tag, table := table, ttl := ttlOf args }

/-- Whatever table is read, the tag is the one given and the TTL the one of the arguments. -/
theorem fromArgs_eq_ok {tag : Tag} {args : Value} {base : String} {h : Hosts}
    (hh : fromArgs src tag args base = .ok h) : ∃ table, h = ⟨tag, table, ttlOf args⟩ := by
  obtain ⟨_, -, hfiles⟩ := Fallible.bind_eq_ok.1 hh
  obtain ⟨_, -, hpairs⟩ := Fallible.bind_eq_ok.1 hfiles
  obtain ⟨table, -, hdone⟩ := Fallible.bind_eq_ok.1 hpairs
  cases hdone
  exact ⟨table, rfl⟩

end Hosts

end FerrumDns
