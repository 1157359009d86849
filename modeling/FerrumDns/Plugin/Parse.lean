import FerrumDns.Config
import FerrumDns.Plugin.Actions

/-! Reading the settings of the plugins that name others: the steps of a sequence
with their matchers and actions, and the two branches of a fallback. -/

namespace FerrumDns

open Text Dnsutil

/-! ### Builtin actions -/

def parseTtlRange (spec : Text) : Except Error (U32 × U32) :=
  match splitOnce '-' spec with
  | some (a, b) =>
    match parseBelow (2 ^ 32) (trim a) with
    | none => .error (.config "bad ttl minimum")
    | some low =>
      match parseBelow (2 ^ 32) (trim b) with
      | none => .error (.config "bad ttl maximum")
      | some high =>
        if high < low then .error (.config "ttl minimum must not exceed maximum")
        else .ok (low, high)
  | none =>
    match parseBelow (2 ^ 32) spec with
    | none => .error (.config "bad ttl")
    | some v => .ok (v, v)

def Builtin.parse (s : Text) : Except Error Builtin :=
  let parts := words (trim s)
  match String.ofList (parts.headD []) with
  | "accept" => .ok .Accept
  | "return" => .ok .Return
  | "drop_resp" | "drop" => .ok .DropResp
  | "prefer_ipv4" => .ok .PreferV4
  | "prefer_ipv6" => .ok .PreferV6
  | "reject" => .ok (.Reject (rcodeFromStr (parts.tail.headD "REFUSED".toList)))
  | "ttl" =>
    match parts.tail with
    | [] => .error (.config "ttl needs a value or range")
    | spec :: _ => (parseTtlRange spec).map fun (low, high) => .Ttl low high
  | "mark" =>
    match parseBelow (2 ^ 32) (parts.tail.headD "0".toList) with
    | none => .error (.config "bad mark")
    | some n => .ok (.Mark n)
  | "goto" | "jump" =>
    match parts.tail with
    | [] => .error (.config "goto needs a tag")
    | tag :: _ => .ok (.Goto (String.ofList (trimStart (· == '$') tag)))
  | "no_ecs" | "_no_ecs" => .ok .NoEcs
  | other => .error (.config ("unknown builtin exec `" ++ other ++
      "` (did you forget `$` for a plugin tag?)"))

/-! ### Steps -/

/-- A step as text; its matchers stand under `matches`. -/
structure RawStep where
  matchers : List Text
  exec : Text
  deriving DecidableEq, Repr

namespace RawStep

/-- The matchers as they are written: none, one, or a list of them. -/
def matchesFrom : Option Value → Except Error (List Text)
  | none => .ok []
  | some (.string s) => .ok [s]
  | some (.sequence items) => items.mapM fun v =>
    match v.asStr with
    | some s => .ok s
    | none => .error (.config "sequence `matches` entries must be strings")
  | some _ => .error (.config "sequence `matches` must be a string or a list of strings")

def fromValue : Value → Except Error RawStep
  | .string s => .ok ⟨[], s⟩
  | .mapping m =>
    match (Value.field "exec" m).bind Value.asStr with
    | none => .error (.config "sequence step missing exec")
    | some exec => (matchesFrom (Value.field "matches" m)).map fun found => ⟨found, exec⟩
  | _ => .error (.config "invalid sequence step")

end RawStep

def parseSteps (args : Value) : Except Error (List RawStep) :=
  match args with
  | .sequence items => items.mapM RawStep.fromValue
  | other => [other].mapM RawStep.fromValue

def parseExec (s : Text) : Except Error Exec :=
  match trim s with
  | '$' :: tag => .ok (.Plugin (String.ofList tag))
  | s => (Builtin.parse s).map .Builtin

/-! ### Matchers -/

/-- The sets that matchers refer to by tag, and `RecordType::from_str`. -/
structure Sets where
  domains : Tag → Option DomainSet
  ips : Tag → Option IpSet
  recordType : Text → Option RecordType

namespace Matcher

/-- The set behind the tag that a matcher needs. -/
def needs {α : Type} (sets : Tag → Option α) (missing : String) : List Text → Except Error α
  | [] => .error (.config missing)
  | tag :: _ =>
    let tag := String.ofList (trimStart (· == '$') tag)
    match sets tag with
    | none => .error (.unknownTag tag)
    | some set => .ok set

/-- One matcher without its negations, as words. -/
def bindHead (sets : Sets) (parts : List Text) : Except Error Matcher :=
  match String.ofList (parts.headD []) with
  | "has_resp" => .ok .HasResp
  | "has_wanted_ans" => .ok .HasWantedAns
  | "qname" => (needs sets.domains "qname matcher needs a domain_set tag" parts.tail).map .Qname
  | "qtype" => .ok (.Qtype (parts.tail.filterMap (qtypeFromStr sets.recordType)))
  | "client_ip" =>
    (needs sets.ips "client_ip matcher needs an ip_set tag" parts.tail).map .ClientIp
  | "resp_ip" => (needs sets.ips "resp_ip matcher needs an ip_set tag" parts.tail).map .RespIp
  | "rcode" => .ok (.Rcode (rcodeToU16 (rcodeFromStr (parts.tail.headD "NOERROR".toList))))
  | "mark" => .ok (.Mark ((parseBelow (2 ^ 32) (parts.tail.headD "0".toList)).getD 0))
  | "ecs" | "has_ecs" => .ok .HasEcs
  | other => .error (.config ("unknown matcher `" ++ other ++ "`"))

/-- Take the leading exclamation marks off, with blanks after each; whether they are odd in number. -/
def negations : Text → Bool × Text
  | '!' :: rest =>
    let (negate, expr) := negations (trimStart isWhitespace rest)
    (!negate, expr)
  | expr => (false, expr)
termination_by t => t.length
decreasing_by
  have := (List.dropWhile_suffix (l := rest) isWhitespace).length_le
  simp only [trimStart, List.length_cons]
  omega

def bind (sets : Sets) (expr : Text) : Except Error Matcher :=
  let (negate, expr) := negations (trim expr)
  (bindHead sets (words expr)).map fun m => if negate then .Neg m else m

end Matcher

def compileStep (sets : Sets) (r : RawStep) : Except Error Step :=
  match r.matchers.mapM (Matcher.bind sets) with
  | .error e => .error e
  | .ok matchers => (parseExec r.exec).map fun exec => ⟨matchers, exec⟩

def compileSteps (sets : Sets) (tag : Tag) (raw : List RawStep) : Except Error Sequence :=
  (raw.mapM (compileStep sets)).map fun steps => ⟨tag, steps⟩

/-! ### Fallbacks and fixed answers -/

namespace Fallback

/-- The tag a branch names. -/
def branch (args : Value) (key : String) : Except Error Tag :=
  match (args.get key).bind Value.asStr with
  | none => .error (.config ("fallback needs `" ++ key ++ "`"))
  | some tag => .ok (String.ofList (trimStart (· == '$') tag))

def fromArgs (tag : Tag) (args : Value) : Except Error Fallback :=
  match branch args "primary" with
  | .error e => .error e
  | .ok primary =>
    match branch args "secondary" with
    | .error e => .error e
    | .ok secondary =>
      .ok
        { tag := tag
          primary := primary
          secondary := secondary
          threshold := millis (((args.get "threshold").bind Value.asU64).getD 500).toNat
          alwaysStandby := ((args.get "always_standby").bind Value.asBool).getD false }

end Fallback

def Blackhole.fromArgs (args : Value) : Blackhole :=
  ⟨(((args.get "rcode").bind Value.asStr).map rcodeFromStr).getD .NXDomain⟩

end FerrumDns
