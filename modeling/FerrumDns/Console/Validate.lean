import FerrumDns.Text.Splitting

/-! The form of the web console. Before a query is posted the console checks its fields by
itself: texts are split and counted, and each kind of field is matched against a pattern. What
it posts is only what passed. -/

namespace FerrumDns

open Text

namespace Console

/-! ### Texts -/

/-- A white space character or the end of a line. -/
def isBlank (c : Char) : Bool :=
  c.toNat ∈ [0x20, 0xa0, 0x1680, 0x2028, 0x2029, 0x202f, 0x205f, 0x3000, 0xfeff] ||
    (9 ≤ c.toNat && c.toNat ≤ 13) || (0x2000 ≤ c.toNat && c.toNat ≤ 0x200a)

/-- `trim`, which unlike the one of the server takes a byte order mark for blank, but not a
next-line character. -/
def trim (t : Text) : Text := trimEnd isBlank (trimStart isBlank t)

/-- `includes` -/
def includes (t p : Text) : Bool := (splitOnText p t).isSome

/-- The parts that a text leaves, found by cutting at most so many times. -/
def splitText (p : Text) : ℕ → Text → List Text
  | 0, t => [t]
  | n + 1, t =>
    match splitOnText p t with
    | none => [t]
    | some (a, b) => a :: splitText p n b

/-- `split` at a text that is not empty. -/
def split (t p : Text) : List Text := splitText p t.length t

/-- `slice(0, lastColon + 1)` -/
def upToLastColon (value : Text) : Text := value.rdropWhile (· ≠ ':')

/-- `slice(lastColon + 1)` -/
def afterLastColon (value : Text) : Text := value.rtakeWhile (· ≠ ':')

/-- `Number` of decimal digits. -/
def number (digits : Text) : ℕ := digits.foldl (fun n c => 10 * n + (c.toNat - 48)) 0

/-! ### Addresses -/

/-- `^(0|[1-9]\d{0,2})$` -/
def isOctet : Text → Bool
  | [] => false
  | c :: digits => c = '0' && digits = [] ||
      '1' ≤ c && c ≤ '9' && digits.length ≤ 2 && digits.all Char.isDigit

/-- `[a-fA-F0-9]` -/
def isHex (c : Char) : Bool :=
  'a' ≤ c && c ≤ 'f' || 'A' ≤ c && c ≤ 'F' || '0' ≤ c && c ≤ '9'

/-- `^[a-fA-F0-9]{1,4}$` -/
def isGroup (group : Text) : Bool := 1 ≤ group.length && group.length ≤ 4 && group.all isHex

def isIPv4 (value : Text) : Bool :=
  let parts := value.splitOn '.'
  parts.length = 4 && parts.all fun part => isOctet part && number part ≤ 255

/-- What is left to check of an address without dots. -/
def groupsVersion (normalized : Text) : ℕ :=
  if includes normalized ":::".toList || 2 < (split normalized "::".toList).length then 0
  else
    let compressed := includes normalized "::".toList
    let groups := (normalized.splitOn ':').filter (· ≠ [])
    if !groups.all isGroup then 0
    else if compressed then if groups.length < 8 then 6 else 0
    else if groups.length = 8 && normalized.head? ≠ some ':' && normalized.getLast? ≠ some ':' then 6
    else 0

def ipVersion (value : Text) : ℕ :=
  if isIPv4 value then 4
  else if ':' ∉ value || !value.all (fun c => isHex c || c = ':' || c = '.') then 0
  else if '.' ∈ value then
    if !isIPv4 (afterLastColon value) then 0
    -- An IPv4 address at the end counts for two groups.
    else groupsVersion (upToLastColon value ++ "0:0".toList)
  else groupsVersion value

/-! ### Queries -/

/-- The fields of the form, each of which may be absent. -/
structure Values where
  name : Option Text
  qtype : Option Text
  entry : Option Text
  ecs : Option Text
  client_ip : Option Text
  deriving DecidableEq, Repr

structure Invalid where
  field : String
  message : String
  deriving DecidableEq, Repr

structure Payload where
  name : Text
  qtype : Text
  entry : Option Text
  client_ip : Option Text
  ecs : Option Text
  deriving DecidableEq, Repr

/-- `[a-zA-Z0-9_.*-]` -/
def isNameChar (c : Char) : Bool := c.isAlphanum || c ∈ "_.*-".toList

/-- A field that is absent reads as an empty one. -/
def text (value : Option Text) : Text := trim (value.getD [])

/-- An empty field is not posted. -/
def given (t : Text) : Option Text := if t = [] then none else some t

def validateQuery (toUpperCase : Text → Text) (values : Values) : Except Invalid Payload :=
  let name := text values.name
  let plain := if name.getLast? = some '.' then name.dropLast else name
  let clientIp := text values.client_ip
  let ecs := text values.ecs
  let parts := ecs.splitOn '/'
  let version := ipVersion (parts.headD [])
  let pre := parts.getD 1 []
  if name = [] then .error ⟨"query-name", "请输入要查询的域名。"⟩
  else if name ≠ ['.'] ∧ (253 < plain.length ∨ ¬ (plain ≠ [] ∧ plain.all isNameChar) ∨
      (plain.splitOn '.').any fun label => label = [] || 63 < label.length) then
    .error ⟨"query-name",
      "请输入有效域名，不含协议、端口或空格；国际化域名请使用 Punycode。"⟩
  else if clientIp ≠ [] ∧ ipVersion clientIp = 0 then
    .error ⟨"query-client-ip", "客户端 IP 必须是有效的 IPv4 或 IPv6 地址。"⟩
  else if ecs ≠ [] ∧ (parts.length ≠ 2 ∨ version = 0 ∨
      ¬ (1 ≤ pre.length ∧ pre.length ≤ 3 ∧ pre.all Char.isDigit) ∨
      (if version = 4 then 32 else 128) < number pre) then
    .error ⟨"query-ecs", "ECS 请填写有效网段，例如 203.0.113.0/24 或 2001:db8::/48。"⟩
  else
    let qtype := values.qtype.getD []
    .ok { name, qtype := toUpperCase (if qtype = [] then ['A'] else qtype),
          entry := given (text values.entry), client_ip := given clientIp, ecs := given ecs }

end Console

end FerrumDns
