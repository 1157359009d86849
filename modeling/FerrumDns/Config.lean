import FerrumDns.Error
import FerrumDns.Text

/-! The configuration as it was read: the settings of logging, servers and the
admin API, and for each plugin a YAML value that the plugin reads for itself. -/

namespace FerrumDns

/-! ### YAML values -/

/-- `serde_yaml::Number`. A floating-point number is kept as its bits. -/
inductive Number where
  | posInt (n : UInt64)
  | negInt (n : Int64)
  | float (bits : UInt64)
  deriving DecidableEq, Repr

/-- `serde_yaml::Value`. -/
inductive Value where
  | null
  | bool (b : Bool)
  | number (n : Number)
  | string (s : Text)
  | sequence (items : List Value)
  | mapping (entries : List (Value × Value))
  | tagged (tag : Text) (value : Value)

namespace Value

def untag : Value → Value
  | tagged _ v => v.untag
  | v => v

/-- `Mapping::get` of a text key. -/
def field (key : String) : List (Value × Value) → Option Value
  | [] => none
  | (string s, v) :: entries => if s = key.toList then some v else field key entries
  | _ :: entries => field key entries

def get (v : Value) (key : String) : Option Value :=
  match v.untag with
  | mapping entries => field key entries
  | _ => none

def asStr (v : Value) : Option Text :=
  match v.untag with
  | string s => some s
  | _ => none

def asU64 (v : Value) : Option UInt64 :=
  match v.untag with
  | number (.posInt n) => some n
  | _ => none

def asSequence (v : Value) : Option (List Value) :=
  match v.untag with
  | sequence items => some items
  | _ => none

def asMapping (v : Value) : Option (List (Value × Value)) :=
  match v.untag with
  | mapping entries => some entries
  | _ => none

def asBool (v : Value) : Option Bool :=
  match v.untag with
  | bool b => some b
  | _ => none

end Value

/-! ### Settings -/

structure LogConfig where
  level : String
  file : Option String
  deriving DecidableEq, Repr

structure PluginConfig where
  tag : Option Tag
  ty : String
  args : Value
  baseDir : String

/-- `tag.unwrap_or(ty)`. -/
def PluginConfig.name (p : PluginConfig) : Tag := p.tag.getD p.ty

structure ListenerConfig where
  protocol : String
  addr : String
  cert : Option String
  key : Option String
  urlPath : Option String
  idleTimeout : Option UInt64
  workers : Option UInt32
  deriving DecidableEq, Repr

structure ServerConfig where
  exec : Tag
  timeout : UInt64
  listeners : List ListenerConfig
  deriving DecidableEq, Repr

structure ApiConfig where
  http : Option String
  deriving DecidableEq, Repr

/-- `includes` are the files named under `include`. -/
structure Config where
  log : LogConfig
  includes : List String
  plugins : List PluginConfig
  servers : List ServerConfig
  api : ApiConfig
  baseDir : String

/-! ### Entries -/

def ServerConfig.normalizeEntry (server : ServerConfig) : Except Error ServerConfig :=
  let raw := Text.trim server.exec.toList
  let entry := Text.trimStart (· == '$') raw
  if (raw ≠ [] ∧ entry = []) ∨ entry.any Text.isWhitespace then
    .error (.config ("invalid server entry `" ++ String.ofList raw ++ "`"))
  else .ok { server with exec := String.ofList entry }

/-- Both supported server syntaxes accept the same optional `$` prefix. -/
def Config.normalizeEntries (config : Config) : Except Error Config :=
  (config.servers.mapM ServerConfig.normalizeEntry).map fun servers =>
    { config with servers := servers }

end FerrumDns
