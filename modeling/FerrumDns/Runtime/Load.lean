import FerrumDns.Config
import FerrumDns.Path
import Mathlib.Algebra.Group.Nat.Defs

/-! Loading a configuration file with the files it includes. A file is read and parsed,
servers given as plugins are lifted, entries are normalized, and relative paths are
resolved against its directory; then its includes are loaded in turn and merged in. The
files on the way from the root are kept on a stack of canonical paths, which is as it was
when a file is done, whether it succeeded or not. -/

namespace FerrumDns

open Text

/-- Where files come from: their canonical paths, their contents, and what the YAML parser makes of
a text, each with the text of its error. -/
structure ConfigSource where
  canonicalize : String → Except String String
  readToString : String → Except String Text
  fromStr : Text → Except String Config

/-! ### Servers given as plugins -/

namespace PluginConfig

/-- The protocol that a plugin of this type serves. -/
def serverProtocol (p : PluginConfig) : Option String :=
  match p.ty with
  | "udp_server" => some "udp"
  | "tcp_server" => some "tcp"
  | "tls_server" => some "tls"
  | "http_server" | "doh_server" => some "doh"
  | _ => none

/-- `args.get(key).and_then(as_str)`. -/
def argStr (p : PluginConfig) (key : String) : Option String :=
  ((p.args.get key).bind Value.asStr).map String.ofList

def listenAddr (p : PluginConfig) : Except Error String :=
  match (p.args.get "listen").or (p.args.get "addr") with
  | some (.string s) => .ok (String.ofList s)
  | some _ => .error (.config "server `listen` must be a string (one address), not a list")
  | none => .ok "0.0.0.0:53"

def serverWorkers (p : PluginConfig) : Except Error (Option UInt32) :=
  match p.args.get "workers" with
  | none => .ok none
  | some v =>
    match v.asU64 with
    | some n => if n.toNat < 2 ^ 32 then .ok (some n.toUInt32)
      else .error (.config "server workers must be a u32")
    | none => .error (.config "server workers must be a u32")

/-- The server with one listener that the plugin stands for. -/
def lift (p : PluginConfig) (protocol : String) : Except Error ServerConfig := do
  let addr ← p.listenAddr
  let workers ← p.serverWorkers
  .ok {
    exec := ((((p.args.get "entry").or (p.args.get "exec")).bind Value.asStr).map
      String.ofList).getD ""
    timeout := ((p.args.get "timeout").bind Value.asU64).getD 5
    listeners := [{
      protocol := protocol
      addr := addr
      cert := p.argStr "cert"
      key := p.argStr "key"
      urlPath := (((p.args.get "url_path").or (p.args.get "path")).bind Value.asStr).map String.ofList
      idleTimeout := (p.args.get "idle_timeout").bind Value.asU64
      workers := workers }] }

end PluginConfig

namespace Config

/-- Lifted servers come behind those already there. -/
def liftPlugin (config : Config) (p : PluginConfig) : Except Error Config :=
  match p.serverProtocol with
  | none => .ok { config with plugins := config.plugins ++ [p] }
  | some protocol => (p.lift protocol).map fun server =>
    { config with servers := config.servers ++ [server] }

def liftServerPlugins (config : Config) : Except Error Config :=
  config.plugins.foldlM liftPlugin { config with plugins := [] }

/-- The directories are no part of the text. -/
def skipBase (config : Config) : Config :=
  { config with
    baseDir := ""
    plugins := config.plugins.map fun p => { p with baseDir := "" } }

def fromYaml (src : ConfigSource) (text : Text) : Except Error Config := do
  let config ← (src.fromStr text).mapError fun e => .config ("yaml parse: " ++ e)
  let config ← config.skipBase.liftServerPlugins
  config.normalizeEntries

/-! ### Paths -/

/-- The directory of a file, never empty. -/
def dirOf (path : String) : String :=
  match Path.parent path.toList with
  | some (c :: dir) => String.ofList (c :: dir)
  | _ => "."

def stampPlugin (base : String) (p : PluginConfig) : PluginConfig :=
  if p.baseDir = "" then { p with baseDir := base } else p

def stampListener (base : String) (l : ListenerConfig) : ListenerConfig :=
  { l with cert := l.cert.map (resolvePath base), key := l.key.map (resolvePath base) }

def stampServer (base : String) (s : ServerConfig) : ServerConfig :=
  { s with listeners := s.listeners.map (stampListener base) }

def stampBase (config : Config) : Config :=
  { config with
    log := { config.log with file := config.log.file.map (resolvePath config.baseDir) }
    plugins := config.plugins.map (stampPlugin config.baseDir)
    servers := config.servers.map (stampServer config.baseDir) }

/-! ### Files -/

def merge (config other : Config) : Config :=
  { config with
    plugins := config.plugins ++ other.plugins
    servers := config.servers ++ other.servers
    api := if config.api.http.isNone then { http := other.api.http } else config.api }

def maxIncludeDepth : ℕ := 64

variable (src : ConfigSource)

/-- What a file says by itself, before its paths are resolved. -/
def readFile (path : String) : Except Error Config := do
  let text ← (src.readToString path).mapError fun e => .config ("read " ++ path ++ ": " ++ e)
  fromYaml src text

/-- A file's configuration with its paths resolved, without its includes. -/
def ownFile (path : String) : Except Error Config :=
  (readFile src path).map fun config => stampBase { config with baseDir := dirOf path }

def cycleMessage (stack : List String) (canonical : String) : String :=
  "include cycle: " ++ " -> ".intercalate (stack ++ [canonical])

/-- `stack` holds the canonical paths of the files that are being loaded. -/
def loadWithStack (path : String) (stack : List String) : Except Error Config :=
  if _h : maxIncludeDepth ≤ stack.length then
    .error (.config ("include depth exceeds 64 at " ++ path))
  else do
    let canonical ← (src.canonicalize path).mapError fun e => .config ("resolve " ++ path ++ ": " ++ e)
    if canonical ∈ stack then .error (.config (cycleMessage stack canonical))
    else do
      let config ← ownFile src path
      config.includes.foldlM (fun config rel =>
        (loadWithStack (resolvePath config.baseDir rel) (stack ++ [canonical])).map config.merge) config
termination_by maxIncludeDepth - stack.length
decreasing_by
  simp only [List.length_append, List.length_singleton]
  omega

def loadFile (path : String) : Except Error Config := loadWithStack src path []

end Config

end FerrumDns
