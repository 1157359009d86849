import FerrumDns.Runtime.Graph
import FerrumDns.Plugin.Exec

/-! Building a runtime from a configuration: entries are normalized, the call
graph and the settings are checked, the plugins are made one after the other,
and sequences and fallbacks are registered next to the plugins that call
nothing. Servers without an entry get the default one, and every entry has to
name an executable. -/

namespace FerrumDns

open Text

/-! ### Making plugins -/

/-- What is read from files, certificates and addresses, or by third-party parsers. `levelFilter`
and `socketAddr` give the text of the error. -/
structure Loader where
  levelFilter : String → Except String Unit
  socketAddr : String → Except String Unit
  validateListener : ListenerConfig → Except Error Unit
  recordType : Text → Option RecordType
  domainSet : Value → String → Except Error DomainSet
  ipSet : Value → String → Except Error IpSet
  hosts : Tag → Value → String → Except Error Hosts
  forward : Tag → Value → Except Error Forward
  redirect : Value → Except Error Redirect
  ecs : Tag → Value → Except Error Ecs

/-- The refresh entry is bound later. -/
def Cache.fromArgs (tag : Tag) (args : Value) : Cache where
  tag := tag
  cap := max ((((args.get "size").bind Value.asU64).getD 8192).toNat / 16) 32
  lazyTtl := ((((args.get "lazy_cache_ttl").or (args.get "lazy_ttl")).bind Value.asU64).getD 0).toNat
  lazyReplyTtl :=
    max (.wrap (((args.get "lazy_cache_reply_ttl").bind Value.asU64).getD 5).toNat) 1
  cacheEverything := ((args.get "cache_everything").bind Value.asBool).getD false
  refresh := none

/-- The plugins that call nothing and keep nothing between requests. -/
inductive Leaf where
  | blackhole (b : Blackhole)
  | redirect (r : Redirect)
  | ecs (e : Ecs)
  | noEcs (n : NoEcs)
  | hosts (h : Hosts)
  | forward (f : Forward)

def Leaf.executable : Leaf → Executable
  | blackhole b => .blackhole b
  | redirect r => .redirect r
  | ecs e => .ecs e
  | noEcs n => .noEcs n
  | hosts h => .hosts h
  | forward f => .forward f

/-- A plugin before sequences and fallbacks are bound. -/
inductive Loaded where
  | domainSet (set : DomainSet)
  | ipSet (set : IpSet)
  | cache (args : Value)
  | leaf (p : Leaf)
  | sequence (args : Value)
  | fallback (f : Fallback)

def Loader.make (l : Loader) (p : PluginConfig) : Except Error Loaded :=
  match p.ty with
  | "domain_set" => (l.domainSet p.args p.baseDir).map .domainSet
  | "ip_set" => (l.ipSet p.args p.baseDir).map .ipSet
  | "cache" => .ok (.cache p.args)
  | "hosts" => (l.hosts p.name p.args p.baseDir).map fun h => .leaf (.hosts h)
  | "forward" | "fast_forward" => (l.forward p.name p.args).map fun f => .leaf (.forward f)
  | "black_hole" | "blackhole" | "reject_any" =>
    .ok (.leaf (.blackhole (Blackhole.fromArgs p.args)))
  | "redirect" => (l.redirect p.args).map fun r => .leaf (.redirect r)
  | "ecs" => (l.ecs p.name p.args).map fun e => .leaf (.ecs e)
  | "no_ecs" | "_no_ecs" => .ok (.leaf (.noEcs ⟨p.name⟩))
  | "sequence" => .ok (.sequence p.args)
  | "fallback" => (Fallback.fromArgs p.name p.args).map .fallback
  | other => .error (.plugin p.name other "unknown plugin type")

/-- One round of the loop over the plugins. -/
def Loader.load (l : Loader) (p : PluginConfig) : Except Error (Tag × Loaded) :=
  (l.make p).map fun loaded => (p.name, loaded)

/-! ### Registering them -/

/-- An executable with its tag; a cache bears its own. -/
abbrev Registered := {e : Tag × Executable // ∀ c, e.2 = .cache c → c.tag = e.1}

/-- The registry of executables with distinct tags. -/
def Registry.ofList (entries : List Registered) : Registry where
  execs tag := (entries.map Subtype.val).lookup tag
  caches tag :=
    match (entries.map Subtype.val).lookup tag with
    | some (.cache c) => some c
    | _ => none
  caches_execs tag c := by
    split
    next c' h => rw [h, Option.some.injEq, Option.some.injEq, Executable.cache.injEq]
    next hne => exact ⟨nofun, fun h => absurd h (hne c)⟩
  caches_tag tag c h := by
    split at h
    next c' hl =>
      cases h
      obtain ⟨l₁, l₂, hentries, -⟩ := List.lookup_eq_some_iff.1 hl
      have hmem : (tag, Executable.cache c) ∈ entries.map Subtype.val := by simp [hentries]
      obtain ⟨e, -, he⟩ := List.mem_map.1 hmem
      have htag := e.2 c (by rw [he])
      rwa [he] at htag
    next => cases h

structure Runtime where
  registry : Registry
  config : Config
  defaultEntry : Option Tag

namespace Loaded

/-- Plugins registered as they are; caches refresh through the default entry. -/
def ready (entry : Option Tag) : Tag × Loaded → Option Registered
  | (tag, cache args) =>
    some ⟨(tag, .cache { Cache.fromArgs tag args with refresh := entry }), fun _ h => by cases h; rfl⟩
  | (tag, leaf p) => some ⟨(tag, p.executable), fun _ h => by cases p <;> cases h⟩
  | _ => none

/-- A sequence to be compiled. -/
def pending : Tag × Loaded → Option (Tag × Value)
  | (tag, sequence args) => some (tag, args)
  | _ => none

def backed : Tag × Loaded → Option Registered
  | (tag, fallback f) => some ⟨(tag, .fallback f), nofun⟩
  | _ => none

def sets (recordType : Text → Option RecordType) (loaded : List (Tag × Loaded)) : Sets where
  domains tag :=
    match loaded.lookup tag with
    | some (domainSet set) => some set
    | _ => none
  ips tag :=
    match loaded.lookup tag with
    | some (ipSet set) => some set
    | _ => none
  recordType := recordType

end Loaded

namespace Runtime

def validateSettings (l : Loader) (config : Config) : Except Error Unit := do
  (l.levelFilter config.log.level).mapError fun e => .config ("bad log level: " ++ e)
  if config.log.file.any fun path => trim path.toList = [] then
    throw (.config "log.file must not be empty")
  match config.api.http with
  | some bind => (l.socketAddr bind).mapError fun e => .config ("bad api addr " ++ bind ++ ": " ++ e)
  | none => pure ()
  config.servers.forM fun server => server.listeners.forM l.validateListener

/-- The first entry a server names, or the last sequence. -/
def pickDefaultEntry (servers : List ServerConfig) (sequences : List (Tag × Value)) : Option Tag :=
  let named := servers.map fun s => trimStart (· == '$') s.exec.toList
  match named.find? (· ≠ []) with
  | some entry => some (String.ofList entry)
  | none => sequences.getLast?.map Prod.fst

def fillEntry (entry : Option Tag) (server : ServerConfig) : Except Error ServerConfig :=
  if server.exec = "" then
    match entry with
    | some tag => .ok { server with exec := tag }
    | none => .error (.config "server has no exec/entry")
  else .ok server

def compile (sets : Sets) (p : Tag × Value) : Except Error Registered := do
  let raw ← parseSteps p.2
  let seq ← compileSteps sets p.1 raw
  pure ⟨(p.1, .sequence seq), nofun⟩

def build (order : MapOrder) (l : Loader) (config : Config) : Except Error Runtime := do
  let config ← config.normalizeEntries
  validatePluginGraph order config.plugins
  validateSettings l config
  let loaded ← config.plugins.mapM l.load
  let entry := pickDefaultEntry config.servers (loaded.filterMap Loaded.pending)
  let servers ← config.servers.mapM (fillEntry entry)
  let sequences ← (loaded.filterMap Loaded.pending).mapM (compile (Loaded.sets l.recordType loaded))
  let registry := Registry.ofList
    (loaded.filterMap (Loaded.ready entry) ++ sequences ++ loaded.filterMap Loaded.backed)
  servers.forM fun server => (registry.getExec server.exec).map fun _ => ()
  pure { registry, config := { config with servers := servers }, defaultEntry := entry }

end Runtime

end FerrumDns
