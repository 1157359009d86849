import FerrumDns.Matcher
import FerrumDns.Prog.Combine

/-! Plugins as data: the settings each one was built with, the registry that maps
tags to them, and the actions a running plugin performs on what it shares with
other requests (cache shards, the set of running refreshes, the clock, the
counters, the upstream servers). Everything a plugin does between two such
actions is a pure function of the query context. -/

namespace FerrumDns

/-- What a plugin tells the sequence runner to do after `exec`. -/
inductive Action where
  | Continue | Accept | Return
  | Goto (tag : Tag)
  deriving DecidableEq, Repr

/-! ### Settings -/

/-- Instants and lengths of time are in nanoseconds. -/
def secs (n : ℕ) : ℕ := n * 1000000000

def millis (n : ℕ) : ℕ := n * 1000000

inductive Builtin where
  | Accept | Return
  | Reject (code : ResponseCode)
  | DropResp
  | Ttl (min max : U32)
  | PreferV4 | PreferV6
  | Mark (m : U32)
  | Goto (tag : Tag)
  | NoEcs
  deriving DecidableEq, Repr

structure Blackhole where
  rcode : ResponseCode
  deriving DecidableEq, Repr

/-- Sources are lower-case text, targets are names. -/
structure Redirect where
  rules : List (Text × Name)
  deriving DecidableEq, Repr

structure Ecs where
  tag : Tag
  auto : Bool
  ipv4 : Option Ipv4Addr
  ipv6 : Option Ipv6Addr
  forceOverwrite : Bool
  mask4 : UInt8
  mask6 : UInt8
  deriving DecidableEq, Repr

structure NoEcs where
  tag : Tag
  deriving DecidableEq, Repr

/-- The table maps a lower-case name without final dot to its addresses. -/
structure Hosts where
  tag : Tag
  table : List (Text × List IpAddr)
  ttl : U32
  deriving DecidableEq, Repr

structure Upstream where
  addr : String
  tag : Option Tag
  deriving DecidableEq, Repr

structure Forward where
  tag : Tag
  upstreams : List Upstream
  concurrent : ℕ
  nonempty : upstreams ≠ []
  deriving DecidableEq, Repr

/-- The unchanging part of a cache. `refresh` is the entry bound for background refreshes. -/
structure Cache where
  tag : Tag
  cap : ℕ
  lazyTtl : ℕ
  lazyReplyTtl : U32
  cacheEverything : Bool
  refresh : Option Tag
  deriving DecidableEq, Repr

structure Fallback where
  tag : Tag
  primary : Tag
  secondary : Tag
  threshold : ℕ
  alwaysStandby : Bool
  deriving DecidableEq, Repr

inductive Exec where
  | Plugin (tag : Tag)
  | Builtin (b : Builtin)

structure Step where
  matchers : List Matcher
  exec : Exec

structure Sequence where
  tag : Tag
  steps : List Step

/-- The plugins that can be executed. -/
inductive Executable where
  | blackhole (b : Blackhole)
  | redirect (r : Redirect)
  | ecs (e : Ecs)
  | noEcs (n : NoEcs)
  | hosts (h : Hosts)
  | forward (f : Forward)
  | cache (c : Cache)
  | sequence (s : Sequence)
  | fallback (f : Fallback)

/-- The caches are also registered as executables, under their own tags. -/
structure Registry where
  execs : Tag → Option Executable
  caches : Tag → Option Cache
  caches_execs : ∀ tag c, caches tag = some c ↔ execs tag = some (.cache c)
  caches_tag : ∀ tag c, caches tag = some c → c.tag = tag

def Registry.getExec (reg : Registry) (tag : Tag) : Except Error Executable :=
  match reg.execs tag with
  | some p => .ok p
  | none => .error (.unknownTag tag)

theorem Registry.getExec_eq_ok {reg : Registry} {tag : Tag} {p : Executable} :
    reg.getExec tag = .ok p ↔ reg.execs tag = some p := by
  rw [getExec]
  cases reg.execs tag <;> simp

/-! ### Cache entries -/

structure Entry where
  wire : Bytes
  stored : ℕ
  ttlDeadline : ℕ
  expire : ℕ
  deriving DecidableEq, Repr

/-- Request state at an actually executed cache step, owned by that sequence run. -/
structure CacheLookup where
  key : Text
  query : Message
  rewriteStart : ℕ
  deriving DecidableEq, Repr

/-- A served entry: its wire form, whether it is past its TTL, and when it was stored. -/
structure Hit where
  wire : Bytes
  past : Bool
  stored : ℕ
  deriving DecidableEq, Repr

/-! ### Actions -/

inductive Counter where
  | cacheHits | cacheMisses | cacheLazyHits | upstreamOk | upstreamErr | responses | dropped
  | queries
  deriving DecidableEq, Repr

/-- Actions on shared state. `call` has no effect: it marks where the execution of a plugin begins.
A look-up and an insertion also name the request they are for. `kick` claims the key in the set of
running refreshes and, if it was free, starts the refresh with the guard that frees it. `timer` looks
at the clock for a timer that runs out at the deadline.
`overflow` is a call deeper than the stack allows. -/
inductive Eff where
  | call (p : Executable) (ctx : QueryContext)
  | lookup (c : Cache) (key : Text) (query : Message)
  | now
  | timer (deadline : ℕ)
  | insert (c : Cache) (lookup : CacheLookup) (source : Option Source) (entry : Entry)
  | kick (c : Cache) (key : Text) (bg : QueryContext) (entry : Tag)
  | count (k : Counter)
  | exchange (ups : List Upstream) (query : Message)
  | upgrade
  | overflow

/-- What each action answers. An exchange is the next one to end among those in flight, given by
its position; `upgrade` tells whether the runtime is still there. -/
@[reducible] def Eff.Answer : Eff → Type
  | call _ _ | insert _ _ _ _ | kick _ _ _ _ | count _ => Unit
  | lookup _ _ _ => Option Hit
  | now | timer _ => ℕ
  | exchange ups _ => Fin ups.length × Except Error Message
  | upgrade => Bool
  | overflow => Empty

/-- A piece of request handling: suspended, it shows the context its request is left with. -/
abbrev Run (α : Type) := Prog QueryContext Eff Eff.Answer α

/-- What executing a plugin leaves behind. -/
abbrev Outcome := QueryContext × Except Error Action

/-- The answered actions of a run. -/
abbrev Trace := List (Prog.Event Eff Eff.Answer)

namespace Run

def perform (e : Eff) : Run e.Answer := .act e .done

def count (k : Counter) : Run Unit := perform (.count k)

theorem ends_perform (e : Eff) (r : e.Answer) : Prog.Ends (perform e) [⟨e, r⟩] r :=
  .act r (.refl _)

theorem ends_count (k : Counter) : Prog.Ends (count k) [⟨.count k, ()⟩] () :=
  ends_perform (.count k) ()

end Run

end FerrumDns
