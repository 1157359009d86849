import FerrumDns.Plugin.Basic
import Mathlib.Logic.Function.Basic

/-! The cache plugin: keys, admission, sharded storage with least-recently-used
eviction, and serving. Each shard operation happens under the shard's lock and is
one action; between two of them other requests may run. -/

namespace FerrumDns

open Text Dnsutil Prog

/-! ### Shards -/

/-- A hash map with its keys in recency order, the least recent first. -/
structure Shard where
  map : List (Text × Entry)
  lru : List Text
  cap : ℕ
  deriving DecidableEq, Repr

namespace Shard

def new (cap : ℕ) : Shard := ⟨[], [], max cap 1⟩

def remove (key : Text) (map : List (Text × Entry)) : List (Text × Entry) :=
  map.filter (·.1 ≠ key)

def get (s : Shard) (key : Text) : Option Entry × Shard :=
  match s.map.lookup key with
  | some e => (some e, if key ∈ s.lru then { s with lru := s.lru.erase key ++ [key] } else s)
  | none => (none, s)

/-- Drop least recent keys until the map is below its capacity. -/
def evict (cap : ℕ) : List Text → List (Text × Entry) → List Text × List (Text × Entry)
  | [], map => ([], map)
  | old :: lru, map => if cap ≤ map.length then evict cap lru (remove old map) else (old :: lru, map)

def insert (s : Shard) (key : Text) (entry : Entry) : Shard :=
  if (s.map.lookup key).isSome then
    { s with map := (key, entry) :: remove key s.map, lru := s.lru.erase key ++ [key] }
  else
    let (lru, map) := evict s.cap s.lru s.map
    { s with map := (key, entry) :: map, lru := lru ++ [key] }

def flush (s : Shard) : Shard := { s with map := [], lru := [] }

def len (s : Shard) : ℕ := s.map.length

end Shard

/-- The shared part of a cache. -/
structure CacheState where
  shards : Fin 16 → Shard
  inflight : Finset Text

namespace CacheState

def new (cap : ℕ) : CacheState := ⟨fun _ => Shard.new cap, ∅⟩

/-- `h` is a `u64`. -/
def hash (key : Text) : UInt64 :=
  (key.flatMap String.utf8EncodeChar).foldl (fun h b => h * 16777619 ^^^ b.toUInt64) 0

def shard (key : Text) : Fin 16 := ⟨(hash key).toNat % 16, Nat.mod_lt _ (by decide)⟩

/-- An expired entry is not served; one past its TTL is served in lazy mode only. -/
def lookup (st : CacheState) (c : Cache) (key : Text) (now : ℕ) : Option Hit × CacheState :=
  let (entry, s) := (st.shards (shard key)).get key
  (match entry with
    | none => none
    | some e =>
      if e.expire ≤ now then none
      else some ⟨e.wire, e.ttlDeadline ≤ now && 0 < c.lazyTtl, e.stored⟩,
    { st with shards := Function.update st.shards (shard key) s })

def insert (st : CacheState) (key : Text) (entry : Entry) : CacheState :=
  { st with
    shards := Function.update st.shards (shard key) ((st.shards (shard key)).insert key entry) }

def flush (st : CacheState) (i : Fin 16) : CacheState :=
  { st with shards := Function.update st.shards i (st.shards i).flush }

def len (st : CacheState) : ℕ := ((List.finRange 16).map fun i => (st.shards i).len).sum

end CacheState

namespace Cache

variable [Crates]

/-! ### Keys -/

/-- Only Client Subnet options: others can hold state of one client. -/
def cacheableEdns (message : Message) : Bool :=
  match message.edns with
  | none => true
  | some edns => edns.options.all (·.1 = .Subnet)

def isSimple (q : Message) : Bool :=
  q.queries.length == 1 && q.answers.isEmpty && q.nameServers.isEmpty && q.additionals.isEmpty

/-- `{}` of a flag. -/
def flag (b : Bool) : Text := if b then "true".toList else "false".toList

/-- `{:?}` of the EDNS version with its DO flag. -/
def debugEdns : Option Edns → Text
  | none => "None".toList
  | some e => "Some((".toList ++ decimal e.version.toNat ++ ", ".toList ++ flag e.dnssecOk ++
      "))".toList

/-- `{:02x}` of an octet. -/
def hexOctet (b : UInt8) : Text :=
  if b < 16 then '0' :: lowerHex b.toNat else lowerHex b.toNat

/-- `{:02x?}` of octets. -/
def debugBytes (wire : Bytes) : Text :=
  '[' :: ", ".toList.intercalate (wire.map hexOctet) ++ [']']

/-- What a simple key says besides the name, each part after a bar. -/
def keyFields (q0 : Query) (q : Message) : List Text :=
  [Crates.debugType q0.queryType, Crates.debugClass q0.queryClass, ecsCacheKey q,
    "rd=".toList ++ flag q.recursionDesired, "cd=".toList ++ flag q.checkingDisabled,
    "ad=".toList ++ flag q.authenticData, "edns=".toList ++ debugEdns q.edns]

def keyName (name : Name) : Text := lowercase (trimDots (Crates.toAscii name))

def simpleKey (q0 : Query) (q : Message) : Text :=
  keyName q0.name ++ (keyFields q0 q).flatMap ('|' :: ·)

def wireKey (wire : Bytes) : Text := "wire:".toList ++ debugBytes wire

/-- `key_of`; it reads nothing of the context but the query. -/
def keyOf (q : Message) (everything : Bool) : Option Text :=
  if !cacheableEdns q then none
  else if !isSimple q then
    if everything then
      match encode { q with id := 0 } with
      | .ok wire => some (wireKey wire)
      | .error _ => none
    else none
  else q.queries.head?.map fun q0 => simpleKey q0 q

def snapshot (c : Cache) (ctx : QueryContext) : Option CacheLookup :=
  (keyOf ctx.query c.cacheEverything).map fun key => ⟨key, ctx.query, ctx.rewriteCount⟩

/-! ### Storing -/

/-- The wire form of a response that may be stored. -/
def admits (resp : Message) : Option Bytes :=
  if resp.responseCode ≠ .NoError ∨ resp.truncated ∨ ¬ cacheableEdns resp then none
  else
    match encode resp with
    | .error _ => none
    | .ok wire => if minTtl resp = 0 then none else some wire

/-- What may be stored has a wire form, and lives a second at least. -/
theorem admits_eq_some {resp : Message} {wire : Bytes} : admits resp = some wire ↔
    resp.responseCode = .NoError ∧ resp.truncated = false ∧ cacheableEdns resp = true ∧
      encode resp = .ok wire ∧ minTtl resp ≠ 0 := by
  rw [admits]
  by_cases hb : resp.responseCode ≠ .NoError ∨ resp.truncated ∨ ¬ cacheableEdns resp
  · rw [if_pos hb]
    refine ⟨fun h => (by cases h), fun h => ?_⟩
    simp [h.1, h.2.1, h.2.2.1] at hb
  · rw [if_neg hb]
    simp only [not_or, not_not, Bool.not_eq_true] at hb
    cases encode resp with
    | error e => simp
    | ok w => by_cases hm : minTtl resp = 0 <;> simp [hb, hm]

def entryAt (c : Cache) (wire : Bytes) (ttl : U32) (now : ℕ) : Entry where
  wire := wire
  stored := now
  ttlDeadline := now + secs ttl.val
  expire := if 0 < c.lazyTtl then max (now + secs ttl.val) (now + secs c.lazyTtl)
    else now + secs ttl.val

/-- `source` says where the response came from. -/
def store (c : Cache) (lookup : CacheLookup) (source : Option Source) (resp : Message) : Run Unit :=
  match admits resp with
  | none => done ()
  | some wire => act .now fun (now : ℕ) =>
      act (.insert c lookup source (c.entryAt wire (minTtl resp) now)) fun _ => done ()

def storeLookup (c : Cache) (ctx : QueryContext) (lookup : CacheLookup) : Run Unit :=
  if ctx.servedFromCache || (ctx.response.map fun r => !cacheableEdns r).getD false then done ()
  else
    match ctx.responseForQuery lookup.query lookup.rewriteStart with
    | none => done ()
    | some response => c.store lookup ctx.source response

/-! ### Serving -/

def kickRefresh (c : Cache) (ctx : QueryContext) (key : Text) : Run Unit :=
  if ctx.skipCache then done ()
  else
    match c.refresh with
    | none => done ()
    | some entry => Run.perform (.kick c key ctx.cloneForLazy (ctx.pipelineEntry.getD entry))

/-- Whole seconds since the store, `as u32`. -/
def elapsed (now stored : ℕ) : U32 := .wrap ((now - stored) / secs 1)

/-- The stored message as it is served. -/
def served (c : Cache) (msg : Message) (hit : Hit) (now : ℕ) : Message :=
  if hit.past then setAllTtl msg c.lazyReplyTtl else subtractTtl msg (elapsed now hit.stored)

def withHit (c : Cache) (ctx : QueryContext) (msg : Message) : QueryContext :=
  { ctx.setResponse (.cacheHit c.tag) (QueryContext.rebindResponse msg ctx.query) with
    servedFromCache := true }

def serve (c : Cache) (ctx : QueryContext) (key : Text) (msg : Message) (hit : Hit)
    (now : ℕ) : Run Outcome :=
  let msg := c.served msg hit now
  if hit.past then
    let ctx := ctx.pushTrace c.tag "lazy_hit"
    (Run.count .cacheLazyHits).bind fun _ => (c.kickRefresh ctx key).bind fun _ =>
      (Run.count .cacheHits).bind fun _ => done (c.withHit ctx msg, .ok .Continue)
  else
    let ctx := ctx.pushTrace c.tag "hit"
    (Run.count .cacheHits).bind fun _ => done (c.withHit ctx msg, .ok .Continue)

def miss (c : Cache) (ctx : QueryContext) : Run Outcome :=
  (Run.count .cacheMisses).bind fun _ => done (ctx.pushTrace c.tag "miss", .ok .Continue)

def exec (c : Cache) (ctx : QueryContext) : Run Outcome :=
  match keyOf ctx.query c.cacheEverything with
  | none => done (ctx, .ok .Continue)
  | some key =>
    if ctx.skipCache then c.miss ctx
    else act (.lookup c key ctx.query) fun (hit : Option Hit) =>
      match hit with
      | none => c.miss ctx
      | some hit =>
        match decode hit.wire with
        | .error _ => c.miss ctx
        | .ok msg => act .now fun (now : ℕ) => c.serve ctx key msg hit now

end Cache

end FerrumDns
