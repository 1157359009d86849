import FerrumDns.Cache.Shard
import FerrumDns.Dns.Escape

/-! Concrete stand-ins for the third-party functions: names, types and networks as
those crates print and mask them, and a codec that knows the wire form of a fixed
table of messages. With them, a small registry and an empty world. -/

namespace FerrumDns

open Text

namespace Sample

/-! ### Names -/

/-- Octets printed as they are: letters, digits, `_`, `-` inside a label and `*` before one. -/
def isSafe (first : Bool) (b : UInt8) : Bool :=
  Escape.isAlnum b || b == 95 || (b == 45 && !first) || (b == 42 && first)

def printOctet (first : Bool) (b : UInt8) : Text :=
  if isSafe first b then [Escape.char b]
  else if 32 < b && b < 127 then ['\\', Escape.char b]
  else ['\\', Escape.octalDigit (b.toNat / 64), Escape.octalDigit (b.toNat / 8),
    Escape.octalDigit b.toNat]

theorem escaping : Escape.Escaping printOctet where
  alnum first := by
    cases first <;> exact Escape.forall_octet (by decide +kernel)
  other first b hb := by
    have safe : isSafe first b = true → b = 45 ∨ b = 95 ∨ b = 42 := by
      intro hs
      simp only [isSafe, hb, Bool.false_or, Bool.or_eq_true, Bool.and_eq_true, beq_iff_eq] at hs
      tauto
    rw [printOctet]
    split_ifs with hs hp
    · exact .plain (safe hs)
    · exact .quoted (by simpa using hp)
    · exact .octal

/-! ### Types, classes and networks -/

def printType : RecordType → Text
  | .A => "A".toList
  | .AAAA => "AAAA".toList
  | .CNAME => "CNAME".toList
  | .MX => "MX".toList
  | .NS => "NS".toList
  | .PTR => "PTR".toList
  | .SOA => "SOA".toList
  | .SRV => "SRV".toList
  | .TXT => "TXT".toList
  | .HTTPS => "HTTPS".toList
  | .SVCB => "SVCB".toList
  | .ANY => "ANY".toList
  | .OPT => "OPT".toList
  | .other code => 'U' :: "nknown(".toList ++ decimal code.toNat ++ [')']

def printClass : DNSClass → Text
  | .IN => "IN".toList
  | .CH => "CH".toList
  | .HS => "HS".toList
  | .NONE => "NONE".toList
  | .ANY => "ANY".toList
  | .other code => 'U' :: "nknown(".toList ++ decimal code.toNat ++ [')']

/-- Clear the host bits. -/
def network (n : IpNet) : IpAddr :=
  match n.addr with
  | .v4 a => .v4 (a >>> (32 - n.prefixLen) <<< (32 - n.prefixLen))
  | .v6 a => .v6 (a >>> (128 - n.prefixLen) <<< (128 - n.prefixLen))

def netContains (n : IpNet) (ip : IpAddr) : Bool :=
  n.addr.isIpv4 == ip.isIpv4 && network ⟨ip, n.prefixLen⟩ == network n

/-! ### Messages -/

/-- A codec that knows these messages. -/
@[reducible] def crates (table : List (Message × Bytes)) : Crates where
  toVec m :=
    match table.find? fun x => x.1 = m with
    | some (_, wire) => .ok wire
    | none => .error "not in the table"
  fromVec wire :=
    match table.find? fun x => x.2 = wire with
    | some (m, _) => .ok m
    | none => .error "not in the table"
  truncate m := { m with truncated := true, answers := [], nameServers := [], additionals := [] }
  toAscii := Escape.printName printOctet
  nameFromStr t := some
    { labels := (t.splitOn '.').filterMap fun l =>
        if l = [] then none else some (l.map fun c => UInt8.ofNat c.toNat)
      fqdn := true
      nonempty := by
        intro label h
        obtain ⟨l, -, hl⟩ := List.mem_filterMap.1 h
        split_ifs at hl with hne
        cases hl
        simpa using hne }
  debugType := printType
  debugClass := printClass
  network := network
  netContains := netContains

theorem mem_of_toVec {table : List (Message × Bytes)} {m : Message} {b : Bytes}
    (h : @Crates.toVec (crates table) m = .ok b) : (m, b) ∈ table := by
  unfold Crates.toVec at h
  dsimp only at h
  split at h
  next m' wire hf =>
    obtain rfl := Except.ok.inj h
    obtain rfl : m' = m := by simpa using List.find?_some hf
    exact List.mem_of_find?_eq_some hf
  next => cases h

/-- Such a codec decodes what it encodes, if no two messages have one wire form. -/
theorem roundTrip {table : List (Message × Bytes)} (h : (table.map Prod.snd).Nodup) :
    @Crates.RoundTrip (crates table) := by
  intro m b hb
  have hmem := mem_of_toVec hb
  unfold Crates.fromVec
  dsimp only
  cases hf : table.find? fun x => x.2 = b with
  | none =>
    have hne := List.find?_eq_none.1 hf _ hmem
    simp at hne
  | some x =>
    obtain ⟨m', b'⟩ := x
    obtain rfl : b' = b := by simpa using List.find?_some hf
    have heq := List.inj_on_of_nodup_map h (List.mem_of_find?_eq_some hf) hmem rfl
    rw [(Prod.mk.inj heq).1]

/-! ### A query -/

/-- `a.test.` -/
def aTest : Name := { labels := [[97], [116, 101, 115, 116]], fqdn := true }

/-- A query for the address of `a.test.` without OPT record. -/
def query : Message :=
  { Message.new with
    id := 1
    recursionDesired := true
    queries := [⟨aTest, .A, .IN⟩] }

def queryWire : Bytes :=
  [0, 1, 1, 0, 0, 1, 0, 0, 0, 0, 0, 0, 1, 97, 4, 116, 101, 115, 116, 0, 0, 1, 0, 1]

/-! ### Registries and worlds -/

/-- Each cache stands under its own tag. -/
def wellTagged (l : List (Tag × Executable)) : Bool :=
  l.all fun
    | (tag, .cache c) => c.tag == tag
    | _ => true

/-- The registry of these plugins. -/
def registry (l : List (Tag × Executable)) (h : wellTagged l) : Registry where
  execs tag := l.lookup tag
  caches tag :=
    match l.lookup tag with
    | some (.cache c) => some c
    | _ => none
  caches_execs tag c := by
    split
    next c' hc => simp [hc]
    next hn => exact ⟨nofun, fun hc => absurd hc (hn c)⟩
  caches_tag tag c hc := by
    split at hc
    next c' hl =>
      cases hc
      obtain ⟨l₁, l₂, rfl, -⟩ := List.lookup_eq_some_iff.1 hl
      simpa [wellTagged] using (List.all_eq_true.1 h) (tag, .cache c) (by simp)
    next => cases hc

def world : World where
  caches _ := CacheState.new 512
  clock := 0
  counters _ := 0
  live := true

/-! ### A caching resolver -/

/-- `ns.test.` -/
def nsTest : Name := { labels := [[110, 115], [116, 101, 115, 116]], fqdn := true }

/-- An address that lives a minute, with an additional record that lives an hour. -/
def answer : Message :=
  { Dnsutil.replySkeleton query .NoError with
    answers := [Dnsutil.recordA aTest 60 (Ipv4Addr.ofOctets 192 0 2 1)]
    additionals := [Dnsutil.recordA nsTest 3600 (Ipv4Addr.ofOctets 192 0 2 53)] }

def answerWire : Bytes :=
  [0, 1, 129, 128, 0, 1, 0, 1, 0, 0, 0, 1, 1, 97, 4, 116, 101, 115, 116, 0, 0, 1, 0, 1,
    192, 12, 0, 1, 0, 1, 0, 0, 0, 60, 0, 4, 192, 0, 2, 1,
    2, 110, 115, 192, 14, 0, 1, 0, 1, 0, 0, 14, 16, 0, 4, 192, 0, 2, 53]

/-- It knows the query and the answer. -/
@[reducible] def codec : Crates := crates [(query, queryWire), (answer, answerWire)]

def cache : Cache where
  tag := "cache"
  cap := 512
  lazyTtl := 600
  lazyReplyTtl := 5
  cacheEverything := false
  refresh := some "main"

def forward : Forward where
  tag := "up"
  upstreams := [⟨"192.0.2.53", none⟩]
  concurrent := 1
  nonempty := by decide

/-- Look in the cache, and ask upstream on a miss. -/
def main : Sequence where
  tag := "main"
  steps := [⟨[], .Plugin "cache"⟩, ⟨[.HasResp], .Builtin .Accept⟩, ⟨[], .Plugin "up"⟩]

def resolver : Registry :=
  registry [("cache", .cache cache), ("up", .forward forward), ("main", .sequence main)] rfl

/-- The query as a listener hands it over. -/
def context : QueryContext := QueryContext.new query (some (.v4 0x7f000001)) .Udp

/-- Every exchange is answered with `m`. -/
def answering (m : Message) (l : List Upstream) (_ : Message) :
    Option (Fin l.length × Except Error Message) :=
  if h : 0 < l.length then some (⟨0, h⟩, .ok m) else none

def request : Run Unit := @Resolver.requestTask codec resolver 4 "main" context

/-- The request played from a world where upstream answers with `m`. -/
def played (m : Message) (w : World) : Option (Trace × Unit × World × List Task) :=
  request.play (@Resolver.oracle codec resolver 4 (answering m)) false w

/-- The request arrives, is played to its end, and leaves. -/
theorem played_runs {m : Message} {w w' : World} {tr : Trace} {new : List Task}
    (h : played m w = some (tr, (), w', new)) (l : List Task) :
    @Resolver.Runs codec resolver 4 ⟨w, l⟩ tr ⟨w', l ++ new⟩ := by
  have hrun := Pool.play_run (@Resolver.machine_allows codec resolver 4 (answering m)) h l [] none
  have hleave : @Resolver.Runs codec resolver 4 ⟨w', l ++ (none, .done ()) :: ([] ++ new)⟩ []
      ⟨w', l ++ new⟩ := .step .leave (.refl _)
  have harrive : @Resolver.Runs codec resolver 4 ⟨w, l⟩ [] ⟨w, l ++ [(none, request)]⟩ :=
    .step (.arrive (@Resolver.Arrives.listener codec resolver 4 "main" query _ .Udp)) (.refl _)
  simpa using harrive.trans (hrun.trans hleave)

theorem fresh : Resolver.Fresh ⟨world, []⟩ := ⟨fun _ _ => rfl, fun _ => rfl, rfl⟩

/-- The key of the sample query. -/
def key : Text := "a.test|A|IN|ecs=-|rd=true|cd=false|ad=false|edns=None".toList

theorem key_context : @Cache.keyOf codec context.query cache.cacheEverything = some key := by
  decide +kernel

/-- The answer as stored at time zero. -/
def entry : Entry := ⟨answerWire, 0, secs 60, secs 600⟩

/-- The first request stores the answer, in no time. -/
theorem first_stores : ∃ tr w, played answer world = some (tr, (), w, []) ∧ w.clock = 0 ∧
    ((w.caches "cache").shards (CacheState.shard key)).map.lookup key = some entry := by
  have h : (played answer world).map (fun x => (x.2.2.2.length, x.2.2.1.clock,
      ((x.2.2.1.caches "cache").shards (CacheState.shard key)).map.lookup key)) =
        some (0, 0, some entry) := by decide +kernel
  obtain ⟨⟨tr, u, w, new⟩, hp, hx⟩ := Option.map_eq_some_iff.1 h
  simp only [Prod.mk.injEq, List.length_eq_zero_iff] at hx
  obtain ⟨rfl, hclock, hl⟩ := hx
  exact ⟨tr, w, hp, hclock, hl⟩

/-- The same request a minute later is a lazy hit and starts a refresh. -/
theorem second_kicks : ∃ tr w tr' w' task, played answer world = some (tr, (), w, []) ∧
    w.clock ≤ secs 60 ∧
    played answer { w with clock := secs 60 } =
      some (tr', (), w', [(some ⟨"cache", key⟩, task)]) := by
  have h : ((played answer world).bind fun x =>
      (played answer { x.2.2.1 with clock := secs 60 }).map fun y =>
        (x.2.2.2.length, x.2.2.1.clock, y.2.2.2.map Prod.fst)) =
      some (0, 0, [some ⟨"cache", key⟩]) := by decide +kernel
  obtain ⟨⟨tr, u, w, new⟩, hp, hx⟩ := Option.bind_eq_some_iff.1 h
  obtain ⟨⟨tr', u', w', new'⟩, hp', hy⟩ := Option.map_eq_some_iff.1 hx
  simp only [Prod.mk.injEq, List.length_eq_zero_iff, List.map_eq_singleton_iff] at hy
  obtain ⟨rfl, hclock, ⟨o, task⟩, rfl, rfl⟩ := hy
  exact ⟨tr, w, tr', w', task, hp, by omega, hp'⟩

/-- The stored answer as it is found after `s` seconds. -/
def hitAt (s : ℕ) : Hit := ⟨answerWire, 60 ≤ s, 0⟩

/-- The resolver `s` seconds after it stored the answer. -/
theorem found_at (s : ℕ) (hs : s < 600) : ∃ tr, ∃ q : Resolver.State,
    @Resolver.Runs codec resolver 4 ⟨world, []⟩ tr q ∧ q.world.clock = secs s ∧
      ((q.world.caches "cache").lookup cache key q.world.clock).1 = some (hitAt s) := by
  obtain ⟨tr, w, hp, hclock, hl⟩ := first_stores
  have hrun := played_runs hp []
  refine ⟨tr, ⟨{ w with clock := secs s }, []⟩, ?_, rfl, ?_⟩
  · have htick : @Resolver.Runs codec resolver 4 ⟨w, []⟩ [] ⟨{ w with clock := secs s }, []⟩ :=
      .step (.drift (Resolver.Drift.tick (by omega))) (.refl _)
    simpa using hrun.trans htick
  · rw [CacheState.lookup_of_lt hl (by simp only [entry, secs]; omega)]
    have hpast : (secs 60 ≤ secs s) = (60 ≤ s) := by
      simp only [secs]
      exact propext (by omega)
    simp [entry, hpast, hitAt, cache]

theorem decode_answer (s : ℕ) : @Dnsutil.decode codec (hitAt s).wire = .ok answer := by
  change @Dnsutil.decode codec answerWire = _
  decide +kernel

end Sample

end FerrumDns
