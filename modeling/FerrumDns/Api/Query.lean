import FerrumDns.Api.Request
import FerrumDns.Cache.Settings
import FerrumDns.Pipeline.Turns
import FerrumDns.Plugin.HostsArgs
import FerrumDns.Runtime.Registered

/-! The diagnostic query of the administrative interface: what is posted is made into a request that
is traced, and what is answered is read off the request's context. Whether a cache was hit is read
off the trace. That tells whether the response came from a cache unless a hit was lost, that is, if
after the last hit another response was installed, the response was dropped or a branch was taken
over. -/

namespace FerrumDns

open Dnsutil Prog Text Fallible

/-- `ecs_label`. -/
def Dnsutil.ecsLabel : Option ClientSubnet → Text
  | some cs => cs.addr.display ++ '/' :: decimal cs.sourcePrefix.toNat
  | none => ['-']

namespace Api

/-- How names and types are read, and how what is answered is printed. -/
structure Forms where
  fromAscii : Text → Except String Name
  recordType : Text → Option RecordType
  displayCode : ResponseCode → String
  displayName : Name → String
  displayType : RecordType → String
  displayData : RData → String
  debugData : RData → String

/-- A status with the text of the body. -/
abbrev Refusal := ℕ × String

structure QueryRecord where
  name : String
  ttl : U32
  record_type : String
  data : String
  deriving DecidableEq, Repr

/-- What is answered, the time it took left out. -/
structure QueryResp where
  rcode : String
  answers : List String
  records : List QueryRecord
  cache_hit : Bool
  ecs : Option Text
  trace : List TraceEvent
  deriving DecidableEq, Repr

variable [Crates] (forms : Forms) (rt : Runtime)

/-! ### The request -/

/-- `id` is what `rand::random` gives. -/
def buildQuery (id : UInt16) (name : Text) (qtype : RecordType) : Except String Message :=
  (forms.fromAscii name).map fun n =>
    { Message.new with
      id := id
      messageType := .Query
      opCode := .Query
      recursionDesired := true
      queries := [⟨n, qtype, .IN⟩] }

/-- `ok_or` with a bad request. -/
def orBad {α : Type} (text : String) : Option α → Except Refusal α
  | some a => .ok a
  | none => .error (400, text)

def attachEcs (msg : Message) : Option Text → Except Refusal Message
  | some spec => ((parseEcsSpec spec).map (setEcs msg)).mapError fun e => (400, e.display)
  | none => .ok msg

def readClientIp : Option Text → Except Refusal (Option IpAddr)
  | some s => (orBad "bad client_ip" (AddressParse.parseIp s)).map some
  | none => .ok none

/-- The request with the entry it is run through, or why it is refused. -/
def prepare (id : UInt16) (req : QueryReq) : Except Refusal (QueryContext × Tag) := do
  let qtype ← orBad "bad qtype" (qtypeFromStr forms.recordType req.qtype)
  let name := if req.name.getLast? = some '.' then req.name else req.name ++ ['.']
  let msg ← (buildQuery forms id name qtype).mapError fun e => (400, e)
  let msg ← attachEcs msg req.ecs
  let clientIp ← readClientIp req.client_ip
  let ctx := { QueryContext.new msg clientIp .Https with traceEnabled := true }
  let entry ← orBad "no entry"
    ((req.entry.map fun entry => Server.entryTag (String.ofList entry)).or rt.defaultEntry)
  let _ ← (rt.registry.getExec entry).mapError fun e => (400, e.display)
  .ok (ctx, entry)

/-! ### The answer -/

/-- `cache_hit`: some event of the trace is a hit of a plugin that is registered as a cache. -/
def cacheHit (reg : Registry) (ctx : QueryContext) : Bool :=
  ctx.trace.any fun t => (t.event == "hit" || t.event == "lazy_hit") && (reg.caches t.plugin).isSome

def report (ctx : QueryContext) : QueryResp where
  rcode := (ctx.response.map fun r => forms.displayCode r.responseCode).getD "SERVFAIL"
  answers := (ctx.response.map fun r => r.answers.map fun rec =>
    forms.displayName rec.name ++ " " ++ String.ofList (decimal rec.ttl.val) ++ " " ++
      forms.debugData rec.rdata).getD []
  records := (ctx.response.map fun r => r.answers.map fun record =>
    { name := forms.displayName record.name
      ttl := record.ttl
      record_type := forms.displayType record.recordType
      data := forms.displayData record.rdata }).getD []
  cache_hit := cacheHit rt.registry ctx
  ecs := (ecsOf ctx.query).map fun cs => ecsLabel (some cs)
  trace := ctx.trace

/-- `query`. -/
def query (depth : ℕ) (id : UInt16) (req : QueryReq) : Run (Except Refusal QueryResp) :=
  match prepare forms rt id req with
  | .error e => done (.error e)
  | .ok (ctx, entry) => (Server.handleQuery rt.registry depth entry ctx).bind fun (ctx, r) =>
    match r with
    | .error e => done (.error (502, e.display))
    | .ok () => done (.ok (report forms rt ctx))

variable {forms rt}

/-! ### Refusals -/

/-- The request is fresh and traced. -/
theorem prepare_eq_ok {id : UInt16} {req : QueryReq} {start : QueryContext} {entry : Tag}
    (h : prepare forms rt id req = .ok (start, entry)) : ∃ msg clientIp,
      start = { QueryContext.new msg clientIp .Https with traceEnabled := true } := by
  simp only [prepare, bind_eq_ok] at h
  obtain ⟨_, -, _, -, msg, -, clientIp, -, _, -, _, -, hdone⟩ := h
  cases hdone
  exact ⟨msg, clientIp, rfl⟩

/-- An answer is the report on a request that was run to its end. -/
theorem query_ends_ok {depth : ℕ} {id : UInt16} {req : QueryReq} {tr : Trace} {resp : QueryResp} :
    Ends (query forms rt depth id req) tr (.ok resp) ↔
      ∃ start entry ctx, prepare forms rt id req = .ok (start, entry) ∧
        Ends (Server.handleQuery rt.registry depth entry start) tr (ctx, .ok ()) ∧
        resp = report forms rt ctx := by
  constructor
  · intro h
    rw [query] at h
    cases hp : prepare forms rt id req with
    | error e =>
      rw [hp] at h
      cases (ends_done h).2
    | ok p =>
      rw [hp] at h
      obtain ⟨tr, tr', ⟨ctx, r⟩, rfl, hrun, h⟩ := ends_bind h
      cases r with
      | error e => cases (ends_done h).2
      | ok u =>
        obtain ⟨rfl, hresp⟩ := ends_done h
        cases hresp
        exact ⟨p.1, p.2, ctx, rfl, by simpa using hrun, rfl⟩
  · rintro ⟨start, entry, ctx, hp, hrun, rfl⟩
    rw [query, hp, ← List.append_nil tr]
    exact hrun.bind (.refl _)

end Api

/-! ### Tables under their tags -/

/-- A table read from its arguments is registered under its own tag. -/
theorem Runtime.build_hostsTagged {order : MapOrder} {l : Loader} {src : HostsSource} {config : Config}
    {rt : Runtime} (h : build order { l with hosts := Hosts.fromArgs src } config = .ok rt) :
    rt.registry.HostsTagged := by
  intro tag t ht
  have hexec := Registry.getExec_eq_ok.2 ht
  obtain ⟨p, hp, rfl, -⟩ := named_of_registered h hexec
  have hmake := (registered_leaf h hp (q := .hosts t)).1 hexec
  obtain ⟨table, rfl⟩ := Hosts.fromArgs_eq_ok src (Loader.make_leaf.1 hmake).2
  rfl

/-! ### Reported hits -/

namespace Api

variable {forms : Forms} {rt : Runtime}

theorem cacheHit_iff {reg : Registry} {ctx : QueryContext} :
    cacheHit reg ctx = true ↔ ∃ e ∈ ctx.trace, e.IsHit reg := by
  simp [cacheHit, TraceEvent.IsHit]

section Runs

variable [Crates]

/-- The two ways to tell where a response came from, along any history. -/
theorem told_of_history {id : UInt16} {req : QueryReq} {start ctx : QueryContext} {entry : Tag}
    {tr : Trace} {ts : List Turn} (hp : prepare forms rt id req = .ok (start, entry))
    (h : History rt.registry tr start ts ctx) :
    (cacheHit rt.registry ctx = true ↔ .served ∈ ts) ∧
      (ctx.servedFromCache = true ↔ ts.getLast? = some .served) := by
  obtain ⟨msg, clientIp, rfl⟩ := prepare_eq_ok hp
  exact ⟨cacheHit_iff.trans (h.trace rfl (by simp [QueryContext.new])), h.flag rfl⟩

section Answered

variable {order : MapOrder} {l : Loader} {src : HostsSource} {config : Config}
  (hb : Runtime.build order { l with hosts := Hosts.fromArgs src } config = .ok rt) {depth : ℕ}
  {id : UInt16} {req : QueryReq} {tr : Trace} {resp : QueryResp}
  (he : Ends (query forms rt depth id req) tr (.ok resp))

include hb he

/-- An answer is the report on a context that has a history in the run. -/
theorem query_history : ∃ start entry ctx, prepare forms rt id req = .ok (start, entry) ∧
    Ends (Server.handleQuery rt.registry depth entry start) tr (ctx, .ok ()) ∧
    resp = report forms rt ctx ∧ ∃ ts, History rt.registry tr start ts ctx := by
  obtain ⟨start, entry, ctx, hp, hrun, hresp⟩ := query_ends_ok.1 he
  have htag := Runtime.build_hostsTagged hb
  have hsat : (Server.handle rt.registry depth (Server.entryTag entry) start).Sat
      (following rt.registry tr start) fun o => Follows rt.registry tr start o.1 :=
    handle_follows htag depth _ start
  exact ⟨start, entry, ctx, hp, hrun, hresp, (hsat.ends hrun fun _ hev => hev).2⟩

/-- Whatever is asked of a runtime, a response that a cache served is reported as one; and an answer
reports a cache hit just if its response is one that a cache served, if and only if no hit was lost
on the way. -/
theorem hit_reported_iff : ∃ start entry ctx, prepare forms rt id req = .ok (start, entry) ∧
    Ends (Server.handleQuery rt.registry depth entry start) tr (ctx, .ok ()) ∧
    resp = report forms rt ctx ∧ (ctx.servedFromCache = true → resp.cache_hit = true) ∧
    (∃ ts, History rt.registry tr start ts ctx) ∧
    ∀ ts, History rt.registry tr start ts ctx →
      ((resp.cache_hit = true ↔ ctx.servedFromCache = true) ↔ ¬ Turn.Lost ts) := by
  obtain ⟨start, entry, ctx, hp, hrun, rfl, hhistory⟩ := query_history hb he
  refine ⟨start, entry, ctx, hp, hrun, rfl, fun hs => ?_, hhistory, fun ts h => ?_⟩
  · obtain ⟨ts, h⟩ := hhistory
    obtain ⟨hhit, hflag⟩ := told_of_history hp h
    exact hhit.2 (List.mem_of_getLast? (hflag.1 hs))
  obtain ⟨hhit, hflag⟩ := told_of_history hp h
  change (cacheHit rt.registry ctx = true ↔ _) ↔ _
  rw [hhit, hflag]
  exact Turn.not_lost_iff

end Answered

end Runs

/-! ### A dropped hit -/

section Sample

/-- Names, types and records as they are printed, record data only if it is an IPv4 address. -/
def sampleForms : Forms where
  fromAscii t := if t = "a.test.".toList then .ok Sample.aTest else .error "Malformed label"
  recordType _ := none
  displayCode
    | .NoError => "No Error"
    | _ => "Server Failure"
  displayName n := String.ofList (Escape.printName Sample.printOctet n)
  displayType t := String.ofList (Sample.printType t)
  displayData
    | .A ip => String.ofList (IpAddr.v4 ip).display
    | _ => ""
  debugData
    | .A ip => "A(A(" ++ String.ofList (IpAddr.v4 ip).display ++ "))"
    | _ => ""

/-- A loader that reads no file and knows one upstream server. -/
def oneUpstream : Loader where
  __ := Runtime.offline
  forward tag _ := .ok { Sample.forward with tag }

/-- The cache's response is dropped whenever there is one, and upstream asked instead. -/
def droppingConfig : Config where
  log := ⟨"info", none⟩
  includes := []
  plugins :=
    [Runtime.plugin "cache" "cache" .null, Runtime.plugin "up" "forward" .null,
      Runtime.plugin "main" "sequence" (Runtime.steps ["$cache", "drop_resp", "$up"])]
  servers := [⟨"main", 5, [Runtime.udpListener]⟩]
  api := ⟨none⟩
  baseDir := "."

def builtDropping : Except Error Runtime :=
  Runtime.build Runtime.asInserted { oneUpstream with hosts := Hosts.fromArgs nothing }
    droppingConfig

/-- What is asked for the address of `a.test`. -/
def asked : QueryReq := ⟨"a.test".toList, "A".toList, none, none, none⟩

/-- A request through `entry` from this world, with an upstream server that knows the answer. -/
def ran (rt : Runtime) (start : QueryContext) (entry : Tag) (w : World) :=
  (@Server.handleQuery Sample.codec rt.registry 4 entry start).play
    (@Resolver.oracle Sample.codec rt.registry 4 (Sample.answering Sample.answer)) false w

/-- Asked twice, the cache serves the second time, and upstream answers. -/
theorem asked_twice : ∃ rt start x tr ctx w, builtDropping = .ok rt ∧
    @prepare Sample.codec sampleForms rt 1 asked = .ok (start, "main") ∧
    ran rt start "main" Sample.world = some x ∧
    ran rt start "main" x.2.2.1 = some (tr, (ctx, .ok ()), w) ∧
    cacheHit rt.registry ctx = true ∧ ctx.servedFromCache = false := by
  have h : (builtDropping.toOption.bind fun rt =>
      (@prepare Sample.codec sampleForms rt 1 asked).toOption.bind fun p =>
        (ran rt p.1 p.2 Sample.world).bind fun x =>
          (ran rt p.1 p.2 x.2.2.1).map fun y =>
            (p.2, y.2.1.2, cacheHit rt.registry y.2.1.1, y.2.1.1.servedFromCache)) =
      some ("main", .ok (), true, false) := by decide +kernel
  obtain ⟨rt, hb, h⟩ := Option.bind_eq_some_iff.1 h
  obtain ⟨⟨start, entry⟩, hp, h⟩ := Option.bind_eq_some_iff.1 h
  obtain ⟨x, hx, h⟩ := Option.bind_eq_some_iff.1 h
  obtain ⟨⟨tr, ⟨ctx, r⟩, w⟩, hy, h⟩ := Option.map_eq_some_iff.1 h
  simp only [Prod.mk.injEq] at h
  obtain ⟨rfl, rfl, hhit, hflag⟩ := h
  exact ⟨rt, start, x, tr, ctx, w, toOption_eq_some.1 hb, toOption_eq_some.1 hp, hx, hy, hhit,
    hflag⟩

theorem hit_reported_iff_dropping : ∃ rt tr resp, builtDropping = .ok rt ∧
    Ends (@query Sample.codec sampleForms rt 4 1 asked) tr (.ok resp) ∧
    ∃ start entry ctx, @prepare Sample.codec sampleForms rt 1 asked = .ok (start, entry) ∧
      Ends (@Server.handleQuery Sample.codec rt.registry 4 entry start) tr (ctx, .ok ()) ∧
      resp = report sampleForms rt ctx ∧ (ctx.servedFromCache = true → resp.cache_hit = true) ∧
      (∃ ts, @History Sample.codec rt.registry tr start ts ctx) ∧
      ∀ ts, @History Sample.codec rt.registry tr start ts ctx →
        ((resp.cache_hit = true ↔ ctx.servedFromCache = true) ↔ ¬ Turn.Lost ts) := by
  obtain ⟨rt, start, x, tr, ctx, w, hb, hp, -, hy, -⟩ := asked_twice
  have he := (@query_ends_ok Sample.codec sampleForms rt 4 1 asked tr _).2
    ⟨start, "main", ctx, hp, play_ends hy, rfl⟩
  exact ⟨rt, tr, _, hb, he, @hit_reported_iff _ _ Sample.codec _ _ _ _ hb _ _ _ _ _ he⟩

/-- The hit of the second request is reported although its response is upstream's. -/
theorem dropped_hit_is_reported : ∃ rt start x tr ctx w, builtDropping = .ok rt ∧
    @prepare Sample.codec sampleForms rt 1 asked = .ok (start, "main") ∧
    ran rt start "main" Sample.world = some x ∧
    ran rt start "main" x.2.2.1 = some (tr, (ctx, .ok ()), w) ∧
    Ends (@query Sample.codec sampleForms rt 4 1 asked) tr (.ok (report sampleForms rt ctx)) ∧
    ¬ ((report sampleForms rt ctx).cache_hit = true ↔ ctx.servedFromCache = true) := by
  obtain ⟨rt, start, x, tr, ctx, w, hb, hp, hx, hy, hhit, hflag⟩ := asked_twice
  have he := (@query_ends_ok Sample.codec sampleForms rt 4 1 asked tr _).2
    ⟨start, "main", ctx, hp, play_ends hy, rfl⟩
  refine ⟨rt, start, x, tr, ctx, w, hb, hp, hx, hy, he, fun h => ?_⟩
  have hserved := h.1 hhit
  rw [hflag] at hserved
  cases hserved

end Sample

end Api

end FerrumDns
