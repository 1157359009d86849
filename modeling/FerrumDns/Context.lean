import FerrumDns.Dnsutil
import Mathlib.Data.Finset.Insert

/-! The per-query context that flows through the plugin pipeline: the query as
rewritten so far next to the one received, the response with the marks and
aliases gathered on the way, and the state a background refresh restarts from.
Clock readings, context numbers and the text of trace events are left out. The
last three fields are history variables: which step installed the current response,
how many names had been rewritten by then, and whether a step refused the subnet.
No definition branches on them. -/

namespace FerrumDns

open Dnsutil

inductive ClientProto where
  | Udp | Tcp | Tls | Https
  deriving DecidableEq, Repr

/-- The kinds of step that call `set_response`. -/
inductive Source where
  | cacheHit (tag : Tag)
  | forward (tag : Tag)
  | hosts (tag : Tag)
  | reject
  deriving DecidableEq, Repr

structure EntryState where
  query : Message
  marks : Finset U32
  stripEcsOnReply : Bool
  deriving DecidableEq

structure TraceEvent where
  plugin : String
  event : String
  deriving DecidableEq, Repr

structure QueryContext where
  clientAddr : Option IpAddr
  protocol : ClientProto
  query : Message
  original : Message
  response : Option Message
  marks : Finset U32
  rewrites : List (Name × Name)
  entryState : Option EntryState
  trace : List TraceEvent
  traceEnabled : Bool
  skipCache : Bool
  stripEcsOnReply : Bool
  servedFromCache : Bool
  pipelineEntry : Option Tag
  source : Option Source
  rewritesAnswered : ℕ
  ecsRefused : Bool
  deriving DecidableEq

namespace QueryContext

def new (query : Message) (clientAddr : Option IpAddr) (protocol : ClientProto) : QueryContext where
  clientAddr := clientAddr
  protocol := protocol
  query := query
  original := query
  response := none
  marks := ∅
  rewrites := []
  entryState := none
  trace := []
  traceEnabled := false
  skipCache := false
  stripEcsOnReply := false
  servedFromCache := false
  pipelineEntry := none
  source := none
  rewritesAnswered := 0
  ecsRefused := false

def setResponse (ctx : QueryContext) (source : Source) (msg : Message) : QueryContext :=
  { ctx with
    response := some { msg with id := ctx.query.id, messageType := .Response }
    servedFromCache := false
    source := some source
    rewritesAnswered := ctx.rewrites.length }

def dropResponse (ctx : QueryContext) : QueryContext :=
  { ctx with response := none, servedFromCache := false, source := none }

/-- Capture the state before any pipeline step, once per incoming request. -/
def beginPipeline (ctx : QueryContext) (entry : Tag) : QueryContext :=
  if ctx.entryState.isNone then
    { ctx with
      entryState := some ⟨ctx.query, ctx.marks, ctx.stripEcsOnReply⟩
      pipelineEntry := some entry }
  else ctx

/-- Only the first question is rewritten; the target is taken as absolute. -/
def rewriteName (ctx : QueryContext) (name : Name) : QueryContext :=
  let name : Name := { name with fqdn := true }
  match ctx.query.queries with
  | [] => ctx
  | question :: rest =>
    if question.name.Same name then ctx
    else { ctx with
      rewrites := ctx.rewrites ++ [(question.name, name)]
      query := { ctx.query with queries := { question with name } :: rest } }

def rewriteCount (ctx : QueryContext) : ℕ := ctx.rewrites.length

/-! ### Responses for a question -/

/-- The EDNS record left in a reply to a query with EDNS record `query`. -/
def rebindEdns (response query : Option Edns) : Option Edns :=
  match response, query with
  | _, none => none
  | some r, some q => some { r.setMaxPayload q.maxPayload with dnssecOk := q.dnssecOk }
  | none, some _ => none

def rebindResponse (response query : Message) : Message :=
  { response with
    id := query.id
    messageType := .Response
    opCode := query.opCode
    recursionDesired := query.recursionDesired
    checkingDisabled := query.checkingDisabled
    queries := query.queries
    edns := rebindEdns response.edns query.edns }

/-- The response already has the alias as one of its answers. -/
def hasAlias (answers : List Record) (hop : Name × Name) : Bool :=
  answers.any fun record => decide (record.name.Same hop.1) &&
    match record.rdata with
    | .CNAME target => decide (target.Same hop.2)
    | _ => false

/-- The synthesised record of an alias, in the class of the first question. -/
def aliasRecord (query : Message) (ttl : U32) (hop : Name × Name) : Record :=
  let record := recordCname hop.1 ttl hop.2
  match query.queries.head? with
  | some question => { record with dnsClass := question.queryClass }
  | none => record

def aliasRecords (response query : Message) (aliases : List (Name × Name)) : List Record :=
  (aliases.filter fun hop => !hasAlias response.answers hop).map
    (aliasRecord query (minTtl response))

/-- The response rebound to `query`, with the aliases made from position `rewriteStart` on. -/
def bindResponse (response query : Message) (aliases : List (Name × Name)) : Message :=
  let response := rebindResponse response query
  if aliases ≠ [] ∧ (response.responseCode = .NoError ∨ response.responseCode = .NXDomain) then
    { response with
      answers := aliasRecords response query aliases ++ response.answers
      authenticData := false }
  else response

def responseForQuery (ctx : QueryContext) (query : Message) (rewriteStart : ℕ) : Option Message :=
  ctx.response.map fun response => bindResponse response query (ctx.rewrites.drop rewriteStart)

/-- Called after all pipeline and cache writes, immediately before sending. -/
def finalizeResponse (ctx : QueryContext) : QueryContext :=
  { ctx with response := ctx.responseForQuery ctx.original 0 }

/-! ### Reading and marking -/

def hasResp (ctx : QueryContext) : Bool := ctx.response.isSome

def qname (ctx : QueryContext) : Option Name := ctx.query.queries.head?.map Query.name

def qnameStr [Crates] (ctx : QueryContext) : Text := (ctx.qname.map Crates.toAscii).getD ['.']

def qtype (ctx : QueryContext) : RecordType := (ctx.query.queries.head?.map Query.queryType).getD .A

def addMark (ctx : QueryContext) (m : U32) : QueryContext := { ctx with marks := insert m ctx.marks }

def hasMark (ctx : QueryContext) (m : U32) : Bool := m ∈ ctx.marks

def pushTrace (ctx : QueryContext) (plugin event : String) : QueryContext :=
  if ctx.traceEnabled then { ctx with trace := ctx.trace ++ [⟨plugin, event⟩] } else ctx

def makeResponse (ctx : QueryContext) (rcode : ResponseCode) : Message :=
  replySkeleton ctx.query rcode

def reject (ctx : QueryContext) (rcode : ResponseCode) : QueryContext :=
  ctx.setResponse .reject (ctx.makeResponse rcode)

/-! ### Copies -/

/-- The context a background refresh starts from. -/
def cloneForLazy (ctx : QueryContext) : QueryContext :=
  let c := new ctx.original ctx.clientAddr ctx.protocol
  let c := match ctx.entryState with
    | some initial => { c with
        query := initial.query
        marks := initial.marks
        stripEcsOnReply := initial.stripEcsOnReply }
    | none => c
  { c with
    entryState := ctx.entryState
    pipelineEntry := ctx.pipelineEntry
    skipCache := true }

/-- Independent copy of the query for a parallel pipeline. -/
def fork (ctx : QueryContext) : QueryContext :=
  { ctx with response := none, trace := [], servedFromCache := false, source := none }

/-- Take over the results of a forked context. -/
def absorb (ctx other : QueryContext) : QueryContext :=
  { ctx with
    query := other.query
    response := other.response
    marks := other.marks
    rewrites := other.rewrites
    stripEcsOnReply := other.stripEcsOnReply
    skipCache := other.skipCache
    servedFromCache := other.servedFromCache
    trace := if ctx.traceEnabled then ctx.trace ++ other.trace else ctx.trace
    source := other.source
    rewritesAnswered := other.rewritesAnswered
    ecsRefused := other.ecsRefused }

/-! ### Answers -/

def answerIps (ctx : QueryContext) : List IpAddr :=
  match ctx.response with
  | none => []
  | some resp => resp.answers.filterMap fun r =>
    match r.rdata with
    | .A ip => some (.v4 ip)
    | .AAAA ip => some (.v6 ip)
    | _ => none

def hasWantedAns (ctx : QueryContext) : Bool :=
  match ctx.response with
  | none => false
  | some resp => resp.responseCode = .NoError && resp.answers.any (·.recordType = ctx.qtype)

/-- `u32::clamp`. -/
def clamp (low high ttl : U32) : U32 := if ttl < low then low else if high < ttl then high else ttl

def applyTtlClamp (ctx : QueryContext) (low high : U32) : QueryContext :=
  { ctx with
    response := ctx.response.map fun resp => { resp with
      answers := resp.answers.map fun r => { r with ttl := clamp low high r.ttl }
      nameServers := resp.nameServers.map fun r => { r with ttl := clamp low high r.ttl } } }

def filterAnswers (ctx : QueryContext) (keep : RecordType → Bool) : QueryContext :=
  { ctx with
    response := ctx.response.map fun resp =>
      { resp with answers := resp.answers.filter fun r => keep r.recordType } }

def preferIpv4 (ctx : QueryContext) : QueryContext := ctx.filterAnswers (· ≠ .AAAA)

def preferIpv6 (ctx : QueryContext) : QueryContext := ctx.filterAnswers (· ≠ .A)

/-! ### What rewriting and tracing change -/

/-- Rewriting touches the questions and the list of rewrites only. -/
theorem rewriteName_eq (ctx : QueryContext) (name : Name) : ∃ rewrites queries,
    ctx.rewriteName name = { ctx with rewrites, query := { ctx.query with queries } } := by
  simp only [rewriteName]
  split
  · exact ⟨ctx.rewrites, ctx.query.queries, rfl⟩
  · split_ifs
    · exact ⟨ctx.rewrites, ctx.query.queries, rfl⟩
    · exact ⟨_, _, rfl⟩

/-- Rewrites are never taken back. -/
theorem rewrites_rewriteName (ctx : QueryContext) (name : Name) :
    ctx.rewrites <+: (ctx.rewriteName name).rewrites := by
  simp only [rewriteName]
  split
  · exact List.prefix_rfl
  · split_ifs
    · exact List.prefix_rfl
    · exact List.prefix_append _ _

section PushTrace

variable (ctx : QueryContext) (plugin event : String)

/-- Either an event is appended or nothing changes. -/
theorem pushTrace_eq : ∃ trace, ctx.pushTrace plugin event = { ctx with trace } := by
  rw [pushTrace]
  split_ifs
  · exact ⟨_, rfl⟩
  · exact ⟨ctx.trace, rfl⟩

@[simp] theorem pushTrace_query : (ctx.pushTrace plugin event).query = ctx.query := by
  obtain ⟨_, h⟩ := ctx.pushTrace_eq plugin event
  rw [h]

@[simp] theorem pushTrace_original : (ctx.pushTrace plugin event).original = ctx.original := by
  obtain ⟨_, h⟩ := ctx.pushTrace_eq plugin event
  rw [h]

@[simp] theorem pushTrace_response : (ctx.pushTrace plugin event).response = ctx.response := by
  obtain ⟨_, h⟩ := ctx.pushTrace_eq plugin event
  rw [h]

@[simp] theorem pushTrace_rewrites : (ctx.pushTrace plugin event).rewrites = ctx.rewrites := by
  obtain ⟨_, h⟩ := ctx.pushTrace_eq plugin event
  rw [h]

@[simp] theorem pushTrace_skipCache : (ctx.pushTrace plugin event).skipCache = ctx.skipCache := by
  obtain ⟨_, h⟩ := ctx.pushTrace_eq plugin event
  rw [h]

@[simp] theorem pushTrace_stripEcsOnReply :
    (ctx.pushTrace plugin event).stripEcsOnReply = ctx.stripEcsOnReply := by
  obtain ⟨_, h⟩ := ctx.pushTrace_eq plugin event
  rw [h]

@[simp] theorem pushTrace_servedFromCache :
    (ctx.pushTrace plugin event).servedFromCache = ctx.servedFromCache := by
  obtain ⟨_, h⟩ := ctx.pushTrace_eq plugin event
  rw [h]

@[simp] theorem pushTrace_source : (ctx.pushTrace plugin event).source = ctx.source := by
  obtain ⟨_, h⟩ := ctx.pushTrace_eq plugin event
  rw [h]

@[simp] theorem pushTrace_pipelineEntry :
    (ctx.pushTrace plugin event).pipelineEntry = ctx.pipelineEntry := by
  obtain ⟨_, h⟩ := ctx.pushTrace_eq plugin event
  rw [h]

@[simp] theorem pushTrace_cloneForLazy :
    (ctx.pushTrace plugin event).cloneForLazy = ctx.cloneForLazy := by
  obtain ⟨_, h⟩ := ctx.pushTrace_eq plugin event
  rw [h]
  rfl

end PushTrace

end QueryContext

def buildHostsResponse (q : Message) (records : List Record) : Message :=
  { replySkeleton q .NoError with authoritative := true, answers := records }

end FerrumDns
