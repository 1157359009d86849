import FerrumDns.Api.Query
import FerrumDns.Listeners.Agree
import FerrumDns.Runtime.Registered

/-! What a diagnostic query tells is what a client would be answered. The request is traced and
the client's is not, and it comes in over another transport, but neither is looked at: the same
caches are read and written, the same servers are asked the same, and the code and the records
in the answer are those of the message that a listener has for the client. -/

namespace FerrumDns

open Prog Dnsutil Text Fallible

/-! ### Tags -/

/-- A checked tag is taken as it is. -/
theorem Server.entryTag_valid {tag : Tag} (h : ValidTag tag) : entryTag tag = tag := by
  obtain ⟨hne, hdollar, hwhite⟩ := h
  have htrim : trim tag.toList = tag.toList := by
    refine trim_of_not_white fun c hc => ?_
    by_contra hc'
    exact hwhite (List.any_eq_true.2 ⟨c, hc, by simpa using hc'⟩)
  have hstart : trimStart (· == '$') tag.toList = tag.toList := by
    obtain ⟨c, rest, htag⟩ := List.exists_cons_of_ne_nil hne
    rw [htag] at hdollar ⊢
    have hc : ¬ (c == '$') = true := by simpa using hdollar
    exact List.dropWhile_cons_of_neg hc
  rw [entryTag, htrim, hstart, String.ofList_toList]

namespace Api

variable [Crates] {forms : Forms} {rt : Runtime}

/-- What covers transports and traces. -/
def untraced : Veil where
  protocol _ := .Udp
  clientAddr := id
  traced := false

/-- The code and the records that are told are those of the message, a server failure without
records if there is none. -/
structure QueryResp.Tells (forms : Forms) (resp : QueryResp) (message : Option Message) : Prop where
  rcode : resp.rcode = (message.map fun r => forms.displayCode r.responseCode).getD "SERVFAIL"
  answers : resp.answers = (message.map fun r => r.answers.map fun rec =>
    forms.displayName rec.name ++ " " ++ String.ofList (decimal rec.ttl.val) ++ " " ++
      forms.debugData rec.rdata).getD []
  records : resp.records = (message.map fun r => r.answers.map fun record =>
    { name := forms.displayName record.name
      ttl := record.ttl
      record_type := forms.displayType record.recordType
      data := forms.displayData record.rdata }).getD []

omit [Crates] in
theorem tells_report (ctx : QueryContext) : (report forms rt ctx).Tells forms ctx.response :=
  ⟨rfl, rfl, rfl⟩

/-- A message with a subnet is still the query that it was. -/
theorem classify_attachEcs {msg msg' : Message} {spec : Option Text}
    (h : attachEcs msg spec = .ok msg') : classifyIncoming msg' = classifyIncoming msg := by
  cases spec with
  | none =>
    cases h
    rfl
  | some spec =>
    obtain ⟨cs, -, rfl⟩ := map_eq_ok.1 (mapError_eq_ok h)
    rfl

/-- What is posted is made into a query that is run through a registered plugin. -/
theorem prepare_query {id : UInt16} {req : QueryReq} {start : QueryContext} {entry : Tag}
    (h : prepare forms rt id req = .ok (start, entry)) :
    classifyIncoming start.original = .Ok ∧ (∃ p, rt.registry.getExec entry = .ok p) ∧
      start = { QueryContext.new start.original start.clientAddr .Https with traceEnabled := true } := by
  simp only [prepare, bind_eq_ok] at h
  obtain ⟨_, -, msg, hmsg, msg', hmsg', _, -, tag, -, p, hexec, hdone⟩ := h
  cases hdone
  refine ⟨?_, ⟨p, mapError_eq_ok hexec⟩, rfl⟩
  obtain ⟨name, -, rfl⟩ := map_eq_ok.1 (mapError_eq_ok hmsg)
  exact classify_attachEcs hmsg'

/-- An answer tells what was left of the handled request. -/
theorem shows_query {depth : ℕ} {id : UInt16} {req : QueryReq} {start : QueryContext} {entry : Tag}
    (hp : prepare forms rt id req = .ok (start, entry)) {outside : Trace} {resp : QueryResp} :
    untraced.Shows (query forms rt depth id req) outside (.ok resp) ↔
      ∃ ctx, untraced.Shows (Server.handleQuery rt.registry depth entry start) outside (ctx, .ok ()) ∧
        report forms rt ctx = resp := by
  constructor
  · rintro ⟨tr, hends, hseen⟩
    obtain ⟨start', entry', ctx, hp', hrun, rfl⟩ := query_ends_ok.1 hends
    obtain ⟨rfl, rfl⟩ := Prod.mk.inj (Except.ok.inj (hp.symm.trans hp'))
    exact ⟨ctx, ⟨tr, hrun, hseen⟩, rfl⟩
  · rintro ⟨ctx, ⟨tr, hrun, hseen⟩, rfl⟩
    exact ⟨tr, query_ends_ok.2 ⟨start, entry, ctx, hp, hrun, rfl⟩, hseen⟩

omit [Crates] in
theorem ends_conclude {ctx : QueryContext} {tr : Trace} {o : QueryContext × Except Error Unit}
    (h : Ends (Server.conclude ctx) tr o) : o.2 = .ok () := by
  rw [Server.conclude] at h
  obtain ⟨_, _, _, -, -, h⟩ := ends_bind h
  obtain ⟨_, _, _, -, -, h⟩ := ends_bind h
  obtain ⟨-, rfl⟩ := ends_done h
  rfl

/-- A request that is run through a registered plugin is handled to its end. -/
theorem handle_ok {reg : Registry} {depth : ℕ} {entry : Tag} {ctx : QueryContext} {tr : Trace}
    {o : QueryContext × Except Error Unit} (hentry : ∃ p, reg.getExec entry = .ok p)
    (h : Ends (Server.handle reg depth entry ctx) tr o) : o.2 = .ok () := by
  obtain ⟨p, hp⟩ := hentry
  simp only [Server.handle, hp] at h
  split at h
  · obtain ⟨-, rfl⟩ := ends_done h
    rfl
  · exact ends_conclude h
  · obtain ⟨_, _, _, -, -, h⟩ := ends_bind h
    exact ends_conclude h

/-- For every runtime that was built, whatever is posted and whatever caches, servers and the clock
show: a diagnostic query does to them what a listener does for a client with the same message and
address, and it tells the code and the records of the message that the listener has for the client.
That holds both ways, so neither tracing nor the listener makes a difference. -/
theorem diagnosed_as_served {order : MapOrder} {l : Loader} {config : Config}
    (hb : Runtime.build order l config = .ok rt) {depth : ℕ} {id : UInt16} {req : QueryReq}
    {start : QueryContext} {entry : Tag} (hp : prepare forms rt id req = .ok (start, entry))
    {peer : IpAddr} (hpeer : readClientIp req.client_ip = .ok (some peer)) {buf : Bytes}
    (hbuf : decode buf = .ok start.original) (listener : Listener) (outside : Trace) :
    (∀ resp, untraced.Shows (query forms rt depth id req) outside (.ok resp) →
      ∃ message, untraced.Shows (listener.task rt.registry depth entry buf peer) outside message ∧
        resp.Tells forms message) ∧
    ∀ message, untraced.Shows (listener.task rt.registry depth entry buf peer) outside message →
      ∃ resp, untraced.Shows (query forms rt depth id req) outside (.ok resp) ∧
        resp.Tells forms message := by
  obtain ⟨hclass, ⟨p, hexec⟩, hstart⟩ := prepare_query hp
  obtain ⟨_, -, -, hvalid⟩ := Runtime.named_of_registered hb hexec
  have htag : Server.entryTag entry = entry := Server.entryTag_valid hvalid
  have haddr : start.clientAddr = some peer := by
    simp only [prepare, bind_eq_ok] at hp
    obtain ⟨_, -, _, -, _, -, ip, hip, _, -, _, -, hdone⟩ := hp
    cases hdone
    exact Except.ok.inj (hip.symm.trans hpeer)
  have hblind (tag : Tag) (p : Executable) (_ : rt.registry.getExec tag = .ok p) :
      untraced.Blind p := Veil.blind_of_kept rfl p
  -- the two requests are one request behind the veil
  have hsame : untraced.context start =
      untraced.context (.new start.original (some peer) listener.proto) := by
    rw [hstart, haddr]
    rfl
  constructor
  · intro resp hresp
    obtain ⟨ctx, hrun, rfl⟩ := (shows_query hp).1 hresp
    rw [Server.handleQuery, htag] at hrun
    obtain ⟨⟨ctx', r⟩, hrun', ho⟩ := hrun.of_context_eq hblind hsame
    obtain ⟨hmessage, rfl⟩ := Veil.response_eq_of_outcome_eq ho
    refine ⟨ctx.response, ?_, tells_report ctx⟩
    rw [Listener.task_ok hbuf hclass, Veil.shows_bind_done]
    exact ⟨_, hrun', hmessage⟩
  · intro message hmessage
    rw [Listener.task_ok hbuf hclass, Veil.shows_bind_done] at hmessage
    obtain ⟨⟨ctx, r⟩, hrun, rfl⟩ := hmessage
    obtain ⟨⟨ctx', r'⟩, hrun', ho⟩ := hrun.of_context_eq hblind hsame.symm
    obtain ⟨hresponse, rfl⟩ := Veil.response_eq_of_outcome_eq ho
    obtain rfl : r' = .ok () := handle_ok ⟨p, hexec⟩ hrun'.choose_spec.1
    refine ⟨report forms rt ctx', (shows_query hp).2 ⟨ctx', ?_, rfl⟩, ?_⟩
    · rw [Server.handleQuery, htag]
      exact hrun'
    · have htells : (report forms rt ctx').Tells forms ctx'.response := tells_report ctx'
      rw [hresponse] at htells
      exact htells

/-! ### A client's question -/

section Sample

omit [Crates]

/-- Asked on behalf of a client. -/
def clientAsked : QueryReq := { asked with client_ip := some "192.0.2.7".toList }

/-- A client that sends the same message has its answer over UDP. -/
theorem diagnosed_as_served_client : ∃ rt tr resp message, builtDropping = .ok rt ∧
    Ends (@query Sample.codec sampleForms rt 4 1 clientAsked) tr (.ok resp) ∧
    @Veil.Shows _ untraced (@Listener.task Sample.codec rt.registry 4 "main" Sample.queryWire
      (.v4 (.ofOctets 192 0 2 7)) .udp) (untraced.seen tr) message ∧
    resp.Tells sampleForms message ∧ resp.rcode = "No Error" := by
  have h : (builtDropping.toOption.bind fun rt =>
      (@prepare Sample.codec sampleForms rt 1 clientAsked).toOption.bind fun p =>
        (ran rt p.1 p.2 Sample.world).map fun x =>
          (p.2, p.1.original, x.2.1.2, (report sampleForms rt x.2.1.1).rcode)) =
      some ("main", Sample.query, .ok (), "No Error") := by decide +kernel
  obtain ⟨rt, hb, h⟩ := Option.bind_eq_some_iff.1 h
  obtain ⟨⟨start, entry⟩, hp, h⟩ := Option.bind_eq_some_iff.1 h
  obtain ⟨⟨tr, ⟨ctx, r⟩, w⟩, hx, h⟩ := Option.map_eq_some_iff.1 h
  simp only [Prod.mk.injEq] at h
  obtain ⟨rfl, hquery, rfl, hcode⟩ := h
  have hp := toOption_eq_some.1 hp
  have he := (@query_ends_ok Sample.codec sampleForms rt 4 1 clientAsked tr _).2
    ⟨start, "main", ctx, hp, play_ends hx, rfl⟩
  have hbuf : @decode Sample.codec Sample.queryWire = .ok start.original := by
    rw [hquery]
    decide +kernel
  obtain ⟨message, hmessage, htells⟩ := (@diagnosed_as_served Sample.codec sampleForms rt _ _ _
    (toOption_eq_some.1 hb) 4 1 clientAsked start "main" hp (.v4 (.ofOctets 192 0 2 7))
    (by decide +kernel) Sample.queryWire hbuf .udp _).1 _ ⟨tr, he, rfl⟩
  exact ⟨rt, tr, _, message, toOption_eq_some.1 hb, he, hmessage, htells, hcode⟩

end Sample

end Api

end FerrumDns
