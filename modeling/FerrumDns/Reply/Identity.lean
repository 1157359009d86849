import FerrumDns.Pipeline.Invariant
import FerrumDns.Sample

/-! A reply is recognisably the answer to the message as it was received. Whatever a
pipeline does to the query it works on, the message received is left alone, and the
last thing done to a response is to bind it to that message. -/

namespace FerrumDns

open Prog Dnsutil

/-- `resp` answers `q`: the header and question a client checks are its own. -/
structure Identifies (q resp : Message) : Prop where
  messageType : resp.messageType = .Response
  id : resp.id = q.id
  opCode : resp.opCode = q.opCode
  recursionDesired : resp.recursionDesired = q.recursionDesired
  checkingDisabled : resp.checkingDisabled = q.checkingDisabled
  queries : resp.queries = q.queries
  edns : ∀ e e', q.edns = some e → resp.edns = some e' →
    e'.maxPayload = e.maxPayload ∧ e'.dnssecOk = e.dnssecOk

namespace Identifies

/-- A payload size of at least 512 is echoed. -/
theorem rebindEdns_echoes {r q : Option Edns} {e e' : Edns} (hq : q = some e)
    (hfloor : 512 ≤ e.maxPayload) (h : QueryContext.rebindEdns r q = some e') :
    e'.maxPayload = e.maxPayload ∧ e'.dnssecOk = e.dnssecOk := by
  subst hq
  cases r with
  | none => cases h
  | some r =>
    cases h
    refine ⟨?_, rfl⟩
    simp only [Edns.setMaxPayload]
    exact if_neg (UInt16.not_lt.2 hfloor)

theorem bindResponse {q : Message} (hfloor : ∀ e, q.edns = some e → 512 ≤ e.maxPayload)
    (r : Message) (aliases : List (Name × Name)) :
    Identifies q (QueryContext.bindResponse r q aliases) := by
  have edns (e e' : Edns) (he : q.edns = some e) :
      QueryContext.rebindEdns r.edns q.edns = some e' →
        e'.maxPayload = e.maxPayload ∧ e'.dnssecOk = e.dnssecOk :=
    rebindEdns_echoes he (hfloor e he)
  simp only [QueryContext.bindResponse]
  split_ifs
  · exact ⟨rfl, rfl, rfl, rfl, rfl, rfl, edns⟩
  · exact ⟨rfl, rfl, rfl, rfl, rfl, rfl, edns⟩

/-- Taking options out leaves the payload size and the flag. -/
theorem removeEcs {q resp : Message} (h : Identifies q resp) : Identifies q (removeEcs resp) where
  messageType := h.messageType
  id := h.id
  opCode := h.opCode
  recursionDesired := h.recursionDesired
  checkingDisabled := h.checkingDisabled
  queries := h.queries
  edns e e' he he' := by
    obtain ⟨r, hr, rfl⟩ := Option.map_eq_some_iff.1 he'
    exact h.edns e r he hr

theorem finalized {c : QueryContext} {resp : Message}
    (hfloor : ∀ e, c.original.edns = some e → 512 ≤ e.maxPayload)
    (h : (Server.finalized c).response = some resp) : Identifies c.original resp := by
  simp only [Server.finalized] at h
  split_ifs at h
  · simp only [QueryContext.finalizeResponse, QueryContext.responseForQuery, Option.map_map,
      Option.map_eq_some_iff] at h
    obtain ⟨r, -, rfl⟩ := h
    exact (bindResponse hfloor r _).removeEcs
  · obtain ⟨r, -, rfl⟩ := Option.map_eq_some_iff.1 h
    exact bindResponse hfloor r _

end Identifies

/-! ### The message received -/

namespace Received

theorem original_edit {ctx ctx' : QueryContext} (h : Edit ctx ctx') :
    ctx'.original = ctx.original := by
  cases h with
  | trace plugin event => simp
  | rewrite name =>
    obtain ⟨_, _, hr⟩ := ctx.rewriteName_eq name
    rw [hr]
  | _ => rfl

variable [Crates]

/-- No step touches the message as received. -/
theorem kept (q : Message) : Kept (fun _ _ => True) fun ctx => ctx.original = q where
  amend he hi := (original_edit he.edit).trans hi
  redirect {r ctx} _ hi := (r.exec_edits ctx).keep (fun he h => (original_edit he).trans h) hi
  attach _ _ hi _ _ := hi
  fork hi := hi
  absorb hi _ := hi
  hit hi := hi

end Received

namespace Reply

variable [Crates]

/-- The context a listener, or the diagnostic interface if `traced`, makes for a message. -/
@[reducible] def request (q : Message) (peer : Option IpAddr) (proto : ClientProto)
    (traced : Bool) : QueryContext :=
  { QueryContext.new q peer proto with traceEnabled := traced }

/-- A reply carries the client's id, opcode, flags and questions, however the pipeline ended. -/
theorem identifies (hfloor : Crates.PayloadFloor) (reg : Registry) (depth : ℕ) (entry : Tag)
    (buf : Bytes) (q : Message) (hq : decode buf = .ok q) (peer : Option IpAddr)
    (proto : ClientProto) (traced : Bool) (tr : Trace) (ctx : QueryContext)
    (h : Ends (Server.handle reg depth entry (request q peer proto traced)) tr (ctx, .ok ()))
    (resp : Message) (hresp : ctx.response = some resp) : Identifies q resp := by
  by_cases hd : classifyIncoming q = .Drop
  · simp only [Server.handle, QueryContext.new, hd] at h
    cases (ends_done h).2
    cases hresp
  · have hentered : ((request q peer proto traced).beginPipeline entry).original = q := rfl
    obtain ⟨c, rfl, rfl⟩ := (Received.kept q).reply rfl hentered h (fun _ _ => trivial) hd
    exact Identifies.finalized (hfloor buf _ (decode_eq_ok.1 hq)) hresp

/-! ### A rewritten question in capitals -/

section Sample

omit [Crates]

open Sample

/-- A query for `A.TEST.` with an OPT record. -/
def capitals : Message :=
  { Message.new with
    id := 7
    recursionDesired := true
    checkingDisabled := true
    queries := [⟨{ labels := [[65], [84, 69, 83, 84]], fqdn := true }, .A, .IN⟩]
    edns := some { Edns.new.setMaxPayload 1400 with dnssecOk := true } }

def capitalsWire : Bytes :=
  [0, 7, 1, 16, 0, 1, 0, 0, 0, 0, 0, 1, 1, 65, 4, 84, 69, 83, 84, 0, 0, 1, 0, 1,
    0, 0, 41, 5, 120, 0, 0, 128, 0, 0, 0]

@[reducible] def codec : Crates := crates [(capitals, capitalsWire)]

/-- What upstream says of `ns.test.` -/
def upstream : Message :=
  { replySkeleton capitals .NoError with
    id := 9
    queries := [⟨nsTest, .A, .IN⟩]
    answers := [recordA nsTest 60 (Ipv4Addr.ofOctets 192 0 2 1)]
    edns := some (Edns.new.setMaxPayload 1232) }

/-- `a.test` leads to `ns.test`, which is asked upstream. -/
def redirecting : Registry :=
  registry [("to_ns", .redirect ⟨[("a.test".toList, nsTest)]⟩), ("up", .forward forward),
    ("main", .sequence ⟨"main", [⟨[], .Plugin "to_ns"⟩, ⟨[], .Plugin "up"⟩]⟩)] rfl

theorem payloadFloor : @Crates.PayloadFloor codec := by
  intro b m h e he
  have hm : capitals = m := by
    unfold Crates.fromVec at h
    dsimp only at h
    split at h
    next x m' w hx =>
      have hmem := List.mem_of_find?_eq_some hx
      simp only [List.mem_singleton, Prod.mk.injEq] at hmem
      exact (Except.ok.inj h) ▸ hmem.1.symm
    next => cases h
  subst hm
  cases he
  decide

theorem identifies_capitals : ∃ resp, Identifies capitals resp ∧
    resp.answers.map Record.rdata = [.CNAME nsTest, .A (Ipv4Addr.ofOctets 192 0 2 1)] := by
  have h : ((@Server.handle codec redirecting 3 "main" (request capitals none .Tcp false)).play
      (@Resolver.oracle codec redirecting 3 (answering upstream)) false world).map
        (fun x => (x.2.1.2.toOption, x.2.1.1.response.map fun r => r.answers.map Record.rdata)) =
      some (some (), some [.CNAME nsTest, .A (Ipv4Addr.ofOctets 192 0 2 1)]) := by decide +kernel
  obtain ⟨⟨tr, ⟨ctx, res⟩, w, new⟩, hp, hx⟩ := Option.map_eq_some_iff.1 h
  simp only [Prod.mk.injEq, Option.map_eq_some_iff] at hx
  obtain ⟨hres, resp, hresp, hans⟩ := hx
  cases res with
  | error e => cases hres
  | ok u =>
    exact ⟨resp, @identifies codec payloadFloor redirecting 3 "main" capitalsWire capitals
      (by decide +kernel) none .Tcp false tr ctx (play_ends hp) resp hresp, hans⟩

end Sample

end Reply

end FerrumDns
