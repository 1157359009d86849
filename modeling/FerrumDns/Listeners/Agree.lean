import FerrumDns.Pipeline.Veil
import FerrumDns.Reply.Identity

/-! The three kinds of listener give the same answer, but for one case. A request that
is handled has its transport looked at by nothing. A request of another kind than a
query is refused by the datagram and the stream listeners on a path of their own, which
does not bind the refusal to the message received: its checking-disabled flag is lost. -/

namespace FerrumDns

open Prog Dnsutil Server

inductive Listener where
  | udp
  | stream (proto : ClientProto)
  | doh
  deriving DecidableEq

namespace Listener

def proto : Listener → ClientProto
  | udp => .Udp
  | stream proto => proto
  | doh => .Https

/-- The message in an HTTPS reply. -/
def ofDoh : DohReply → Option Message
  | .message response => response
  | _ => none

variable [Crates] (reg : Registry) (depth : ℕ) (entry : Tag) (buf : Bytes) (peer : IpAddr)

/-- The DNS message a listener has for the encoder, if any. -/
def task : Listener → Run (Option Message)
  | udp => (udpTask reg depth entry buf peer).bind fun r => done (r.map UdpReply.response)
  | stream proto => (framedTask reg depth entry buf (some peer) proto).bind fun r =>
      done (r.toOption.bind id)
  | doh => (dohTask reg depth entry buf peer).bind fun r => done (ofDoh r)

/-- What covers the transport noted in contexts, and nothing else. -/
def transport : Veil where
  protocol _ := .Udp
  clientAddr := id
  traced := true

/-- The listener can come up with this message when the outside shows itself like this, apart from
the transport. -/
def Produces (l : Listener) (outside : Trace) (message : Option Message) : Prop :=
  transport.Shows (l.task reg depth entry buf peer) outside message

/-- What is left of a handled request. -/
def replied : QueryContext × Except Error Unit → Option Message
  | (ctx, .ok ()) => ctx.response
  | (_, .error _) => none

variable {reg depth entry buf peer} {q : Message}

theorem task_ok (hq : decode buf = .ok q) (hc : classifyIncoming q = .Ok) (l : Listener) :
    l.task reg depth entry buf peer =
      (handle reg depth entry (QueryContext.new q (some peer) l.proto)).bind fun o =>
        done (replied o) := by
  have ended (f : QueryContext × Except Error Unit → Run (Option Message))
      (hf : ∀ o, f o = done (replied o)) (p : Run (QueryContext × Except Error Unit)) :
      p.bind f = p.bind fun o => done (replied o) := congrArg p.bind (funext hf)
  cases l with
  | udp =>
    simp only [task, udpTask, hq, hc, Prog.bind_assoc]
    refine ended _ (fun o => ?_) _
    obtain ⟨ctx, _ | _⟩ := o
    · rfl
    · simp only [udpReply, bind_done, Option.map_map, replied]
      exact congrArg done Option.map_id'
  | stream proto =>
    simp only [task, framedTask, hq, hc, Prog.bind_assoc]
    refine ended _ (fun o => ?_) _
    obtain ⟨ctx, _ | _⟩ := o <;> rfl
  | doh =>
    simp only [task, dohTask, hq, Prog.bind_assoc]
    refine ended _ (fun o => ?_) _
    obtain ⟨ctx, _ | _⟩ := o <;> rfl

/-! ### A query -/

omit [Crates] in
theorem replied_outcome (v : Veil) (o : QueryContext × Except Error Unit) :
    replied (v.outcome o) = replied o := by
  obtain ⟨ctx, _ | _⟩ := o <;> rfl

/-- Behind a veil that covers what tells their clients and transports apart, any listener can do what
another one does with a query. -/
theorem shows_ok {v : Veil} (hreg : ∀ tag p, reg.getExec tag = .ok p → v.Blind p)
    (hq : decode buf = .ok q) (hc : classifyIncoming q = .Ok) {l l' : Listener} {peer' : IpAddr}
    (hcovered : v.context (.new q (some peer) l.proto) = v.context (.new q (some peer') l'.proto))
    {outside : Trace} {message : Option Message}
    (h : v.Shows (l.task reg depth entry buf peer) outside message) :
    v.Shows (l'.task reg depth entry buf peer') outside message := by
  rw [task_ok hq hc, Veil.shows_bind_done] at h ⊢
  obtain ⟨o, hrun, rfl⟩ := h
  obtain ⟨o', hrun', ho⟩ := hrun.of_context_eq hreg hcovered
  refine ⟨o', hrun', ?_⟩
  rw [← replied_outcome v o', ho, replied_outcome]

theorem produces_ok (hq : decode buf = .ok q) (hc : classifyIncoming q = .Ok) {l l' : Listener}
    {outside : Trace} {message : Option Message}
    (h : Produces reg depth entry buf peer l outside message) :
    Produces reg depth entry buf peer l' outside message := by
  refine shows_ok (fun _ p _ => Veil.blind_of_kept rfl p) hq hc ?_ h
  rfl

/-! ### Something else -/

/-- The refusal as it comes off the skeleton. -/
def refusal (q : Message) : Message := replySkeleton q .NotImp

/-- The refusal bound to the message received. -/
def boundRefusal (q : Message) : Message := QueryContext.rebindResponse (refusal q) q

theorem produces_notImp (hq : decode buf = .ok q) (hc : classifyIncoming q = .NotImp) {l : Listener}
    (hl : l ≠ doh) (outside : Trace) (message : Option Message) :
    Produces reg depth entry buf peer l outside message ↔
      outside = [] ∧ message = some (refusal q) := by
  have htask : l.task reg depth entry buf peer = done (some (refusal q)) := by
    cases l with
    | udp => simp only [task, udpTask, hq, hc]; rfl
    | stream proto => simp only [task, framedTask, hq, hc]; rfl
    | doh => exact absurd rfl hl
  rw [Produces, htask]
  constructor
  · rintro ⟨tr, hends, rfl⟩
    obtain ⟨rfl, rfl⟩ := ends_done hends
    exact ⟨rfl, rfl⟩
  · rintro ⟨rfl, rfl⟩
    exact ⟨[], .refl _, rfl⟩

theorem produces_notImp_doh (hq : decode buf = .ok q) (hc : classifyIncoming q = .NotImp)
    (outside : Trace) (message : Option Message) :
    Produces reg depth entry buf peer doh outside message ↔
      outside = [] ∧ message = some (boundRefusal q) := by
  have htask : doh.task reg depth entry buf peer = (Run.count .responses).bind fun _ =>
      (Run.count .queries).bind fun _ => done (some (boundRefusal q)) := by
    simp only [task, dohTask, hq, handle, QueryContext.new, hc]
    rfl
  rw [Produces, htask]
  constructor
  · rintro ⟨tr, hends, rfl⟩
    obtain ⟨_, tr₁, rfl, h₁⟩ := ends_act hends
    obtain ⟨_, tr₂, rfl, h₂⟩ := ends_act h₁
    obtain ⟨rfl, rfl⟩ := ends_done h₂
    exact ⟨rfl, rfl⟩
  · rintro ⟨rfl, rfl⟩
    exact ⟨_, (Run.ends_count _).bind ((Run.ends_count _).bind (.refl _)), rfl⟩

omit [Crates] in
/-- Binding the refusal changes its checking-disabled flag only. -/
theorem boundRefusal_eq (hfloor : ∀ e, q.edns = some e → 512 ≤ e.maxPayload) :
    boundRefusal q = { refusal q with checkingDisabled := q.checkingDisabled } := by
  have hedns : QueryContext.rebindEdns q.edns q.edns = q.edns := by
    cases he : q.edns with
    | none => rfl
    | some e =>
      have hmax : ¬ e.maxPayload < 512 := UInt16.not_lt.2 (hfloor e he)
      simp only [QueryContext.rebindEdns, Edns.setMaxPayload, if_neg hmax]
  simp only [boundRefusal, QueryContext.rebindResponse, refusal, replySkeleton, hedns]

omit [Crates] in
theorem boundRefusal_eq_iff (hfloor : ∀ e, q.edns = some e → 512 ≤ e.maxPayload) :
    boundRefusal q = refusal q ↔ q.checkingDisabled = false := by
  rw [boundRefusal_eq hfloor]
  constructor
  · intro h
    exact congrArg Message.checkingDisabled h
  · intro h
    rw [h]
    rfl

/-! ### A response -/

/-- No listener has an answer to a response. -/
theorem produces_drop (hq : decode buf = .ok q) (hc : classifyIncoming q = .Drop) {l : Listener}
    {outside : Trace} {message : Option Message}
    (h : Produces reg depth entry buf peer l outside message) : message = none := by
  have htask : l.task reg depth entry buf peer = done none := by
    cases l with
    | udp => simp only [task, udpTask, hq, hc]; rfl
    | stream proto => simp only [task, framedTask, hq, hc]; rfl
    | doh => simp only [task, dohTask, hq, handle, QueryContext.new, hc]; rfl
  obtain ⟨tr, hends, -⟩ := h
  rw [htask] at hends
  exact (ends_done hends).2.symm

/-! ### All messages -/

/-- The listeners agree on a message, and none answers a response, exactly if it is not a request
of another kind than a query with the checking-disabled flag set. -/
theorem produces_same_iff (hfloor : Crates.PayloadFloor) (reg : Registry) (depth : ℕ) (entry : Tag)
    (buf : Bytes) (q : Message) (hq : decode buf = .ok q) (peer : IpAddr) :
    ((q.messageType = .Query → ∀ l l' outside message,
        Produces reg depth entry buf peer l outside message →
        Produces reg depth entry buf peer l' outside message) ∧
      (q.messageType = .Response → ∀ l outside message,
        Produces reg depth entry buf peer l outside message → message = none)) ↔
    (q.messageType = .Query → q.opCode = .Query ∨ q.checkingDisabled = false) := by
  have hfloor' (e : Edns) (he : q.edns = some e) : 512 ≤ e.maxPayload :=
    hfloor buf q (decode_eq_ok.1 hq) e he
  by_cases hr : q.messageType = .Response
  · have hc : classifyIncoming q = .Drop := by simp [classifyIncoming, hr]
    have hn : q.messageType ≠ .Query := by simp [hr]
    refine iff_of_true ⟨fun h => absurd h hn, fun _ l _ _ => produces_drop hq hc⟩ fun h => absurd h hn
  · have hquery : q.messageType = .Query := by
      cases hm : q.messageType with
      | Query => rfl
      | Response => exact absurd hm hr
    by_cases hop : q.opCode = .Query
    · have hc : classifyIncoming q = .Ok := by simp [classifyIncoming, hquery, hop]
      exact iff_of_true ⟨fun _ _ _ _ _ => produces_ok hq hc, fun h => absurd h hr⟩
        fun _ => .inl hop
    · have hc : classifyIncoming q = .NotImp := by simp [classifyIncoming, hquery, hop]
      constructor
      · rintro ⟨hagree, -⟩ -
        have hne : udp ≠ doh := nofun
        have hudp : Produces reg depth entry buf peer udp [] (some (refusal q)) :=
          (produces_notImp hq hc hne [] _).2 ⟨rfl, rfl⟩
        have hdoh := (produces_notImp_doh hq hc [] _).1 (hagree hquery udp doh [] _ hudp)
        exact .inr ((boundRefusal_eq_iff hfloor').1 (Option.some.inj hdoh.2).symm)
      · intro hcd
        have hcd' : q.checkingDisabled = false := (hcd hquery).resolve_left hop
        refine ⟨fun _ l l' outside message h => ?_, fun h => absurd h hr⟩
        have hsame (l : Listener) : Produces reg depth entry buf peer l outside message ↔
            outside = [] ∧ message = some (refusal q) := by
          by_cases hl : l = doh
          · rw [hl, produces_notImp_doh hq hc, (boundRefusal_eq_iff hfloor').2 hcd']
          · exact produces_notImp hq hc hl _ _
        exact (hsame l').2 ((hsame l).1 h)

/-! ### A notification -/

section Sample

omit [Crates]

open Sample

/-- A NOTIFY. -/
def notification (checkingDisabled : Bool) : Message :=
  { Message.new with
    id := 3
    opCode := .Notify
    checkingDisabled
    queries := [⟨aTest, .SOA, .IN⟩] }

/-- Its wire form: the flag is in the fourth octet. -/
def notificationWire (flags : UInt8) : Bytes :=
  [0, 3, 32, flags, 0, 1, 0, 0, 0, 0, 0, 0, 1, 97, 4, 116, 101, 115, 116, 0, 0, 6, 0, 1]

@[reducible] def codec : Crates :=
  crates [(notification true, notificationWire 16), (notification false, notificationWire 0)]

theorem payloadFloor : @Crates.PayloadFloor codec := by
  intro b m h e he
  have hm : m.edns = none := by
    unfold Crates.fromVec at h
    dsimp only at h
    split at h
    next x m' w hx =>
      have hmem := List.mem_of_find?_eq_some hx
      cases Except.ok.inj h
      simp only [List.mem_cons, List.not_mem_nil, Prod.mk.injEq, or_false] at hmem
      rcases hmem with ⟨rfl, -⟩ | ⟨rfl, -⟩ <;> rfl
    next => cases h
  rw [hm] at he
  cases he

theorem udp_refuses (cd : Bool) (flags : UInt8)
    (hq : @decode codec (notificationWire flags) = .ok (notification cd)) :
    @Produces codec resolver 4 "main" (notificationWire flags) (.v4 0) udp []
      (some (refusal (notification cd))) :=
  (@produces_notImp codec _ _ _ _ _ _ hq rfl udp nofun [] _).2 ⟨rfl, rfl⟩

/-- Without the flag the HTTPS listener sends what the datagram listener sends. -/
theorem produces_same_notification :
    @Produces codec resolver 4 "main" (notificationWire 0) (.v4 0) doh []
      (some (refusal (notification false))) :=
  ((@produces_same_iff codec payloadFloor resolver 4 "main" (notificationWire 0)
    (notification false) (by decide +kernel) (.v4 0)).2 fun _ => .inr rfl).1 rfl udp doh _ _
      (udp_refuses false 0 (by decide +kernel))

/-- With the flag they differ: the refusal sent over HTTPS has it, the datagram does not. -/
theorem produces_differ : ¬ ∀ (reg : Registry) (depth : ℕ) (entry : Tag) (buf : Bytes) (q : Message),
    @decode codec buf = .ok q → ∀ peer, q.messageType = .Query → ∀ l l' outside message,
      @Produces codec reg depth entry buf peer l outside message →
      @Produces codec reg depth entry buf peer l' outside message := by
  intro h
  have hq : @decode codec (notificationWire 16) = .ok (notification true) := by decide +kernel
  have hdoh := h resolver 4 "main" _ _ hq (.v4 0) rfl udp doh _ _ (udp_refuses true 16 hq)
  have hsame := ((@produces_notImp_doh codec _ _ _ _ _ _ hq rfl _ _).1 hdoh).2
  exact absurd (congrArg (Option.map Message.checkingDisabled) hsame) (by decide +kernel)

end Sample

end Listener

end FerrumDns
