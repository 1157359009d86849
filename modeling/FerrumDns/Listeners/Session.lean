import FerrumDns.Reply.Identity
import FerrumDns.Upstream.Exchange

/-! A TCP or DoT connection. Its messages are handled one after the other as they come
off the stream, however the octets arrive. What is sent is the replies in the order of
the messages, up to the first message that ends the connection. The framing is the one
that is used towards upstream servers, where what is written is read back. -/

namespace FerrumDns

open Prog Dnsutil

namespace Server

/-- A connection on which no timer fires: the runtime as each message finds it, what becomes of each
write, and how the stream ends if not by being closed. -/
structure Connection where
  live : ℕ → Registry
  depth : ℕ
  write : ℕ → Except Error Unit
  fault : Option String
  entry : Tag
  peer : Option IpAddr
  proto : ClientProto

namespace Connection

/-- The result of a connection that has no further frame. -/
def stopped (c : Connection) : Frames.Next → Except Error Unit
  | .eof => (c.fault.map fun e => Except.error (.io e)).getD (.ok ())
  | .empty => .error (.protocol "bad length")
  | .cut => .error (.io (c.fault.getD "early eof"))
  | .frame _ _ => .ok ()

/-- The result of a connection with this behind its last frame. -/
def ending (c : Connection) (tail : Bytes) : Except Error Unit :=
  ((Frames.stop tail).map c.stopped).getD (.ok ())

variable [Crates]

/-- What is done with one message. -/
def task (c : Connection) (i : ℕ) (body : Bytes) : Run (Except Error (Option Message)) :=
  framedTask (c.live i) c.depth c.entry body c.peer c.proto

/-- The frames sent for a message, none without a response. -/
def writeTcpResponse (c : Connection) (i : ℕ) : Option Message → Except Error (List Bytes)
  | none => .ok []
  | some resp =>
    match frame resp with
    | .error e => .error e
    | .ok bytes => (c.write i).map fun _ => [bytes]

/-- The frames sent from the `i`th message on, and how the connection ends. -/
def serveFramed (c : Connection) (i : ℕ) (chunks : List Bytes) :
    Run (List Bytes × Except Error Unit) :=
  match _h : Frames.next chunks with
  | .frame body rest => (c.task i body).bind fun answer =>
    match answer with
    | .error e => done ([], .error e)
    | .ok response =>
      match c.writeTcpResponse i response with
      | .error e => done ([], .error e)
      | .ok sent => (c.serveFramed (i + 1) rest).bind fun r => done (sent ++ r.1, r.2)
  | stop => done ([], c.stopped stop)
termination_by chunks.flatten.length
decreasing_by exact Frames.length_of_next _h

theorem serveFramed_frame {c : Connection} {i : ℕ} {chunks rest : List Bytes} {body : Bytes}
    (h : Frames.next chunks = .frame body rest) :
    c.serveFramed i chunks = (c.task i body).bind fun answer =>
      match answer with
      | .error e => done ([], .error e)
      | .ok response =>
        match c.writeTcpResponse i response with
        | .error e => done ([], .error e)
        | .ok sent => (c.serveFramed (i + 1) rest).bind fun r => done (sent ++ r.1, r.2) := by
  rw [serveFramed]
  split
  next body' rest' h' =>
    cases h.symm.trans h'
    rfl
  next hne => exact absurd h (hne body rest)

theorem serveFramed_stop {c : Connection} {i : ℕ} {chunks : List Bytes}
    (h : (Frames.stop chunks.flatten).isSome) :
    c.serveFramed i chunks = done ([], c.ending chunks.flatten) := by
  obtain ⟨x, hx⟩ := Option.isSome_iff_exists.1 h
  have hnext := Frames.next_stop hx
  rw [ending, hx, ← hnext, serveFramed]
  split
  next body rest h' =>
    rw [h'] at hnext
    exact absurd hx (hnext ▸ Frames.stop_ne_frame)
  next => rfl

/-- The messages from the `i`th on are answered in order with these frames: all of them, or up to
one that ends the connection, because it has no reply or because its reply cannot be sent. -/
inductive Served (c : Connection) :
    ℕ → List Bytes → Trace → List Bytes → Option Error → Prop
  | finished (i : ℕ) : Served c i [] [] [] none
  | next {i : ℕ} {body : Bytes} {bodies frames sent : List Bytes} {tr tr' : Trace}
      {response : Option Message} {stop : Option Error}
      (h : Ends (c.task i body) tr (.ok response)) (hw : c.writeTcpResponse i response = .ok frames)
      (hn : Served c (i + 1) bodies tr' sent stop) :
      Served c i (body :: bodies) (tr ++ tr') (frames ++ sent) stop
  | refused {i : ℕ} {body : Bytes} {bodies : List Bytes} {tr : Trace} {e : Error}
      (h : Ends (c.task i body) tr (.error e)) : Served c i (body :: bodies) tr [] (some e)
  | unsent {i : ℕ} {body : Bytes} {bodies : List Bytes} {tr : Trace} {response : Option Message}
      {e : Error} (h : Ends (c.task i body) tr (.ok response))
      (hw : c.writeTcpResponse i response = .error e) :
      Served c i (body :: bodies) tr [] (some e)

/-- How a connection ends after its messages were served. -/
def result (c : Connection) (tail : Bytes) : Option Error → Except Error Unit
  | some e => .error e
  | none => c.ending tail

/-- A connection serves the messages of its stream, whatever the chunks, and then ends. -/
theorem serveFramed_ends {c : Connection} {bodies chunks sent : List Bytes} {tail : Bytes} {i : ℕ}
    {tr : Trace} {res : Except Error Unit} (hs : Frames.Splits chunks.flatten bodies tail) :
    Ends (c.serveFramed i chunks) tr (sent, res) ↔
      ∃ stop, Served c i bodies tr sent stop ∧ res = c.result tail stop := by
  induction bodies generalizing i chunks tr sent res with
  | nil =>
    have hall : chunks.flatten = tail := hs.eq
    rw [serveFramed_stop (hall ▸ hs.stuck), hall]
    constructor
    · intro h
      obtain ⟨rfl, hr⟩ := ends_done h
      cases hr
      exact ⟨none, .finished i, rfl⟩
    · rintro ⟨stop, hserved, rfl⟩
      cases hserved
      exact .refl _
  | cons body bodies ih =>
    obtain ⟨after, hfits, heq, hafter⟩ := hs.cons_inv
    obtain ⟨rest, hnext, hrest⟩ := Frames.next_framed hfits heq
    have hs' : Frames.Splits rest.flatten bodies tail := hrest ▸ hafter
    rw [serveFramed_frame hnext]
    constructor
    · intro h
      obtain ⟨tr₁, tr₂, answer, rfl, htask, hend⟩ := ends_bind h
      cases answer with
      | error e =>
        obtain ⟨rfl, hr⟩ := ends_done hend
        cases hr
        rw [List.append_nil]
        exact ⟨some e, .refused htask, rfl⟩
      | ok response =>
        cases hw : c.writeTcpResponse i response with
        | error e =>
          simp only [hw] at hend
          obtain ⟨rfl, hr⟩ := ends_done hend
          cases hr
          rw [List.append_nil]
          exact ⟨some e, .unsent htask hw, rfl⟩
        | ok frames =>
          simp only [hw] at hend
          obtain ⟨tr₃, tr₄, r, rfl, hserve, hdone⟩ := ends_bind hend
          obtain ⟨rfl, hr⟩ := ends_done hdone
          cases hr
          rw [List.append_nil]
          obtain ⟨stop, hserved, hres⟩ := (ih hs').1 hserve
          exact ⟨stop, .next htask hw hserved, hres⟩
    · rintro ⟨stop, hserved, rfl⟩
      cases hserved with
      | @next _ _ _ frames sent tr tr' response _ htask hw hn =>
        have hserve := (ih hs').2 ⟨stop, hn, rfl⟩
        refine htask.bind ?_
        simp only [hw]
        rw [← List.append_nil tr']
        exact hserve.bind (.refl _)
      | refused htask =>
        rw [← List.append_nil tr]
        exact htask.bind (.refl _)
      | unsent htask hw =>
        rw [← List.append_nil tr]
        refine htask.bind ?_
        simp only [hw]
        exact .refl _

/-! ### One message -/

/-- A response is skipped. -/
theorem task_drop {c : Connection} {i : ℕ} {body : Bytes} {q : Message} (hq : decode body = .ok q)
    (hr : q.messageType = .Response) : c.task i body = done (.ok none) := by
  have hdrop : classifyIncoming q = .Drop := by simp [classifyIncoming, hr]
  simp only [task, framedTask, hq, hdrop]

theorem task_undecodable {c : Connection} {i : ℕ} {body : Bytes} {e : Error}
    (h : decode body = .error e) : c.task i body = done (.error e) := by
  simp only [task, framedTask, h]

omit [Crates] in
theorem belongs_finalized {ctx : QueryContext} {resp : Message}
    (h : (finalized ctx).response = some resp) :
    resp.messageType = .Response ∧ resp.id = ctx.original.id ∧
      resp.opCode = ctx.original.opCode ∧ resp.queries = ctx.original.queries := by
  have hbound (r : Message) (aliases : List (Name × Name)) :
      (QueryContext.bindResponse r ctx.original aliases).messageType = .Response ∧
        (QueryContext.bindResponse r ctx.original aliases).id = ctx.original.id ∧
        (QueryContext.bindResponse r ctx.original aliases).opCode = ctx.original.opCode ∧
        (QueryContext.bindResponse r ctx.original aliases).queries = ctx.original.queries := by
    simp only [QueryContext.bindResponse]
    split_ifs
    · exact ⟨rfl, rfl, rfl, rfl⟩
    · exact ⟨rfl, rfl, rfl, rfl⟩
  simp only [finalized] at h
  split_ifs at h
  · simp only [QueryContext.finalizeResponse, QueryContext.responseForQuery, Option.map_map,
      Option.map_eq_some_iff] at h
    obtain ⟨r, -, rfl⟩ := h
    exact hbound r _
  · obtain ⟨r, -, rfl⟩ := Option.map_eq_some_iff.1 h
    exact hbound r _

/-- A reply belongs to its message. -/
theorem task_answers {c : Connection} {i : ℕ} {body : Bytes} {tr : Trace} {resp : Message}
    (h : Ends (c.task i body) tr (.ok (some resp))) : ∃ q, decode body = .ok q ∧
      resp.messageType = .Response ∧ resp.id = q.id ∧ resp.opCode = q.opCode ∧
        resp.queries = q.queries := by
  rw [task, framedTask] at h
  cases hq : decode body with
  | error e =>
    rw [hq] at h
    cases (ends_done h).2
  | ok q =>
    refine ⟨q, rfl, ?_⟩
    simp only [hq] at h
    cases hc : classifyIncoming q with
    | Drop =>
      rw [hc] at h
      cases (ends_done h).2
    | NotImp =>
      rw [hc] at h
      cases (ends_done h).2
      exact ⟨rfl, rfl, rfl, rfl⟩
    | Ok =>
      rw [hc] at h
      obtain ⟨tr₁, tr₂, o, rfl, hhandle, hdone⟩ := ends_bind h
      obtain ⟨ctx, r⟩ := o
      cases r with
      | error e => cases (ends_done hdone).2
      | ok u =>
        have hresp : ctx.response = some resp := Except.ok.inj (ends_done hdone).2
        have hnot : classifyIncoming q ≠ .Drop := by simp [hc]
        obtain ⟨ctx', hkept, rfl⟩ := (Received.kept q).reply rfl rfl hhandle
          (fun _ _ => trivial) hnot
        have hbelongs := belongs_finalized hresp
        rwa [hkept] at hbelongs

/-- What is written for a response is its encoding behind its length, which fits in two octets. -/
theorem writeTcpResponse_ok {c : Connection} {i : ℕ} {response : Option Message}
    {frames : List Bytes} (h : c.writeTcpResponse i response = .ok frames) :
    (response = none ∧ frames = []) ∨ ∃ resp wire, response = some resp ∧ encode resp = .ok wire ∧
      wire.length ≤ 65535 ∧ frames = [Frames.lengthOctets wire.length ++ wire] := by
  cases response with
  | none => exact .inl ⟨rfl, (Except.ok.inj h).symm⟩
  | some resp =>
    refine .inr ⟨resp, ?_⟩
    rw [writeTcpResponse, frame] at h
    cases hencode : encode resp with
    | error e =>
      rw [hencode] at h
      cases h
    | ok wire =>
      simp only [hencode] at h
      split_ifs at h with hlong
      cases hw : c.write i with
      | error e =>
        rw [hw] at h
        cases h
      | ok u =>
        rw [hw] at h
        cases h
        exact ⟨wire, rfl, rfl, not_lt.1 hlong, rfl⟩

/-- A reply that is too long is refused. -/
theorem writeTcpResponse_long {c : Connection} {i : ℕ} {resp : Message} {wire : Bytes}
    (h : encode resp = .ok wire) (hlong : 65535 < wire.length) :
    c.writeTcpResponse i (some resp) = .error (.protocol "tcp payload too large") := by
  simp only [writeTcpResponse, frame, h, if_pos hlong]

end Connection

end Server

/-! ### The same framing upstream -/

namespace Upstream

/-- The octets written, one write after the other. -/
def written : NetTrace → Bytes
  | [] => []
  | ⟨.write _ bytes, _⟩ :: tr => bytes ++ written tr
  | _ :: tr => written tr

/-- The octets read, if no read failed. -/
def received : NetTrace → Option Bytes
  | [] => some []
  | ⟨.read _ _, .ok bytes⟩ :: tr => (received tr).map (bytes.val ++ ·)
  | _ => none

variable [Crates]

/-- A message that was sent went out behind its length. -/
theorem written_writeFramed {s : StreamId} {q : Message} {tr : NetTrace}
    (h : Ends (writeFramed s q) tr (.ok ())) : ∃ wire, encode q = .ok wire ∧
      wire.length ≤ 65535 ∧ written tr = Frames.lengthOctets wire.length ++ wire := by
  rw [writeFramed] at h
  cases hencode : encode q with
  | error e =>
    rw [hencode] at h
    cases (ends_done h).2
  | ok wire =>
    simp only [hencode] at h
    split_ifs at h with hlong
    · cases (ends_done h).2
    · obtain ⟨tr₁, _, _, rfl, hlength, h⟩ := Talk.andThen_ok h
      obtain ⟨tr₂, tr₃, _, rfl, hbody, hflush⟩ := Talk.andThen_ok h
      refine ⟨wire, rfl, not_lt.1 hlong, ?_⟩
      rw [Talk.ends_awaited hlength, Talk.ends_awaited hbody, Talk.ends_awaited hflush]
      simp [written]

/-- A reader of what was written gets the message and leaves what is behind it. -/
theorem readFramed_written (hrt : Crates.RoundTrip) {s : StreamId} {q : Message} {tr : NetTrace}
    {r : Except Error Message} {wire bytes rest more : Bytes} (hencode : encode q = .ok wire)
    (hpos : 0 < wire.length) (hlong : wire.length ≤ 65535) (h : Ends (readFramed s) tr r)
    (hreceived : received tr = some bytes)
    (heq : bytes ++ rest = Frames.lengthOctets wire.length ++ wire ++ more) :
    r = .ok q ∧ rest = more := by
  rcases Talk.ends_andThen h with ⟨e, -, hfail⟩ | ⟨tr₁, tr₂, header, rfl, hread, hbody⟩
  · rw [Talk.ends_awaited hfail] at hreceived
    cases hreceived
  · rw [Talk.ends_awaited hread] at hreceived
    obtain ⟨bytes₂, hreceived₂, rfl⟩ := Option.map_eq_some_iff.1 hreceived
    have hsize : header.val.length = (Frames.lengthOctets wire.length).length := header.property
    rw [List.append_assoc, List.append_assoc] at heq
    obtain ⟨hheader, heq₂⟩ := List.append_inj heq hsize
    have hlen : Frames.fromOctets header.val = wire.length := by
      rw [hheader]
      exact Frames.fromOctets_lengthOctets (by omega)
    dsimp only at hbody
    rw [if_neg (by omega)] at hbody
    rcases Talk.ends_andThen hbody with ⟨e, -, hfail⟩ | ⟨tr₃, tr₄, buf, rfl, hread₂, hdone⟩
    · rw [Talk.ends_awaited hfail] at hreceived₂
      cases hreceived₂
    · obtain ⟨rfl, rfl⟩ := ends_done hdone
      rw [Talk.ends_awaited hread₂] at hreceived₂
      cases hreceived₂
      dsimp only at heq₂
      rw [List.append_nil] at heq₂
      obtain ⟨hbuf, hrest⟩ := List.append_inj heq₂ (buf.property.trans hlen)
      rw [hbuf]
      exact ⟨decode_of_encode hrt hencode, hrest⟩

end Upstream

/-- Every message has a header, so no encoding is empty. -/
def Crates.Headed [Crates] : Prop := ∀ m b, Crates.toVec m = .ok b → 12 ≤ b.length

namespace Server

namespace Connection

open Upstream

/-- A connection splits into frames and a tail in one way, and serves the messages in order, however
the octets arrive: a response gets no frame, an undecodable message ends the connection, and a frame
that is sent holds a reply of its message behind the right length. A message that is written with the
same framing is read back. -/
theorem session [Crates] (hrt : Crates.RoundTrip) (hheaded : Crates.Headed) (c : Connection) :
    (∀ stream, ∃ bodies tail, Frames.Splits stream bodies tail ∧
      ∀ bodies' tail', Frames.Splits stream bodies' tail' → bodies' = bodies ∧ tail' = tail) ∧
    (∀ chunks bodies tail, Frames.Splits chunks.flatten bodies tail → ∀ tr sent res,
      (Ends (c.serveFramed 0 chunks) tr (sent, res) ↔
        ∃ stop, Served c 0 bodies tr sent stop ∧ res = c.result tail stop)) ∧
    (∀ i body q, decode body = .ok q → q.messageType = .Response →
      c.task i body = done (.ok none)) ∧
    (∀ i, c.writeTcpResponse i none = .ok []) ∧
    (∀ i body e, decode body = .error e → c.task i body = done (.error e)) ∧
    (∀ i body tr resp frames, Ends (c.task i body) tr (.ok (some resp)) →
      c.writeTcpResponse i (some resp) = .ok frames → ∃ q wire, decode body = .ok q ∧
        resp.messageType = .Response ∧ resp.id = q.id ∧ resp.opCode = q.opCode ∧
        resp.queries = q.queries ∧ frames = [Frames.lengthOctets wire.length ++ wire] ∧
        Frames.fromOctets (Frames.lengthOctets wire.length) = wire.length ∧ decode wire = .ok resp) ∧
    (∀ i resp wire, encode resp = .ok wire → 65535 < wire.length →
      c.writeTcpResponse i (some resp) = .error (.protocol "tcp payload too large")) ∧
    ∀ s s' q tr tr' r bytes rest more, Ends (writeFramed s q) tr (.ok ()) →
      Ends (readFramed s') tr' r → received tr' = some bytes → bytes ++ rest = written tr ++ more →
      r = .ok q ∧ rest = more := by
  refine ⟨fun stream => ?_, fun chunks bodies tail hs tr sent res => serveFramed_ends hs,
    fun i body q => task_drop, fun _ => rfl, fun i body e => task_undecodable, ?_,
    fun i resp wire => writeTcpResponse_long, ?_⟩
  · obtain ⟨bodies, tail, hs⟩ := Frames.exists_splits stream
    exact ⟨bodies, tail, hs, fun bodies' tail' hs' => hs'.unique hs⟩
  · intro i body tr resp frames h hw
    obtain ⟨q, hq, htype, hid, hop, hqueries⟩ := task_answers h
    rcases writeTcpResponse_ok hw with ⟨hnone, -⟩ | ⟨resp', wire, hresp, hencode, hlong, rfl⟩
    · cases hnone
    · cases hresp
      exact ⟨q, wire, hq, htype, hid, hop, hqueries, rfl, Frames.fromOctets_lengthOctets (by omega),
        decode_of_encode hrt hencode⟩
  · intro s s' q tr tr' r bytes rest more hwrite hread hreceived heq
    obtain ⟨wire, hencode, hlong, hwritten⟩ := written_writeFramed hwrite
    have hpos : 12 ≤ wire.length := hheaded q wire (encode_eq_ok.1 hencode)
    rw [hwritten] at heq
    exact readFramed_written hrt hencode (by omega) hlong hread hreceived heq

/-! ### A query in three pieces -/

section Sample

open Sample

/-- Everything is refused. -/
def refusing : Connection where
  live _ := registry [("main", .blackhole ⟨.Refused⟩)] rfl
  depth := 2
  write _ := .ok ()
  fault := none
  entry := "main"
  peer := none
  proto := .Tcp

def refused : Message := replySkeleton query .Refused

def refusedWire : Bytes :=
  [0, 1, 129, 133, 0, 1, 0, 0, 0, 0, 0, 0, 1, 97, 4, 116, 101, 115, 116, 0, 0, 1, 0, 1]

@[reducible] def codec : Crates := crates [(query, queryWire), (refused, refusedWire)]

theorem headed : @Crates.Headed codec := by
  intro m b h
  have hmem := mem_of_toVec h
  simp only [List.mem_cons, List.not_mem_nil, Prod.mk.injEq, or_false] at hmem
  rcases hmem with ⟨-, rfl⟩ | ⟨-, rfl⟩
  · decide
  · decide

/-- The query is answered, and the empty frame behind it ends the connection. -/
theorem session_refused : ∃ tr : Trace,
    Ends (@serveFramed codec refusing 0 [[0], 24 :: queryWire.take 7, queryWire.drop 7 ++ [0, 0, 7]])
      tr ([0 :: 24 :: refusedWire], .error (.protocol "bad length")) := by
  have hplay : ((@task codec refusing 0 queryWire).play
      (@Resolver.oracle codec resolver 2 fun _ _ => none) false world).map
        (fun x => x.2.1.toOption) = some (some (some refused)) := by decide +kernel
  obtain ⟨⟨tr, answer, w, new⟩, hp, hanswer⟩ := Option.map_eq_some_iff.1 hplay
  have hsplits : Frames.Splits
      [[0], 24 :: queryWire.take 7, queryWire.drop 7 ++ [0, 0, 7]].flatten [queryWire] [0, 0, 7] :=
    ⟨by decide, fun b hb => List.mem_singleton.1 hb ▸ ⟨by decide, by decide⟩, by decide⟩
  cases answer with
  | error e => cases hanswer
  | ok response =>
    obtain rfl : response = some refused := Option.some.inj hanswer
    have hwrite : @writeTcpResponse codec refusing 0 (some refused) = .ok [0 :: 24 :: refusedWire] := by
      decide +kernel
    have hserved := @Served.next codec refusing _ _ _ _ _ _ _ _ _ (play_ends hp) hwrite
      (@Served.finished codec refusing 1)
    have hsession := @session codec (roundTrip (by decide)) headed refusing
    exact ⟨_, (hsession.2.1 _ _ _ hsplits _ _ _).2 ⟨none, hserved, rfl⟩⟩

end Sample

end Connection

end Server

end FerrumDns
