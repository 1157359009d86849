import FerrumDns.Fallible
import FerrumDns.Listeners.Agree
import FerrumDns.Listeners.Session
import FerrumDns.Reply.Datagram
import FerrumDns.Upstream.Validate

/-! Two resolvers in a chain, one the upstream server of the other. What a listener
replies passes the check of the exchange that asked, on every transport: over one
stream any number of exchanges get their own replies, a datagram that had to be cut
leads to the retry over a stream, and an HTTPS body is taken as it is. A reply that
goes astray and arrives at a listener is passed over without any action, so chained
resolvers do not answer each other's answers. -/

namespace FerrumDns

open Prog Dnsutil

namespace Chained

open Talk Upstream Server Connection

/-- The reply has the type, id, opcode and questions that a client checks. -/
theorem accepts_of_belongs {q resp : Message} (htype : resp.messageType = .Response)
    (hid : resp.id = q.id) (hop : resp.opCode = q.opCode) (hq : resp.queries = q.queries) :
    Accepts q resp := by
  refine ⟨htype, hid, hop, ?_⟩
  rw [hq]
  exact List.forall₂_same.2 fun x _ => ⟨Name.Same.refl _, rfl, rfl⟩

theorem andThen_ends {α β : Type} {p : Talk (Except Error α)} {f : α → Talk (Except Error β)}
    {tr tr' : NetTrace} {a : α} {r : Except Error β} (h : Ends p tr (.ok a))
    (h' : Ends (f a) tr' r) : Ends (andThen p f) (tr ++ tr') r :=
  Ends.bind h h'

theorem awaited_ends (e : Net) (r : e.Answer) : Ends (awaited e) [⟨e, r⟩] r :=
  .await (.act r (.refl _))

theorem framed_inj {b b' : Bytes} (h : Frames.framed b = Frames.framed b') : b = b' := by
  unfold Frames.framed at h
  exact (List.append_inj h rfl).2

variable [Crates]

/-! ### Streams -/

/-- One exchange over a stream with a listener. The listener gets what the client writes, as its
`i`th message; the client reads from what was sent. The octets under way before and after are
`buf` and `buf'`. -/
inductive Round (c : Connection) (s : StreamId) (i : ℕ) (q : Message) (answer : Option Message) :
    NetTrace → Bytes → Bytes → Prop
  | mk {sent read : NetTrace} {body bytes buf buf' : Bytes} {tr : Trace} {frames : List Bytes}
      {r : Except Error Message} (hsent : Ends (writeFramed s q) sent (.ok ()))
      (hbody : written sent = Frames.framed body) (hserved : Ends (c.task i body) tr (.ok answer))
      (hframes : c.writeTcpResponse i answer = .ok frames) (hread : Ends (readFramed s) read r)
      (hbytes : received read = some bytes) (hbuf : bytes ++ buf' = buf ++ frames.flatten) :
      Round c s i q answer (sent ++ read) buf buf'

/-- Writes that succeed. -/
theorem writeFramed_ends {q : Message} {wire : Bytes} (s : StreamId) (h : encode q = .ok wire)
    (hlen : wire.length ≤ 65535) :
    Ends (writeFramed s q) ([⟨.write s (Frames.lengthOctets wire.length), .ok ()⟩] ++
      ([⟨.write s wire, .ok ()⟩] ++ [⟨.flush s, .ok ()⟩])) (.ok ()) := by
  simp only [writeFramed, h, if_neg (not_lt.2 hlen)]
  exact andThen_ends (awaited_ends _ _) (andThen_ends (awaited_ends _ _) (awaited_ends _ _))

/-- Reads that succeed. -/
theorem readFramed_ends {b : Bytes} (s : StreamId) (hpos : 0 < b.length) (hlen : b.length ≤ 65535) :
    ∃ tr, Ends (readFramed s) tr (decode b) ∧
      received tr = some (Frames.lengthOctets b.length ++ b) := by
  have hsize : Frames.fromOctets (Frames.lengthOctets b.length) = b.length :=
    Frames.fromOctets_lengthOctets (by omega)
  have hbody : Ends (if Frames.fromOctets (Frames.lengthOctets b.length) = 0 ∨
      65535 < Frames.fromOctets (Frames.lengthOctets b.length) then
        done (.error (.protocol "bad tcp length"))
      else andThen (awaited (.read s (Frames.fromOctets (Frames.lengthOctets b.length))))
        fun buf => done (decode buf.val))
      ([⟨.read s _, .ok ⟨b, hsize.symm⟩⟩] ++ []) (decode b) := by
    rw [if_neg (by omega)]
    exact andThen_ends (awaited_ends _ _) (.refl _)
  have hheader : Ends (awaited (.read s 2)) [⟨.read s 2, .ok ⟨Frames.lengthOctets b.length, rfl⟩⟩]
      (.ok ⟨Frames.lengthOctets b.length, rfl⟩) := awaited_ends _ _
  exact ⟨_, andThen_ends hheader hbody, by simp [received]⟩

/-- Reading a message takes two octets at least. -/
theorem two_le_received {s : StreamId} {tr : NetTrace} {r : Except Error Message} {bytes : Bytes}
    (h : Ends (readFramed s) tr r) (hr : received tr = some bytes) : 2 ≤ bytes.length := by
  rcases ends_andThen h with ⟨e, -, hfail⟩ | ⟨tr₁, tr₂, header, rfl, hread, -⟩
  · rw [ends_awaited hfail] at hr
    cases hr
  · rw [ends_awaited hread] at hr
    obtain ⟨rest, -, rfl⟩ := Option.map_eq_some_iff.1 hr
    have hlen := header.property
    rw [List.length_append]
    omega

/-- The client gets the reply to its own query, and nothing is left under way. -/
theorem Round.replies (hrt : Crates.RoundTrip) (hheaded : Crates.Headed) {c : Connection}
    {s : StreamId} {i : ℕ} {q : Message} {answer : Option Message} {tr : NetTrace} {buf' : Bytes}
    (h : Round c s i q answer tr [] buf') :
    buf' = [] ∧ ∃ resp, answer = some resp ∧ Ends (framedExchange s q) tr (.ok resp) := by
  obtain ⟨hsent, hbody, hserved, hframes, hread, hbytes, hbuf⟩ := h
  obtain ⟨wire, hencode, hlong, hwritten⟩ := written_writeFramed hsent
  obtain rfl := framed_inj (hwritten.symm.trans hbody)
  rw [List.nil_append] at hbuf
  rcases writeTcpResponse_ok hframes with ⟨rfl, rfl⟩ | ⟨resp, out, rfl, hout, hshort, rfl⟩
  · have htwo := two_le_received hread hbytes
    obtain ⟨rfl, -⟩ := List.append_eq_nil_iff.1 hbuf
    cases htwo
  · obtain ⟨q', hq', htype, hid, hop, hqueries⟩ := task_answers hserved
    obtain rfl : q' = q := Except.ok.inj (hq'.symm.trans (decode_of_encode hrt hencode))
    have hpos := hheaded resp out (encode_eq_ok.1 hout)
    have heq : _ ++ buf' = Frames.lengthOctets out.length ++ out ++ [] :=
      hbuf.trans (by simp)
    obtain ⟨rfl, rfl⟩ := readFramed_written hrt hout (by omega) hshort hread hbytes heq
    have htake : takeResponse q' resp = .ok resp :=
      takeResponse_eq_ok.2 ⟨rfl, accepts_of_belongs htype hid hop hqueries⟩
    have hcheck : Ends (done (takeResponse q' resp) : Talk (Except Error Message)) [] (.ok resp) := by
      rw [htake]
      exact .refl _
    have hread' := andThen_ends (f := fun m => done (takeResponse q' m)) hread hcheck
    rw [List.append_nil] at hread'
    exact ⟨rfl, resp, rfl, andThen_ends hsent hread'⟩

/-- Exchanges over one stream, one after the other, from the listener's `i`th message on. -/
inductive Rounds (c : Connection) (s : StreamId) :
    ℕ → List (Message × Option Message × NetTrace) → Bytes → Bytes → Prop
  | nil (i : ℕ) (buf : Bytes) : Rounds c s i [] buf buf
  | cons {i : ℕ} {q : Message} {answer : Option Message} {tr : NetTrace}
      {rest : List (Message × Option Message × NetTrace)} {buf mid buf' : Bytes}
      (h : Round c s i q answer tr buf mid) (hrest : Rounds c s (i + 1) rest mid buf') :
      Rounds c s i ((q, answer, tr) :: rest) buf buf'

/-- However many exchanges follow one another on a stream, each gets the reply to its own query. -/
theorem rounds_reply (hrt : Crates.RoundTrip) (hheaded : Crates.Headed) {c : Connection}
    {s : StreamId} {i : ℕ} {l : List (Message × Option Message × NetTrace)} {buf' : Bytes}
    (h : Rounds c s i l [] buf') : buf' = [] ∧ ∀ x ∈ l, ∃ resp, x.2.1 = some resp ∧
      Ends (framedExchange s x.1) x.2.2 (.ok resp) := by
  generalize hbuf : ([] : Bytes) = buf at h
  induction h with
  | nil i buf => exact ⟨rfl, by simp⟩
  | cons hround _ ih =>
    subst hbuf
    obtain ⟨rfl, hresp⟩ := hround.replies hrt hheaded
    obtain ⟨hempty, hrest⟩ := ih rfl
    refine ⟨hempty, fun x hx => ?_⟩
    rcases List.mem_cons.1 hx with rfl | hx
    · exact hresp
    · exact hrest x hx

omit [Crates] in
theorem written_append (tr tr' : NetTrace) : written (tr ++ tr') = written tr ++ written tr' := by
  induction tr with
  | nil => rfl
  | cons ev tr ih =>
    obtain ⟨e, r⟩ := ev
    cases e with
    | write s bytes => simp [written, ih]
    | _ => exact ih

theorem written_readFramed {s : StreamId} {tr : NetTrace} {r : Except Error Message}
    (h : Ends (readFramed s) tr r) : written tr = [] := by
  rcases ends_andThen h with ⟨e, -, hfail⟩ | ⟨tr₁, tr₂, header, rfl, hread, hbody⟩
  · rw [ends_awaited hfail]
    rfl
  · rw [ends_awaited hread]
    dsimp only at hbody
    split_ifs at hbody
    · obtain ⟨rfl, -⟩ := ends_done hbody
      rfl
    · rcases ends_andThen hbody with ⟨e, -, hfail⟩ | ⟨tr₃, tr₄, buf, rfl, hread', hdone⟩
      · rw [ends_awaited hfail]
        rfl
      · obtain ⟨rfl, -⟩ := ends_done hdone
        rw [ends_awaited hread']
        rfl

/-- All that the client wrote is one stream of messages, and the listener serves it to its end. -/
theorem rounds_served (hheaded : Crates.Headed) {c : Connection} {s : StreamId} {i : ℕ}
    {l : List (Message × Option Message × NetTrace)} {buf buf' : Bytes}
    (h : Rounds c s i l buf buf') : ∃ bodies tr sent, Served c i bodies tr sent none ∧
      Frames.Splits (l.flatMap fun x => written x.2.2) bodies [] := by
  induction h with
  | nil i buf => exact ⟨[], [], [], .finished i, rfl, by simp, rfl⟩
  | cons hround _ ih =>
    obtain ⟨bodies, tr, sent, hserved, heq, hfits, hstuck⟩ := ih
    obtain ⟨hsent, hbody, htask, hframes, hread, -, -⟩ := hround
    obtain ⟨wire, hencode, hlong, hwritten⟩ := written_writeFramed hsent
    obtain rfl := framed_inj (hwritten.symm.trans hbody)
    have hpos := hheaded _ _ (encode_eq_ok.1 hencode)
    refine ⟨_ :: bodies, _, _, .next htask hframes hserved, ?_, ?_, hstuck⟩
    · rw [List.flatMap_cons, written_append, written_readFramed hread, hbody, heq]
      simp
    · intro body hmem
      rcases List.mem_cons.1 hmem with rfl | hmem
      · exact ⟨by omega, by omega⟩
      · exact hfits body hmem

/-- A client that sends queries over one stream to a listener, one after the other, gets the reply
to each; and all it wrote, in whatever chunks it arrives, is a connection that the listener serves
to its end. -/
theorem stream_answers (hrt : Crates.RoundTrip) (hheaded : Crates.Headed) {c : Connection}
    {s : StreamId} {l : List (Message × Option Message × NetTrace)} {buf' : Bytes}
    (h : Rounds c s 0 l [] buf') :
    buf' = [] ∧ (∀ x ∈ l, ∃ resp, x.2.1 = some resp ∧
      Ends (framedExchange s x.1) x.2.2 (.ok resp)) ∧
    ∀ chunks : List Bytes, chunks.flatten = (l.flatMap fun x => written x.2.2) →
      ∃ tr sent, Ends (c.serveFramed 0 chunks) tr (sent, c.ending []) := by
  obtain ⟨hempty, hreplies⟩ := rounds_reply hrt hheaded h
  obtain ⟨bodies, tr, sent, hserved, hsplits⟩ := rounds_served hheaded h
  refine ⟨hempty, hreplies, fun chunks hchunks => ⟨tr, sent, ?_⟩⟩
  exact (serveFramed_ends (hchunks ▸ hsplits)).2 ⟨none, hserved, rfl⟩

/-! ### Replies of any listener -/

section Replies

variable {reg : Registry} {depth : ℕ} {entry : Tag} {buf : Bytes} {peer : IpAddr} {q resp : Message}
  {l : Listener} {tr : Trace}

/-- A response is passed over without any action. -/
theorem task_passes (hq : decode buf = .ok q) (hr : q.messageType = .Response) :
    l.task reg depth entry buf peer = done none := by
  have hc : classifyIncoming q = .Drop := by simp [classifyIncoming, hr]
  cases l with
  | udp => simp only [Listener.task, udpTask, hq, hc]; rfl
  | stream proto => simp only [Listener.task, framedTask, hq, hc]; rfl
  | doh => simp only [Listener.task, dohTask, hq, handle, QueryContext.new, hc]; rfl

theorem task_undecoded {e : Error} (hq : decode buf = .error e) :
    l.task reg depth entry buf peer = done none := by
  cases l with
  | udp => simp only [Listener.task, udpTask, hq]; rfl
  | stream proto => simp only [Listener.task, framedTask, hq]; rfl
  | doh => simp only [Listener.task, dohTask, hq]; rfl

/-- Whatever a listener replies with is a response to the message it got. -/
theorem task_accepts (h : Ends (l.task reg depth entry buf peer) tr (some resp)) :
    ∃ q, decode buf = .ok q ∧ Accepts q resp := by
  cases hq : decode buf with
  | error e =>
    rw [task_undecoded hq] at h
    cases (ends_done h).2
  | ok q =>
    refine ⟨q, rfl, ?_⟩
    cases hc : classifyIncoming q with
    | Drop =>
      cases Listener.produces_drop hq hc ⟨tr, h, rfl⟩
    | NotImp =>
      have hrefusal : resp = Listener.refusal q ∨ resp = Listener.boundRefusal q := by
        by_cases hl : l = .doh
        · subst hl
          exact .inr (Option.some.inj ((Listener.produces_notImp_doh hq hc _ _).1 ⟨tr, h, rfl⟩).2)
        · exact .inl (Option.some.inj ((Listener.produces_notImp hq hc hl _ _).1 ⟨tr, h, rfl⟩).2)
      rcases hrefusal with rfl | rfl
      · exact accepts_of_belongs rfl rfl rfl rfl
      · exact accepts_of_belongs rfl rfl rfl rfl
    | Ok =>
      rw [Listener.task_ok hq hc] at h
      obtain ⟨tr₁, tr₂, ⟨ctx, r⟩, rfl, hhandle, hdone⟩ := ends_bind h
      have hreply := (ends_done hdone).2
      cases r with
      | error e => cases hreply
      | ok u =>
        have hnot : classifyIncoming q ≠ .Drop := by simp [hc]
        obtain ⟨ctx', hkept, rfl⟩ := (Received.kept q).reply rfl rfl hhandle
          (fun _ _ => trivial) hnot
        obtain ⟨htype, hid, hop, hqueries⟩ := belongs_finalized hreply
        rw [hkept] at hid hop hqueries
        exact accepts_of_belongs htype hid hop hqueries

/-- A reply of one listener, whole or cut to fit a datagram, that arrives at another one has no
effect and gets no answer. -/
theorem never_loops (hrt : Crates.RoundTrip)
    (h : Ends (l.task reg depth entry buf peer) tr (some resp)) {m : Message}
    (hm : m = resp ∨ m = resp.cut) {b : Bytes} (hb : encode m = .ok b) (reg' : Registry)
    (depth' : ℕ) (entry' : Tag) (peer' : IpAddr) (l' : Listener) :
    l'.task reg' depth' entry' b peer' = done none := by
  obtain ⟨q, -, haccepts⟩ := task_accepts h
  refine task_passes (decode_of_encode hrt hb) ?_
  rcases hm with rfl | rfl
  · exact haccepts.messageType
  · exact haccepts.messageType

end Replies

/-! ### Datagrams -/

section Datagrams

variable {reg : Registry} {depth : ℕ} {entry : Tag} {peer : IpAddr} {q : Message} {wire b : Bytes}
  {tr : Trace} {reply : UdpReply}

/-- The reply goes out whole, and says so. -/
def Whole (reply : UdpReply) : Prop :=
  ∃ w, encode reply.response = .ok w ∧ w.length ≤ reply.max ∧ reply.response.truncated = false

/-- A datagram holds a response to the query, the reply itself exactly if it is not marked as cut. -/
theorem datagram_accepts (hrt : Crates.RoundTrip) (ht : Crates.Truncates)
    (hencode : encode q = .ok wire)
    (h : Ends (udpTask reg depth entry wire peer) tr (some reply)) (hb : reply.datagram = .ok b) :
    ∃ m, decode b = .ok m ∧ Accepts q m ∧ (Whole reply → m = reply.response) ∧
      (m.truncated = false ↔ Whole reply) := by
  have htask : Ends (Listener.udp.task reg depth entry wire peer) (tr ++ []) (some reply.response) :=
    Ends.bind h (.refl _)
  obtain ⟨q', hq', haccepts⟩ := task_accepts htask
  obtain rfl := Except.ok.inj (hq'.symm.trans (decode_of_encode hrt hencode))
  rw [UdpReply.datagram] at hb
  cases hw : encode reply.response with
  | error e =>
    simp [encodeUdp, hw] at hb
  | ok w =>
    rcases le_or_gt w.length reply.max with hle | hlt
    · rw [Datagram.encodeUdp_of_le hw hle] at hb
      obtain rfl := Except.ok.inj hb
      refine ⟨reply.response, decode_of_encode hrt hw, haccepts, fun _ => rfl, ?_⟩
      constructor
      · intro htrunc
        exact ⟨w, hw, hle, htrunc⟩
      · rintro ⟨w', -, -, htrunc⟩
        exact htrunc
    · rw [Datagram.encodeUdp_of_lt hw hlt, ht] at hb
      have hpart : ¬ Whole reply := by
        rintro ⟨w', hw', hle, -⟩
        cases hw.symm.trans hw'
        omega
      refine ⟨reply.response.cut, decode_of_encode hrt hb, ?_, fun h => absurd h hpart, ?_⟩
      · exact ⟨haccepts.messageType, haccepts.id, haccepts.opCode, haccepts.queries⟩
      · exact ⟨fun h => (by cases h), fun h => absurd h hpart⟩

/-- The retry over a stream with a listener. -/
theorem retry_ends (hrt : Crates.RoundTrip) (hheaded : Crates.Headed) {c : Connection}
    {s : StreamId} {i : ℕ} {full : Message} {talk : NetTrace} {buf' : Bytes}
    (h : Round c s i q (some full) talk [] buf') (hfull : full.truncated = false)
    (dest : SocketAddr) :
    Ends (retryTcp dest q) ([⟨.connect dest, .ok s⟩, ⟨.nodelay s, .ok ()⟩] ++
      (talk ++ [⟨.drop s, ()⟩])) (.ok full) := by
  obtain ⟨-, resp, hresp, hends⟩ := h.replies hrt hheaded
  cases hresp
  have hopen : Ends (awaited (.connect dest)) [⟨.connect dest, .ok s⟩] (.ok s) :=
    awaited_ends _ _
  have hconnect : Ends (connectTcp dest) ([⟨.connect dest, .ok s⟩] ++ [⟨.nodelay s, .ok ()⟩])
      (.ok s) := by
    refine andThen_ends hopen ?_
    exact Leads.act (e := Net.nodelay s) (R := Net.Answer) (.ok ()) (.refl _)
  refine andThen_ends hconnect (Ends.bind hends ?_)
  refine Leads.act (e := Net.drop s) (R := Net.Answer) () ?_
  dsimp only
  rw [hfull]
  exact .refl _

/-- A datagram as it is received. -/
abbrev Packet := {datagram : Bytes // datagram.length ≤ 65535}

/-- The datagram holds no response to the query. -/
def Stray (q : Message) (d : Packet) : Prop := ∀ m, decode d.val = .ok m → ¬ Accepts q m

omit [Crates] in
/-- What is received, in order. -/
def arrivals (l : List Packet) : NetTrace := l.map fun d => ⟨.recv, .ok d⟩

/-- Stray datagrams are passed over. -/
theorem recvLoop_passes {dest : SocketAddr} {stray : List Packet}
    (hstray : ∀ d ∈ stray, Stray q d) {n : ℕ} {talk : NetTrace} {r : Except Error Message}
    (h : Ends (recvLoop dest q n) talk r) :
    Ends (recvLoop dest q (stray.length + n)) (arrivals stray ++ talk) r := by
  induction stray with
  | nil =>
    rw [List.length_nil, Nat.zero_add]
    exact h
  | cons d stray ih =>
    obtain ⟨hd, hrest⟩ := List.forall_mem_cons.1 hstray
    have hpassed := ih hrest
    have hrecv : Ends (awaited .recv) [⟨.recv, .ok d⟩] (.ok d) := awaited_ends _ _
    have hcons : arrivals (d :: stray) ++ talk = [⟨.recv, .ok d⟩] ++ (arrivals stray ++ talk) := rfl
    rw [hcons, List.length_cons, Nat.succ_add]
    refine andThen_ends hrecv ?_
    cases hdecode : decode d.val with
    | error e => exact hpassed
    | ok resp =>
      dsimp only
      cases htake : takeResponse q resp with
      | error e => exact hpassed
      | ok m => exact absurd (takeResponse_eq_ok.1 htake).2 (hd resp hdecode)

omit [Crates] in
/-- A socket is set up and the query is sent. -/
def asked (dest : SocketAddr) (wire : Bytes) : NetTrace :=
  [⟨.bind (!dest.ip.isIpv4), .ok ()⟩] ++ ([⟨.dial dest, .ok ()⟩] ++ [⟨.send wire, .ok ()⟩])

/-- Four datagrams are received at most. -/
theorem udpExchangeAddr_ends {dest : SocketAddr} {stray : List Packet}
    (hencode : encode q = .ok wire) (hfew : stray.length ≤ 3) (hstray : ∀ d ∈ stray, Stray q d)
    {talk : NetTrace} {r : Except Error Message}
    (h : ∀ n, Ends (recvLoop dest q (n + 1)) talk r) :
    Ends (udpExchangeAddr dest q) (asked dest wire ++ (arrivals stray ++ talk)) r := by
  have hloop := recvLoop_passes hstray (h (3 - stray.length))
  have hfour : stray.length + (3 - stray.length + 1) = 4 := by omega
  rw [hfour] at hloop
  simp only [asked, List.append_assoc]
  refine andThen_ends (awaited_ends _ _) (andThen_ends (awaited_ends _ _) ?_)
  simp only [hencode]
  exact andThen_ends (awaited_ends _ _) hloop

/-- The first datagram that is not stray ends the loop. -/
theorem recvLoop_answers (hrt : Crates.RoundTrip) (ht : Crates.Truncates) (hheaded : Crates.Headed)
    (hencode : encode q = .ok wire)
    (h : Ends (udpTask reg depth entry wire peer) tr (some reply)) (hb : reply.datagram = .ok b)
    (hlen : b.length ≤ 65535) (dest : SocketAddr) (n : ℕ) :
    (Whole reply → Ends (recvLoop dest q (n + 1)) [⟨.recv, .ok ⟨b, hlen⟩⟩] (.ok reply.response)) ∧
    (¬ Whole reply → ∀ c s i full talk buf', Round c s i q (some full) talk [] buf' →
      full.truncated = false → Ends (recvLoop dest q (n + 1)) (⟨.recv, .ok ⟨b, hlen⟩⟩ ::
        ([⟨.connect dest, .ok s⟩, ⟨.nodelay s, .ok ()⟩] ++ (talk ++ [⟨.drop s, ()⟩])))
        (.ok full)) := by
  obtain ⟨m, hm, haccepts, hresp, hwhole⟩ := datagram_accepts hrt ht hencode h hb
  have htake : takeResponse q m = .ok m := takeResponse_eq_ok.2 ⟨rfl, haccepts⟩
  have hrecv : Ends (awaited .recv) [⟨.recv, .ok ⟨b, hlen⟩⟩] (.ok ⟨b, hlen⟩) :=
    awaited_ends _ _
  constructor
  · intro hw
    refine andThen_ends hrecv ?_
    simp only [hm, htake, hwhole.2 hw, Bool.false_eq_true, if_false]
    rw [hresp hw]
    exact .refl _
  · intro hw c s i full talk buf' hround hfull
    have hcut : m.truncated = true := by
      rw [← Bool.not_eq_false, hwhole]
      exact hw
    refine andThen_ends hrecv ?_
    simp only [hm, htake, hcut, if_true]
    exact retry_ends hrt hheaded hround hfull dest

/-- A client that asks a listener over datagrams ends with the listener's reply, also if up to three
other datagrams come first: with the one in the datagram if that is whole, and otherwise with the
one it gets by asking again over a stream. -/
theorem datagram_answers (hrt : Crates.RoundTrip) (ht : Crates.Truncates) (hheaded : Crates.Headed)
    (hencode : encode q = .ok wire)
    (h : Ends (udpTask reg depth entry wire peer) tr (some reply)) (hb : reply.datagram = .ok b)
    (hlen : b.length ≤ 65535) (dest : SocketAddr) {stray : List Packet}
    (hfew : stray.length ≤ 3) (hstray : ∀ d ∈ stray, Stray q d) :
    (Whole reply → Ends (udpExchangeAddr dest q)
      (asked dest wire ++ (arrivals stray ++ [⟨.recv, .ok ⟨b, hlen⟩⟩])) (.ok reply.response)) ∧
    (¬ Whole reply → ∀ c s i full talk buf', Round c s i q (some full) talk [] buf' →
      full.truncated = false → Ends (udpExchangeAddr dest q)
        (asked dest wire ++ (arrivals stray ++ ⟨.recv, .ok ⟨b, hlen⟩⟩ ::
          ([⟨.connect dest, .ok s⟩, ⟨.nodelay s, .ok ()⟩] ++ (talk ++ [⟨.drop s, ()⟩]))))
        (.ok full)) := by
  have hloop := recvLoop_answers hrt ht hheaded hencode h hb hlen dest
  constructor
  · intro hw
    exact udpExchangeAddr_ends hencode hfew hstray fun n => (hloop n).1 hw
  · intro hw c s i full talk buf' hround hfull
    exact udpExchangeAddr_ends hencode hfew hstray fun n =>
      (hloop n).2 hw c s i full talk buf' hround hfull

end Datagrams

/-! ### HTTPS -/

/-- A client that posts a query to a listener takes the message in the body. -/
theorem https (hrt : Crates.RoundTrip) {reg : Registry} {depth : ℕ} {entry : Tag} {peer : IpAddr}
    {q : Message} {wire body : Bytes} {tr : Trace} {reply : DohReply}
    (hencode : encode q = .ok wire) (h : Ends (dohTask reg depth entry wire peer) tr reply)
    (hbody : reply.http = (200, some (.inr body))) (url text : String) :
    ∃ resp, Listener.ofDoh reply = some resp ∧
      Ends (dohExchange url q) [⟨.post url wire, .ok (200, text)⟩, ⟨.body, .ok body⟩] (.ok resp) := by
  cases reply with
  | badRequest e => cases hbody
  | badGateway e => cases hbody
  | message response =>
    simp only [DohReply.http] at hbody
    cases hr : response.bind fun r => (encode r).toOption with
    | none => simp [hr] at hbody
    | some bytes =>
      simp only [hr, Prod.mk.injEq, true_and, Option.some.injEq, Sum.inr.injEq] at hbody
      subst hbody
      obtain ⟨resp, rfl, hencoded⟩ := Option.bind_eq_some_iff.1 hr
      have hout : encode resp = .ok bytes := Fallible.toOption_eq_some.1 hencoded
      have htask : Ends (Listener.doh.task reg depth entry wire peer) (tr ++ []) (some resp) :=
        Ends.bind h (.refl _)
      obtain ⟨q', hq', haccepts⟩ := task_accepts htask
      obtain rfl := Except.ok.inj (hq'.symm.trans (decode_of_encode hrt hencode))
      have htake : takeResponse q' resp = .ok resp := takeResponse_eq_ok.2 ⟨rfl, haccepts⟩
      refine ⟨resp, rfl, ?_⟩
      have hpost : Ends (awaited (.post url wire)) [⟨.post url wire, .ok (200, text)⟩]
          (.ok (200, text)) := awaited_ends _ _
      have hget : Ends (awaited .body) [⟨.body, .ok bytes⟩] (.ok bytes) := awaited_ends _ _
      simp only [dohExchange, hencode]
      refine Ends.bind hpost ?_
      dsimp only
      rw [if_pos (by omega)]
      rw [← List.append_nil [(⟨.body, .ok bytes⟩ : Event Net Net.Answer)]]
      refine Ends.bind hget ?_
      simp only [decode_of_encode hrt hout, andThen, bind_done, htake]
      exact .refl _

/-! ### A refused query -/

section Sample

omit [Crates]

open Sample

theorem query_encodes : @encode Connection.codec query = .ok queryWire := by decide +kernel

theorem refused_encodes : @encode Connection.codec refused = .ok refusedWire := by decide +kernel

/-- A query over a stream to a listener that refuses everything, as its `i`th message. -/
theorem round_refused (i : ℕ) :
    ∃ talk, @Round Connection.codec refusing 0 i query (some refused) talk [] [] := by
  let := Connection.codec
  have hplay : ((refusing.task 0 queryWire).play (Resolver.oracle resolver 2 fun _ _ => none) false
      world).map (fun x => x.2.1.toOption) = some (some (some refused)) := by decide +kernel
  obtain ⟨⟨tr, answer, w, new⟩, hp, hanswer⟩ := Option.map_eq_some_iff.1 hplay
  cases answer with
  | error e => cases hanswer
  | ok response =>
    obtain rfl : response = some refused := Option.some.inj hanswer
    obtain ⟨read, hread, hreceived⟩ := readFramed_ends 0 (b := refusedWire) (by decide) (by decide)
    have hwrite : refusing.writeTcpResponse 0 (some refused) =
        .ok [Frames.lengthOctets refusedWire.length ++ refusedWire] := by decide +kernel
    exact ⟨_, .mk (writeFramed_ends 0 query_encodes (by decide)) rfl (play_ends hp) hwrite hread
      hreceived (by simp)⟩

/-- The sample query, sent twice over a stream, and what the listener makes of the stream. -/
theorem stream_answers_refused : ∃ talk talk',
    Ends (@framedExchange Connection.codec 0 query) talk (.ok refused) ∧
    Ends (@framedExchange Connection.codec 0 query) talk' (.ok refused) ∧
    ∃ tr sent, Ends (@serveFramed Connection.codec refusing 0 [written talk ++ written talk']) tr
      (sent, refusing.ending []) := by
  let := Connection.codec
  obtain ⟨talk, hround⟩ := round_refused 0
  obtain ⟨talk', hround'⟩ := round_refused 1
  obtain ⟨-, hreplies, hserved⟩ := stream_answers (roundTrip (by decide)) headed
    (.cons hround (.cons hround' (.nil 2 [])))
  obtain ⟨⟨resp, hresp, hends⟩, hrest⟩ := List.forall_mem_cons.1 hreplies
  obtain ⟨⟨resp', hresp', hends'⟩, -⟩ := List.forall_mem_cons.1 hrest
  cases hresp
  cases hresp'
  exact ⟨talk, talk', hends, hends', hserved _ (by simp)⟩

theorem udp_refuses : ∃ tr : Trace, Ends (@udpTask Connection.codec (refusing.live 0) 2 "main"
    queryWire (.v4 0)) tr (some ⟨refused, 512⟩) := by
  have hplay : ((@udpTask Connection.codec (refusing.live 0) 2 "main" queryWire (.v4 0)).play
      (@Resolver.oracle Connection.codec resolver 2 fun _ _ => none) false world).map
        (fun x => x.2.1) = some (some ⟨refused, 512⟩) := by decide +kernel
  obtain ⟨⟨tr, answer, w, new⟩, hp, rfl⟩ := Option.map_eq_some_iff.1 hplay
  exact ⟨tr, play_ends hp⟩

/-- The refusal, sent back to the listener. -/
theorem never_loops_refused : @Listener.task Connection.codec (refusing.live 0) 2 "main" refusedWire
    (.v4 0) (.stream .Tcp) = done none := by
  let := Connection.codec
  obtain ⟨tr, hserver⟩ := udp_refuses
  have htask : Ends (Listener.udp.task (refusing.live 0) 2 "main" queryWire (.v4 0)) (tr ++ [])
      (some refused) := Ends.bind hserver (.refl _)
  exact never_loops (roundTrip (by decide)) htask (.inl rfl) refused_encodes _ _ _ _ _

end Sample

/-! ### An answer that is too long for a datagram -/

namespace Long

omit [Crates]

open Sample

/-- Forty addresses of `a.test.` -/
def addresses : List IpAddr := (List.range 40).map fun i => .v4 (0xc0000200 + BitVec.ofNat 32 i)

def hosts : Hosts := ⟨"main", [("a.test".toList, addresses)], 60⟩

/-- Everything is answered from the table. -/
def listing : Connection := { refusing with live := fun _ => registry [("main", .hosts hosts)] rfl }

def listed : Message :=
  buildHostsResponse query (addresses.filterMap (hosts.recordFor aTest .A))

/-- The header and the question, with these flags and so many records. -/
def headWire (flags records : UInt8) : Bytes :=
  [0, 1, flags, 128, 0, 1, 0, records, 0, 0, 0, 0] ++ queryWire.drop 12

def listedWire : Bytes :=
  headWire 133 40 ++ (List.range 40).flatMap fun i =>
    [192, 12, 0, 1, 0, 1, 0, 0, 0, 60, 0, 4, 192, 0, 2, UInt8.ofNat i]

@[reducible] def codec : Crates :=
  crates [(query, queryWire), (listed, listedWire), (listed.cut, headWire 135 0)]

theorem headed : @Crates.Headed codec := by
  intro m b h
  have hmem := mem_of_toVec h
  simp only [List.mem_cons, List.not_mem_nil, Prod.mk.injEq, or_false] at hmem
  rcases hmem with ⟨-, rfl⟩ | ⟨-, rfl⟩ | ⟨-, rfl⟩
  all_goals decide +kernel

theorem listed_encodes : @encode codec listed = .ok listedWire := by decide +kernel

theorem udp_lists : ∃ tr : Trace, Ends (@udpTask codec (listing.live 0) 2 "main" queryWire (.v4 0))
    tr (some ⟨listed, 512⟩) := by
  have hplay : ((@udpTask codec (listing.live 0) 2 "main" queryWire (.v4 0)).play
      (@Resolver.oracle codec resolver 2 fun _ _ => none) false world).map
        (fun x => x.2.1) = some (some ⟨listed, 512⟩) := by decide +kernel
  obtain ⟨⟨tr, answer, w, new⟩, hp, rfl⟩ := Option.map_eq_some_iff.1 hplay
  exact ⟨tr, play_ends hp⟩

theorem round_listed : ∃ talk, @Round codec listing 0 0 query (some listed) talk [] [] := by
  let := codec
  have hplay : ((listing.task 0 queryWire).play (Resolver.oracle resolver 2 fun _ _ => none) false
      world).map (fun x => x.2.1.toOption) = some (some (some listed)) := by decide +kernel
  obtain ⟨⟨tr, answer, w, new⟩, hp, hanswer⟩ := Option.map_eq_some_iff.1 hplay
  cases answer with
  | error e => cases hanswer
  | ok response =>
    obtain rfl : response = some listed := Option.some.inj hanswer
    have hquery : encode query = .ok queryWire := by decide +kernel
    have hlength : listedWire.length = 664 := by decide +kernel
    obtain ⟨read, hread, hreceived⟩ := readFramed_ends 0 (b := listedWire) (by omega) (by omega)
    have hwrite : listing.writeTcpResponse 0 (some listed) =
        .ok [Frames.lengthOctets listedWire.length ++ listedWire] := by decide +kernel
    rw [show decode listedWire = .ok listed from decode_of_encode (roundTrip (by decide +kernel))
      listed_encodes] at hread
    exact ⟨_, .mk (writeFramed_ends 0 hquery (by decide)) rfl (play_ends hp) hwrite hread hreceived
      (by simp)⟩

/-- A datagram that is no message. -/
def junk : Packet := ⟨[0], Nat.le_add_left 1 65534⟩

/-- Behind that datagram comes a reply that was cut, and the whole one over a stream. -/
theorem datagram_answers_long :
    ∃ tr, Ends (@udpExchangeAddr codec ⟨.v4 0x7f000001, 53⟩ query) tr (.ok listed) := by
  let := codec
  obtain ⟨tr, hserver⟩ := udp_lists
  obtain ⟨talk, hround⟩ := round_listed
  have hquery : encode query = .ok queryWire := by decide +kernel
  have hb : UdpReply.datagram ⟨listed, 512⟩ = .ok (headWire 135 0) := by decide +kernel
  have hpart : ¬ Whole ⟨listed, 512⟩ := by
    rintro ⟨wire, hwire, hshort, -⟩
    obtain rfl := Except.ok.inj (listed_encodes.symm.trans hwire)
    revert hshort
    decide +kernel
  have hjunk : ∀ d ∈ [junk], Stray query d := by
    have hbad : (decode junk.val).toOption = none := by decide +kernel
    refine List.forall_mem_singleton.2 fun m hm => ?_
    rw [hm] at hbad
    cases hbad
  have hanswers := datagram_answers (roundTrip (by decide +kernel)) (fun _ => rfl) headed hquery
    hserver hb (by decide) ⟨.v4 0x7f000001, 53⟩ (by decide) hjunk
  exact ⟨_, hanswers.2 hpart _ _ _ _ _ _ hround rfl⟩

end Long

end Chained

end FerrumDns
