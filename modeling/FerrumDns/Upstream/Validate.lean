import FerrumDns.Forward.Race
import FerrumDns.Prog.Play
import FerrumDns.Prog.Weave
import FerrumDns.Sample
import FerrumDns.Upstream.Exchange

/-! Every response that an exchange returns went through the same check, whatever the
transport and whatever the peer sent: datagrams that cannot be decoded or belong to
another query, streams that fail half way, a truncated response that is asked for
again. So a forwarder puts no other message into a context. -/

namespace FerrumDns

open Prog Dnsutil

/-- `m` is a response to the query `q`; names are the same up to case. -/
structure Accepts (q m : Message) : Prop where
  messageType : m.messageType = .Response
  id : m.id = q.id
  opCode : m.opCode = q.opCode
  queries : SameQueries m.queries q.queries

theorem takeResponse_eq_ok {q resp m : Message} :
    takeResponse q resp = .ok m ↔ resp = m ∧ Accepts q resp := by
  rw [takeResponse]
  constructor
  · intro h
    split_ifs at h with htype hid hop hqueries
    exact ⟨Except.ok.inj h, not_not.1 htype, not_not.1 hid, not_not.1 hop, hqueries⟩
  · rintro ⟨rfl, h⟩
    rw [if_neg (not_not.2 h.messageType), if_neg (not_not.2 h.id), if_neg (not_not.2 h.opCode),
      if_neg (not_not.2 h.queries)]

namespace Upstream

open Talk

variable [Crates] {q m : Message} {tr : NetTrace}

omit [Crates] in
theorem ends_takeResponse {resp : Message}
    (h : Ends (done (takeResponse q resp) : Talk (Except Error Message)) tr (.ok m)) :
    tr = [] ∧ resp = m ∧ Accepts q m := by
  obtain ⟨rfl, htake⟩ := ends_done h
  obtain ⟨rfl, haccepts⟩ := takeResponse_eq_ok.1 htake
  exact ⟨rfl, rfl, haccepts⟩

/-! ### Streams -/

theorem framedExchange_accepts {s : StreamId} (h : Ends (framedExchange s q) tr (.ok m)) :
    Accepts q m := by
  obtain ⟨_, _, _, -, -, h⟩ := andThen_ok h
  obtain ⟨_, _, _, -, -, h⟩ := andThen_ok h
  exact (ends_takeResponse h).2.2

theorem freshExchange_accepts {connect : Talk (Except Error StreamId)}
    (h : Ends (freshExchange connect q) tr (.ok m)) : Accepts q m := by
  obtain ⟨_, _, s, -, -, h⟩ := andThen_ok h
  obtain ⟨_, _, r, -, hframed, hrest⟩ := ends_bind h
  cases r with
  | error e =>
    obtain ⟨_, _, -, hfail⟩ := ends_act hrest
    cases (ends_done hfail).2
  | ok msg =>
    obtain ⟨_, _, -, hdone⟩ := ends_act hrest
    cases (ends_done hdone).2
    exact framedExchange_accepts hframed

theorem exchangePooled_accepts {connect : Talk (Except Error StreamId)}
    (h : Ends (exchangePooled connect q) tr (.ok m)) : Accepts q m := by
  obtain ⟨_, _, taken, -, -, h⟩ := ends_bind h
  cases taken with
  | none => exact freshExchange_accepts h
  | some s =>
    obtain ⟨_, _, r, -, hframed, hrest⟩ := ends_bind h
    cases r with
    | error e =>
      obtain ⟨_, _, -, hfresh⟩ := ends_act hrest
      exact freshExchange_accepts hfresh
    | ok msg =>
      obtain ⟨_, _, -, hdone⟩ := ends_act hrest
      cases (ends_done hdone).2
      exact framedExchange_accepts hframed

/-! ### Datagrams -/

/-- What was received in datagrams, in order. -/
def datagrams (tr : NetTrace) : List Bytes :=
  tr.filterMap fun ev =>
    match ev with
    | ⟨.recv, r⟩ => r.toOption.map Subtype.val
    | _ => none

omit [Crates] in
theorem datagrams_append (tr tr' : NetTrace) :
    datagrams (tr ++ tr') = datagrams tr ++ datagrams tr' :=
  List.filterMap_append

/-- The message is one of the first `n` datagrams. -/
def FromDatagram (n : ℕ) (tr : NetTrace) (m : Message) : Prop :=
  ∃ i b, i < n ∧ (datagrams tr)[i]? = some b ∧ decode b = .ok m

/-- The message is what the query asked again over a stream led to, after at most `n` datagrams. -/
def FromRetry (n : ℕ) (dest : SocketAddr) (q : Message) (tr : NetTrace) (m : Message) : Prop :=
  ∃ tr₁ tr₂, tr = tr₁ ++ tr₂ ∧ (datagrams tr₁).length ≤ n ∧ Ends (retryTcp dest q) tr₂ (.ok m)

theorem retryTcp_accepts {dest : SocketAddr} (h : Ends (retryTcp dest q) tr (.ok m)) :
    Accepts q m ∧ m.truncated = false := by
  obtain ⟨_, _, s, -, -, h⟩ := andThen_ok h
  obtain ⟨_, _, r, -, hframed, hrest⟩ := ends_bind h
  obtain ⟨_, _, -, hend⟩ := ends_act hrest
  cases r with
  | error e => cases (ends_done hend).2
  | ok full =>
    dsimp only at hend
    split_ifs at hend with htrunc
    · cases (ends_done hend).2
    · cases (ends_done hend).2
      exact ⟨framedExchange_accepts hframed, Bool.eq_false_iff.2 htrunc⟩

/-- One datagram more in front. -/
theorem FromDatagram.cons {n : ℕ} {b : {datagram : Bytes // datagram.length ≤ 65535}}
    (h : FromDatagram n tr m) : FromDatagram (n + 1) (⟨.recv, .ok b⟩ :: tr) m := by
  obtain ⟨i, b', hi, hb', hdecode⟩ := h
  exact ⟨i + 1, b', by omega, hb', hdecode⟩

theorem FromRetry.cons {n : ℕ} {dest : SocketAddr} {b : {datagram : Bytes // datagram.length ≤ 65535}}
    (h : FromRetry n dest q tr m) : FromRetry (n + 1) dest q (⟨.recv, .ok b⟩ :: tr) m := by
  obtain ⟨tr₁, tr₂, rfl, hlen, hretry⟩ := h
  exact ⟨⟨.recv, .ok b⟩ :: tr₁, tr₂, rfl, Nat.succ_le_succ hlen, hretry⟩

/-- The loop passes over what it cannot use. -/
theorem recvLoop_found {dest : SocketAddr} {n : ℕ} (h : Ends (recvLoop dest q n) tr (.ok m)) :
    (Accepts q m ∧ m.truncated = false) ∧ (FromDatagram n tr m ∨ FromRetry n dest q tr m) := by
  induction n generalizing tr with
  | zero => cases (ends_done h).2
  | succ n ih =>
    obtain ⟨tr₁, tr₂, buf, rfl, hrecv, h⟩ := andThen_ok h
    rw [ends_awaited hrecv, List.singleton_append]
    have passed (h : Ends (recvLoop dest q n) tr₂ (.ok m)) :
        (Accepts q m ∧ m.truncated = false) ∧ (FromDatagram (n + 1) (⟨.recv, .ok buf⟩ :: tr₂) m ∨
          FromRetry (n + 1) dest q (⟨.recv, .ok buf⟩ :: tr₂) m) := by
      obtain ⟨hm, hfound⟩ := ih h
      exact ⟨hm, hfound.imp FromDatagram.cons FromRetry.cons⟩
    cases hdecode : decode buf.val with
    | error e =>
      rw [hdecode] at h
      exact passed h
    | ok resp =>
      simp only [hdecode] at h
      cases htake : takeResponse q resp with
      | error e =>
        rw [htake] at h
        exact passed h
      | ok ok =>
        obtain ⟨rfl, haccepts⟩ := takeResponse_eq_ok.1 htake
        simp only [htake] at h
        split_ifs at h with htrunc
        · exact ⟨retryTcp_accepts h,
            .inr ⟨[⟨.recv, .ok buf⟩], tr₂, rfl, Nat.succ_le_succ (Nat.zero_le n), h⟩⟩
        · cases (ends_done h).2
          exact ⟨⟨haccepts, Bool.eq_false_iff.2 htrunc⟩, .inl ⟨0, buf.val, by omega, rfl, hdecode⟩⟩

/-- Actions before the first datagram. -/
theorem Found.after {dest : SocketAddr} {n : ℕ} {tr₁ tr₂ : NetTrace} (h : datagrams tr₁ = [])
    (hfound : FromDatagram n tr₂ m ∨ FromRetry n dest q tr₂ m) :
    FromDatagram n (tr₁ ++ tr₂) m ∨ FromRetry n dest q (tr₁ ++ tr₂) m := by
  rcases hfound with ⟨i, b, hi, hb, hdecode⟩ | ⟨l, l', rfl, hlen, hretry⟩
  · exact .inl ⟨i, b, hi, by rwa [datagrams_append, h], hdecode⟩
  · refine .inr ⟨tr₁ ++ l, l', (List.append_assoc ..).symm, ?_, hretry⟩
    rwa [datagrams_append, h]

theorem udpExchangeAddr_found {dest : SocketAddr} (h : Ends (udpExchangeAddr dest q) tr (.ok m)) :
    (Accepts q m ∧ m.truncated = false) ∧ (FromDatagram 4 tr m ∨ FromRetry 4 dest q tr m) := by
  obtain ⟨tr₁, _, _, rfl, hbind, h⟩ := andThen_ok h
  obtain ⟨tr₂, _, _, rfl, hdial, h⟩ := andThen_ok h
  cases hencode : encode q with
  | error e =>
    rw [hencode] at h
    cases (ends_done h).2
  | ok bytes =>
    rw [hencode] at h
    obtain ⟨tr₃, tr₄, _, rfl, hsend, h⟩ := andThen_ok h
    obtain ⟨hm, hfound⟩ := recvLoop_found h
    rw [ends_awaited hbind, ends_awaited hdial, ends_awaited hsend]
    exact ⟨hm, Found.after rfl (Found.after rfl (Found.after rfl hfound))⟩

/-! ### HTTPS -/

theorem dohExchange_accepts {url : String} (h : Ends (dohExchange url q) tr (.ok m)) :
    Accepts q m := by
  rw [dohExchange] at h
  cases hencode : encode q with
  | error e =>
    rw [hencode] at h
    cases (ends_done h).2
  | ok bytes =>
    rw [hencode] at h
    obtain ⟨_, _, r, -, -, h⟩ := ends_bind h
    cases r with
    | error e => cases (ends_done h).2
    | ok status =>
      dsimp only at h
      split_ifs at h
      · obtain ⟨_, _, b, -, -, h⟩ := ends_bind h
        cases b with
        | error e => cases (ends_done h).2
        | ok body =>
          obtain ⟨_, _, resp, -, -, h⟩ := andThen_ok h
          exact (ends_takeResponse h).2.2
      · cases (ends_done h).2

end Upstream

/-! ### Any transport -/

section Validated

open Talk Upstream

variable [Crates] {q m : Message} {tr : NetTrace}

/-- What a result is wrapped in leaves a success alone. -/
theorem Client.exchange_ok {c : Client} (h : Ends (c.exchange q) tr (.ok m)) :
    Ends (c.exchangeKind q) tr (.ok m) := by
  obtain ⟨tr₁, tr₂, r, rfl, hinner, hdone⟩ := ends_bind h
  cases r with
  | error late => cases (ends_done hdone).2
  | ok r =>
    obtain ⟨rfl, rfl⟩ := ends_done hdone
    obtain ⟨tr₃, tr₄, r, rfl, hkind, hdone⟩ := ends_bind (ends_timeout hinner)
    obtain ⟨rfl, hr⟩ := ends_done hdone
    cases r with
    | error e => cases hr
    | ok msg =>
      cases hr
      rwa [List.append_nil, List.append_nil]

theorem Client.exchangeKind_accepts {c : Client} (h : Ends (c.exchangeKind q) tr (.ok m)) :
    Accepts q m := by
  rw [exchangeKind] at h
  cases hkind : c.kind with
  | Udp target =>
    rw [hkind] at h
    obtain ⟨_, _, dest, -, -, h⟩ := andThen_ok h
    exact (udpExchangeAddr_found h).1.1
  | Tcp target =>
    rw [hkind] at h
    obtain ⟨_, _, dest, -, -, h⟩ := andThen_ok h
    exact exchangePooled_accepts h
  | Tls target sni =>
    rw [hkind] at h
    obtain ⟨_, _, dest, -, -, h⟩ := andThen_ok h
    exact exchangePooled_accepts h
  | Doh url =>
    simp only [hkind] at h
    split_ifs at h
    · obtain ⟨_, _, _, -, -, h⟩ := andThen_ok h
      exact dohExchange_accepts h
    · exact dohExchange_accepts h

theorem Client.exchangeKind_udp {c : Client} {target : String} (hkind : c.kind = .Udp target)
    (h : Ends (c.exchangeKind q) tr (.ok m)) :
    m.truncated = false ∧ (FromDatagram 4 tr m ∨ ∃ dest, FromRetry 4 dest q tr m) := by
  simp only [exchangeKind, hkind] at h
  obtain ⟨tr₁, tr₂, dest, rfl, hresolve, h⟩ := andThen_ok h
  obtain ⟨hm, hfound⟩ := udpExchangeAddr_found h
  rw [ends_awaited hresolve]
  exact ⟨hm.2, (Found.after rfl hfound).imp_right fun hretry => ⟨dest, hretry⟩⟩

theorem Client.exchange_accepts {c : Client} (h : Ends (c.exchange q) tr (.ok m)) : Accepts q m :=
  exchangeKind_accepts (exchange_ok h)

namespace Forward

/-- The result of an exchange that a forwarder waits for is that of the upstream's exchange. -/
def Exchanged : Event Eff Eff.Answer → Prop
  | ⟨.exchange ups q, (i, r)⟩ =>
    ∃ c : Client, c.toUpstream = ups.get i ∧ ∃ tr, Ends (c.exchange q) tr r
  | _ => True

/-- An exchange with one of its upstreams may return the message. -/
def Returns (f : Forward) (q m : Message) : Prop :=
  ∃ c : Client, c.toUpstream ∈ f.upstreams ∧ ∃ tr, Ends (c.exchange q) tr (.ok m)

/-- It asks its own query, and while it waits the context is as it was. -/
def asking (ctx : QueryContext) : Contract QueryContext Eff Eff.Answer where
  guar e := ∀ ups q, e = .exchange ups q → q = ctx.query
  rely e r := Exchanged ⟨e, r⟩
  held s := s = ctx

/-- The response is the one that was there, or was returned by an upstream. -/
def Installs (f : Forward) (ctx : QueryContext) (o : Outcome) : Prop :=
  o.1.response = ctx.response ∨ ∃ m, o.1.response = some m ∧ f.Returns ctx.query m

/-- A message that was returned is installed as it is. -/
theorem response_took {f : Forward} {ctx : QueryContext} (h : f.Returns ctx.query m) :
    (f.took ctx m).response = some m := by
  obtain ⟨c, -, tr, hends⟩ := h
  have haccepts := c.exchange_accepts hends
  simp only [took, QueryContext.setResponse, ← haccepts.id, ← haccepts.messageType]

theorem race_installs (f : Forward) (ctx : QueryContext) (n : ℕ) {ups : List Upstream}
    {last : Option Message} (hups : ∀ up ∈ ups, up ∈ f.upstreams)
    (hlast : ∀ m ∈ last, f.Returns ctx.query m) :
    (f.race ctx ctx.query n ups last).Sat (asking ctx) (f.Installs ctx) := by
  have counted (k : Counter) : (Run.count k).Sat (asking ctx) fun _ => True := by
    refine ⟨?_, fun _ _ => trivial⟩
    intro ups q he
    cases he
  have ended {last : Option Message} (hlast : ∀ m ∈ last, f.Returns ctx.query m) :
      f.Installs ctx (((last.map (f.took ctx)).getD ctx).pushTrace f.tag "err", .ok .Continue) := by
    cases last with
    | none => exact .inl (by simp)
    | some m => exact .inr ⟨m, by simpa using response_took (hlast m rfl), hlast m rfl⟩
  induction n generalizing ups last with
  | zero => exact ended hlast
  | succ n ih =>
    cases ups with
    | nil => exact ended hlast
    | cons up rest =>
      refine ⟨rfl, ?_, fun r hr => ?_⟩
      · intro ups q he
        exact ((Eff.exchange.injEq ..).mp he).2.symm
      · obtain ⟨i, r⟩ := r
        obtain ⟨c, hc, tr, hends⟩ := hr
        have hleft : ∀ x ∈ (up :: rest).eraseIdx i, x ∈ f.upstreams :=
          fun x hx => hups x (List.mem_of_mem_eraseIdx hx)
        cases r with
        | error e => exact (counted _).bind fun _ _ => ih hleft hlast
        | ok msg =>
          have hreturns : f.Returns ctx.query msg :=
            ⟨c, hc ▸ hups _ (List.getElem_mem _), tr, hends⟩
          dsimp only
          split_ifs
          · have htook : (f.took (ctx.pushTrace f.tag "ok") msg).response = some msg :=
              response_took (by rwa [QueryContext.pushTrace_query])
            exact (counted _).bind fun _ _ => .inr ⟨msg, htook, hreturns⟩
          · exact (counted _).bind fun _ _ => ih hleft fun m hm => Option.mem_some.1 hm ▸ hreturns

end Forward

/-- An exchange returns only a response to the query that was sent, over datagrams only one that is
whole and was among the first four or was got by the retry; and a forwarder, answered by exchanges,
asks its own query and installs no other message. -/
theorem Client.validated :
    (∀ (c : Client) (q m : Message) (tr : NetTrace), Ends (c.exchange q) tr (.ok m) →
      Accepts q m ∧ ∀ target, c.kind = .Udp target →
        m.truncated = false ∧ (FromDatagram 4 tr m ∨ ∃ dest, FromRetry 4 dest q tr m)) ∧
    ∀ (f : Forward) (ctx : QueryContext) (tr : Trace) (o : Outcome), Ends (f.exec ctx) tr o →
      (∀ ev ∈ tr, Forward.Exchanged ev) →
      (∀ ev ∈ tr, ∀ ups q, ev.1 = .exchange ups q → q = ctx.query) ∧
        (o.1.response = ctx.response ∨ ∃ m, o.1.response = some m ∧ Accepts ctx.query m) := by
  refine ⟨fun c q m tr h => ⟨c.exchange_accepts h, fun target hkind => ?_⟩,
    fun f ctx tr o h hanswered => ?_⟩
  · exact c.exchangeKind_udp hkind (Client.exchange_ok h)
  · rw [Forward.exec_eq_race] at h
    have hsat := @Forward.race_installs _ f ctx f.raced (f.upstreams.take f.raced) none
      (fun _ => List.mem_of_mem_take) (by simp)
    obtain ⟨hasks, hinstalls⟩ := hsat.ends h hanswered
    refine ⟨hasks, hinstalls.imp_right ?_⟩
    rintro ⟨m, hm, c, -, tr, hends⟩
    exact ⟨m, hm, c.exchange_accepts hends⟩

end Validated

/-! ### A truncated response -/

namespace Upstream.Retried

open Sample

/-- The answer cut to its question. -/
def cut : Message := { answer with truncated := true, answers := [], additionals := [] }

def cutWire : Bytes :=
  [0, 1, 131, 128, 0, 1, 0, 0, 0, 0, 0, 0, 1, 97, 4, 116, 101, 115, 116, 0, 0, 1, 0, 1]

@[reducible] def codec : Crates := crates [(query, queryWire), (answer, answerWire), (cut, cutWire)]

/-- The upstream of the sample forwarder, reached by datagrams. -/
def client : Client where
  addr := "192.0.2.53"
  tag := none
  kind := .Udp "192.0.2.53:53"
  resolver := false

def server : SocketAddr := ⟨.v4 (Ipv4Addr.ofOctets 192 0 2 53), 53⟩

/-- The datagrams that arrive: one that is no message, and the answer cut short. -/
def datagram (n : ℕ) : {datagram : Bytes // datagram.length ≤ 65535} :=
  if n = 0 then ⟨[0], by decide⟩ else ⟨cutWire, by decide⟩

/-- The octets of the whole answer, as they are read. -/
def octets (n : ℕ) : Bytes := if n = 2 then Frames.lengthOctets answerWire.length else answerWire

/-- A server that has the whole answer over a stream only, by the datagrams it has sent. -/
def cutting : Oracle ℕ Unit Unit Net Net.Answer
  | n, .resolve _ => some (.ok server, n, [])
  | n, .bind _ => some (.ok (), n, [])
  | n, .dial _ => some (.ok (), n, [])
  | n, .send _ => some (.ok (), n, [])
  | n, .recv => some (.ok (datagram n), n + 1, [])
  | n, .connect _ => some (.ok 0, n, [])
  | n, .nodelay _ => some (.ok (), n, [])
  | n, .write _ _ => some (.ok (), n, [])
  | n, .flush _ => some (.ok (), n, [])
  | n, .read _ k => if h : (octets k).length = k then some (.ok ⟨octets k, h⟩, n, []) else none
  | n, .drop _ => some ((), n, [])
  | _, _ => none

/-- The exchange passes over a datagram, and asks again over a stream when the next one is cut. -/
theorem exchange_retried : ∃ tr, Ends (@Client.exchange codec client query) tr (.ok answer) ∧
    datagrams tr = [[0], cutWire] := by
  have hplay : ((@Client.exchange codec client query).play cutting false 0).map
      (fun x => (x.2.1.toOption, datagrams x.1)) = some (some answer, [[0], cutWire]) := by
    decide +kernel
  obtain ⟨⟨tr, r, n, new⟩, hp, hr⟩ := Option.map_eq_some_iff.1 hplay
  simp only [Prod.mk.injEq] at hr
  obtain ⟨hr, hdatagrams⟩ := hr
  cases r with
  | error e => cases hr
  | ok m =>
    obtain rfl : m = answer := Option.some.inj hr
    exact ⟨tr, play_ends hp, hdatagrams⟩

theorem retried {tr : NetTrace} (h : datagrams tr = [[0], cutWire])
    (hfound : @FromDatagram codec 4 tr answer ∨ ∃ dest, @FromRetry codec 4 dest query tr answer) :
    ∃ dest, @FromRetry codec 4 dest query tr answer := by
  refine hfound.resolve_left ?_
  rintro ⟨i, b, -, hb, hdecode⟩
  have hmem : b ∈ [[0], cutWire] := h ▸ List.mem_of_getElem? hb
  simp only [List.mem_cons, List.not_mem_nil, or_false] at hmem
  rcases hmem with rfl | rfl
  · revert hdecode
    decide +kernel
  · revert hdecode
    decide +kernel

/-- The trace of the forwarder that gets the answer. -/
def asked : Trace :=
  [⟨.exchange forward.upstreams query, (⟨0, by decide⟩, .ok answer)⟩, ⟨.count .upstreamOk, ()⟩]

theorem exec_asked : Ends (forward.exec context) asked
    (forward.took (context.pushTrace "up" "ok") answer, .ok .Continue) :=
  .await (.act _ (.act _ (.refl _)))

/-- The whole answer comes from the retry, and the forwarder installs it. -/
theorem validated_retried : ∃ tr, Ends (@Client.exchange codec client query) tr (.ok answer) ∧
    (∃ dest, @FromRetry codec 4 dest query tr answer) ∧
    ∃ m, (forward.took (context.pushTrace "up" "ok") answer).response = some m ∧
      Accepts context.query m := by
  obtain ⟨tr, hends, hdatagrams⟩ := exchange_retried
  obtain ⟨hexchange, hforward⟩ := @Client.validated codec
  refine ⟨tr, hends, ?_, ?_⟩
  · obtain ⟨-, hudp⟩ := hexchange client query answer tr hends
    exact retried hdatagrams (hudp _ rfl).2
  · have hanswered : ∀ ev ∈ asked, @Forward.Exchanged codec ev := by
      refine List.forall_mem_cons.2 ⟨?_, List.forall_mem_singleton.2 trivial⟩
      exact ⟨client, rfl, tr, hends⟩
    have hinstalls := (hforward forward context asked _ exec_asked hanswered).2
    refine hinstalls.resolve_left ?_
    decide +kernel

end Upstream.Retried

end FerrumDns
