import FerrumDns.Plugin.Exec

/-! Handling one request: checking the header, running the entry's plugin under a
timeout, and turning the context's response into the reply to the message as it
was received. Listeners differ in how they frame the reply; the datagram
listener also limits its size. -/

namespace FerrumDns

open Dnsutil Prog

namespace Server

variable [Crates] (reg : Registry) (depth : ℕ)

/-- What is left of the pipeline's end: a plugin error without response, and a timeout, are
answered with a server failure. -/
def recover : Except QueryContext Outcome → QueryContext
  | .ok (ctx, .ok _) => ctx
  | .ok (ctx, .error _) => if ctx.hasResp then ctx else ctx.reject .ServFail
  | .error ctx => ctx.reject .ServFail

/-- The reply proper, with a subnet the client did not send taken out. -/
def finalized (ctx : QueryContext) : QueryContext :=
  let ctx := ctx.finalizeResponse
  if ctx.stripEcsOnReply then { ctx with response := ctx.response.map removeEcs } else ctx

omit [Crates] in
theorem query_finalized (ctx : QueryContext) : (finalized ctx).query = ctx.query := by
  simp only [finalized]
  split_ifs <;> rfl

omit [Crates] in
theorem ecsRefused_finalized (ctx : QueryContext) :
    (finalized ctx).ecsRefused = ctx.ecsRefused := by
  simp only [finalized]
  split_ifs <;> rfl

def conclude (ctx : QueryContext) : Run (QueryContext × Except Error Unit) :=
  let ctx := finalized ctx
  (Run.count (if ctx.hasResp then .responses else .dropped)).bind fun _ =>
    (Run.count .queries).bind fun _ => done (ctx, .ok ())

def handle (entry : Tag) (ctx : QueryContext) : Run (QueryContext × Except Error Unit) :=
  match classifyIncoming ctx.query with
  | .Drop => done (ctx, .ok ())
  | .NotImp => conclude (ctx.reject .NotImp)
  | .Ok =>
    let ctx := ctx.beginPipeline entry
    match reg.getExec entry with
    | .error e => done (ctx, .error e)
    | .ok p => (p.exec reg depth ctx).timeout.bind fun r => conclude (recover r)

/-- `trim().trim_start_matches('$')`. -/
def entryTag (entry : Tag) : Tag :=
  String.ofList (Text.trimStart (· == '$') (Text.trim entry.toList))

/-- `Runtime::handle_query`. -/
def handleQuery (entry : Tag) (ctx : QueryContext) : Run (QueryContext × Except Error Unit) :=
  handle reg depth (entryTag entry) ctx

/-! ### The datagram listener -/

/-- A response with the limit on its encoding. -/
structure UdpReply where
  response : Message
  max : ℕ
  deriving DecidableEq

def UdpReply.datagram (r : UdpReply) : Except Error Bytes := encodeUdp r.response r.max

def udpReply (ctx : QueryContext) : Option UdpReply :=
  ctx.response.map fun response => ⟨response, udpPayloadMax ctx.query⟩

/-- The task `udp_loop` spawns for one datagram. -/
def udpTask (entry : Tag) (buf : Bytes) (peer : IpAddr) : Run (Option UdpReply) :=
  match decode buf with
  | .error _ => done none
  | .ok q =>
    let ctx := QueryContext.new q (some peer) .Udp
    match classifyIncoming q with
    | .Drop => done none
    | .NotImp => done (udpReply (ctx.reject .NotImp))
    | .Ok => (handle reg depth entry ctx).bind fun (ctx, r) =>
      match r with
      | .error _ => done none
      | .ok () => done (udpReply ctx)

/-! ### The stream listeners -/

/-- Two octets of length and the message. -/
def frame (response : Message) : Except Error Bytes :=
  match encode response with
  | .error e => .error e
  | .ok bytes =>
    if 65535 < bytes.length then .error (.protocol "tcp payload too large")
    else .ok (UInt8.ofNat (bytes.length / 256) :: UInt8.ofNat bytes.length :: bytes)

/-- One round of `serve_framed`: an error ends the connection, and without a response it goes on. -/
def framedTask (entry : Tag) (buf : Bytes) (peer : Option IpAddr) (proto : ClientProto) :
    Run (Except Error (Option Message)) :=
  match decode buf with
  | .error e => done (.error e)
  | .ok q =>
    let ctx := QueryContext.new q peer proto
    match classifyIncoming q with
    | .Drop => done (.ok none)
    | .NotImp => done (.ok (ctx.reject .NotImp).response)
    | .Ok => (handle reg depth entry ctx).bind fun (ctx, r) =>
      match r with
      | .error e => done (.error e)
      | .ok () => done (.ok ctx.response)

/-! ### The HTTPS listener -/

inductive DohReply where
  | badRequest (e : Error)
  | badGateway (e : Error)
  | message (response : Option Message)

/-- The status with the text or the octets of the body. -/
def DohReply.http : DohReply → ℕ × Option (Error ⊕ Bytes)
  | badRequest e => (400, some (.inl e))
  | badGateway e => (502, some (.inl e))
  | message response =>
    match response.bind fun r => (encode r).toOption with
    | some bytes => (200, some (.inr bytes))
    | none => (502, none)

/-- `doh_handle`. -/
def dohTask (entry : Tag) (body : Bytes) (peer : IpAddr) : Run DohReply :=
  match decode body with
  | .error e => done (.badRequest e)
  | .ok q => (handle reg depth entry (QueryContext.new q (some peer) .Https)).bind fun (ctx, r) =>
    match r with
    | .error e => done (.badGateway e)
    | .ok () => done (.message ctx.response)

end Server

end FerrumDns
