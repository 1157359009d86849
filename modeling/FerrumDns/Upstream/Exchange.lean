import FerrumDns.Plugin.Basic
import FerrumDns.Stream.Frames

/-! Exchanging one query with an upstream server: over a datagram socket with a
retry over a stream, over a pooled stream with a fresh one in reserve, or over
HTTPS. Sockets, streams, the clock and the pool are reached through actions whose
answers are whatever the peer sends; what is done with the answers is the
program. Dropping a stream is an action too, so that it shows who has it. -/

namespace FerrumDns

open Prog Dnsutil

/-- A stream by its number in the order of opening. -/
abbrev StreamId := ℕ

structure SocketAddr where
  ip : IpAddr
  port : UInt16
  deriving DecidableEq, Repr

inductive Kind where
  | Udp (target : String)
  | Tcp (target : String)
  | Tls (target sni : String)
  | Doh (url : String)
  deriving DecidableEq, Repr

/-- An upstream with its transport, and whether it resolves the host of its URL itself. -/
structure Client extends Upstream where
  kind : Kind
  resolver : Bool
  deriving DecidableEq, Repr

/-- Actions on sockets, streams, the pool and the clock. -/
inductive Net where
  | resolve (target : String)
  | resolveHost (url : String)
  | bind (ipv6 : Bool)
  | dial (dest : SocketAddr)
  | send (datagram : Bytes)
  | recv
  | now
  | take (now : ℕ)
  | put (s : StreamId)
  | connect (dest : SocketAddr)
  | nodelay (s : StreamId)
  | serverName (sni : String)
  | handshake (s : StreamId) (sni : String)
  | write (s : StreamId) (bytes : Bytes)
  | flush (s : StreamId)
  | read (s : StreamId) (n : ℕ)
  | drop (s : StreamId)
  | post (url : String) (body : Bytes)
  | body

/-- A datagram is cut to the buffer, a read is for exactly as many octets as asked, and a status
comes with its text. -/
@[reducible] def Net.Answer : Net → Type
  | resolve _ => Except Error SocketAddr
  | resolveHost _ | bind _ | dial _ | send _ | nodelay _ | write _ _ | flush _ => Except Error Unit
  | serverName _ | handshake _ _ => Except String Unit
  | recv => Except Error {datagram : Bytes // datagram.length ≤ 65535}
  | now => ℕ
  | take _ => Option StreamId
  | put _ | drop _ => Unit
  | connect _ => Except Error StreamId
  | read _ n => Except Error {bytes : Bytes // bytes.length = n}
  | post _ _ => Except String (ℕ × String)
  | body => Except String Bytes

/-- A part of an exchange. -/
abbrev Talk (α : Type) := Prog Unit Net Net.Answer α

/-- The answered actions of an exchange. -/
abbrev NetTrace := List (Event Net Net.Answer)

namespace Talk

/-- A call that is awaited. -/
def awaited (e : Net) : Talk e.Answer := await () (act e done)

/-- Go on after success, and fail at the first error. -/
def andThen {α β : Type} (p : Talk (Except Error α)) (f : α → Talk (Except Error β)) :
    Talk (Except Error β) :=
  p.bind fun r =>
    match r with
    | .error e => done (.error e)
    | .ok a => f a

/-- Fail, with a stream that is dropped on the way out. -/
def abandon {β : Type} (s : StreamId) (e : Error) : Talk (Except Error β) :=
  act (.drop s) fun _ => done (.error e)

theorem ends_awaited {e : Net} {tr : NetTrace} {r : e.Answer} (h : Ends (awaited e) tr r) :
    tr = [⟨e, r⟩] := by
  obtain ⟨r', tr', rfl, h'⟩ := ends_act (ends_await h)
  obtain ⟨rfl, rfl⟩ := ends_done h'
  rfl

variable {α β : Type} {p : Talk (Except Error α)} {f : α → Talk (Except Error β)}

theorem ends_andThen {tr : NetTrace} {r : Except Error β} (h : Ends (andThen p f) tr r) :
    (∃ e, r = .error e ∧ Ends p tr (.error e)) ∨
      ∃ tr₁ tr₂ a, tr = tr₁ ++ tr₂ ∧ Ends p tr₁ (.ok a) ∧ Ends (f a) tr₂ r := by
  obtain ⟨tr₁, tr₂, x, rfl, hp, hf⟩ := ends_bind h
  cases x with
  | error e =>
    obtain ⟨rfl, rfl⟩ := ends_done hf
    exact .inl ⟨e, rfl, by rwa [List.append_nil]⟩
  | ok a => exact .inr ⟨tr₁, tr₂, a, rfl, hp, hf⟩

theorem andThen_ok {tr : NetTrace} {b : β} (h : Ends (andThen p f) tr (.ok b)) :
    ∃ tr₁ tr₂ a, tr = tr₁ ++ tr₂ ∧ Ends p tr₁ (.ok a) ∧ Ends (f a) tr₂ (.ok b) := by
  rcases ends_andThen h with ⟨e, he, -⟩ | h
  · cases he
  · exact h

end Talk

namespace Upstream

open Talk Frames

variable [Crates]

/-! ### Framed messages -/

def writeFramed (s : StreamId) (q : Message) : Talk (Except Error Unit) :=
  match encode q with
  | .error e => done (.error e)
  | .ok bytes =>
    if 65535 < bytes.length then done (.error (.protocol "tcp payload too large"))
    else
      andThen (awaited (.write s (lengthOctets bytes.length))) fun _ =>
        andThen (awaited (.write s bytes)) fun _ => awaited (.flush s)

def readFramed (s : StreamId) : Talk (Except Error Message) :=
  andThen (awaited (.read s 2)) fun header =>
    let len := fromOctets header.val
    if len = 0 ∨ 65535 < len then done (.error (.protocol "bad tcp length"))
    else andThen (awaited (.read s len)) fun buf => done (decode buf.val)

def framedExchange (s : StreamId) (q : Message) : Talk (Except Error Message) :=
  andThen (writeFramed s q) fun _ =>
    andThen (readFramed s) fun resp => done (takeResponse q resp)

/-! ### Streams -/

/-- A stream that cannot be set up is dropped. -/
def connectTcp (dest : SocketAddr) : Talk (Except Error StreamId) :=
  andThen (awaited (.connect dest)) fun s =>
    act (.nodelay s) fun (r : Except Error Unit) =>
      match r with
      | .error e => abandon s e
      | .ok () => done (.ok s)

def connectTls (dest : SocketAddr) (sni : String) : Talk (Except Error StreamId) :=
  andThen (connectTcp dest) fun s =>
    act (.serverName sni) fun (name : Except String Unit) =>
      match name with
      | .error e => abandon s (.protocol ("sni " ++ sni ++ ": " ++ e))
      | .ok () => await () (act (.handshake s sni) fun (r : Except String Unit) =>
        match r with
        | .error e => abandon s (.protocol e)
        | .ok () => done (.ok s))

/-- `StreamPool::take`: the clock is read before the pool is locked. -/
def takeStream : Talk (Option StreamId) :=
  act .now fun (now : ℕ) => act (.take now) done

/-- Exchange over a stream just opened, which goes to the pool afterwards. -/
def freshExchange (connect : Talk (Except Error StreamId)) (q : Message) :
    Talk (Except Error Message) :=
  andThen connect fun s => (framedExchange s q).bind fun r =>
    match r with
    | .error e => abandon s e
    | .ok msg => act (.put s) fun _ => done (.ok msg)

/-- Exchange over a pooled stream if there is one, and over a fresh one if that fails. -/
def exchangePooled (connect : Talk (Except Error StreamId)) (q : Message) :
    Talk (Except Error Message) :=
  takeStream.bind fun taken =>
    match taken with
    | none => freshExchange connect q
    | some s => (framedExchange s q).bind fun r =>
      match r with
      | .ok msg => act (.put s) fun _ => done (.ok msg)
      | .error _ => act (.drop s) fun _ => freshExchange connect q

def tcpExchangePooled (dest : SocketAddr) (q : Message) : Talk (Except Error Message) :=
  exchangePooled (connectTcp dest) q

def tlsExchangePooled (dest : SocketAddr) (sni : String) (q : Message) :
    Talk (Except Error Message) :=
  exchangePooled (connectTls dest sni) q

/-! ### Datagrams -/

/-- A truncated response is asked for again over a stream of its own. -/
def retryTcp (dest : SocketAddr) (q : Message) : Talk (Except Error Message) :=
  andThen (connectTcp dest) fun s => (framedExchange s q).bind fun r =>
    act (.drop s) fun _ =>
      match r with
      | .error e => done (.error e)
      | .ok full =>
        if full.truncated then done (.error (.protocol "truncated tcp response"))
        else done (.ok full)

/-- Up to `n` more datagrams; those that are no response to the query are passed over. -/
def recvLoop (dest : SocketAddr) (q : Message) : ℕ → Talk (Except Error Message)
  | 0 => done (.error (.protocol "no matching udp response"))
  | n + 1 => andThen (awaited .recv) fun buf =>
    match decode buf.val with
    | .error _ => recvLoop dest q n
    | .ok resp =>
      match takeResponse q resp with
      | .error _ => recvLoop dest q n
      | .ok ok => if ok.truncated then retryTcp dest q else done (.ok ok)

def udpExchangeAddr (dest : SocketAddr) (q : Message) : Talk (Except Error Message) :=
  andThen (awaited (.bind (!dest.ip.isIpv4))) fun _ =>
    andThen (awaited (.dial dest)) fun _ =>
      match encode q with
      | .error e => done (.error e)
      | .ok bytes => andThen (awaited (.send bytes)) fun _ => recvLoop dest q 4

/-! ### HTTPS -/

def dohExchange (url : String) (q : Message) : Talk (Except Error Message) :=
  match encode q with
  | .error e => done (.error e)
  | .ok bytes => (awaited (.post url bytes)).bind fun (r : Except String (ℕ × String)) =>
    match r with
    | .error e => done (.error (.protocol e))
    | .ok (status, text) =>
      if 200 ≤ status ∧ status < 300 then
        (awaited .body).bind fun (b : Except String Bytes) =>
          match b with
          | .error e => done (.error (.protocol e))
          | .ok body => andThen (done (decode body)) fun resp => done (takeResponse q resp)
      else done (.error (.protocol ("doh http " ++ text)))

end Upstream

namespace Client

open Talk Upstream

variable [Crates]

/-- Over whichever transport the upstream has. -/
def exchangeKind (c : Client) (q : Message) : Talk (Except Error Message) :=
  match c.kind with
  | .Udp target => andThen (awaited (.resolve target)) fun dest => udpExchangeAddr dest q
  | .Tcp target => andThen (awaited (.resolve target)) fun dest => tcpExchangePooled dest q
  | .Tls target sni =>
    andThen (awaited (.resolve target)) fun dest => tlsExchangePooled dest sni q
  | .Doh url =>
    if c.resolver then andThen (awaited (.resolveHost url)) fun _ => dohExchange url q
    else dohExchange url q

def exchangeInner (c : Client) (q : Message) : Talk (Except Error Message) :=
  (c.exchangeKind q).bind fun r => done (r.mapError fun e => .upstream c.addr e.display)

/-- The whole exchange under its time limit. -/
def exchange (c : Client) (q : Message) : Talk (Except Error Message) :=
  (c.exchangeInner q).timeout.bind fun r =>
    match r with
    | .ok r => done r
    | .error () => done (.error (.upstream c.addr "timeout"))

end Client

end FerrumDns
