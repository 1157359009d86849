import FerrumDns.Prog.Crew
import FerrumDns.Sample
import FerrumDns.Upstream.Validate
import Mathlib.Algebra.Order.BigOperators.Group.List
import Mathlib.Algebra.Order.Group.Nat

/-! The pool of idle streams that the exchanges with one upstream share. A stream is in
the pool or with one exchange. An exchange puts back the stream it asked over, and
only once a response on it was accepted, so what was ever written to a pooled stream
and read from it are whole exchanges. -/

namespace FerrumDns

open Prog Dnsutil

/-- Idle streams with the time each was put back, the latest first. -/
structure StreamPool where
  slots : List (StreamId × ℕ)
  cap : ℕ
  idle : ℕ
  bounded : slots.length ≤ cap

namespace StreamPool

def new (cap idle : ℕ) : StreamPool := ⟨[], max cap 1, idle, Nat.zero_le _⟩

/-- Pop until a stream is not idle for too long. -/
def takeSlots (now idle : ℕ) : List (StreamId × ℕ) → Option StreamId × List (StreamId × ℕ)
  | [] => (none, [])
  | (s, t) :: rest => if now - t < idle then (some s, rest) else takeSlots now idle rest

theorem takeSlots_none {now idle : ℕ} {slots : List (StreamId × ℕ)}
    (h : (takeSlots now idle slots).1 = none) : (takeSlots now idle slots).2 = [] := by
  induction slots with
  | nil => rfl
  | cons x rest ih =>
    obtain ⟨s, t⟩ := x
    rw [takeSlots] at h ⊢
    split_ifs at h ⊢
    exact ih h

/-- The stream taken was put back less than `idle` ago, and the slots above it are gone. -/
theorem takeSlots_some {now idle : ℕ} {slots : List (StreamId × ℕ)} {s : StreamId}
    (h : (takeSlots now idle slots).1 = some s) :
    ∃ stale t, slots = stale ++ (s, t) :: (takeSlots now idle slots).2 ∧ now - t < idle := by
  induction slots with
  | nil => cases h
  | cons x rest ih =>
    obtain ⟨s', t⟩ := x
    rw [takeSlots] at h ⊢
    split_ifs at h ⊢ with hlt
    · cases h
      exact ⟨[], t, rfl, hlt⟩
    · obtain ⟨stale, t', heq, hidle⟩ := ih h
      exact ⟨(s', t) :: stale, t', by rw [List.cons_append, ← heq], hidle⟩

theorem takeSlots_suffix (now idle : ℕ) (slots : List (StreamId × ℕ)) :
    (takeSlots now idle slots).2 <:+ slots := by
  induction slots with
  | nil => exact List.suffix_rfl
  | cons x rest ih =>
    obtain ⟨s, t⟩ := x
    rw [takeSlots]
    split_ifs
    · exact List.suffix_cons _ _
    · exact ih.trans (List.suffix_cons _ _)

def take (p : StreamPool) (now : ℕ) : Option StreamId × StreamPool :=
  ((takeSlots now p.idle p.slots).1,
    { p with
      slots := (takeSlots now p.idle p.slots).2
      bounded := (takeSlots_suffix now p.idle p.slots).length_le.trans p.bounded })

/-- A stream that finds the pool full is dropped. -/
def put (p : StreamPool) (s : StreamId) (now : ℕ) : StreamPool :=
  if h : p.slots.length < p.cap then { p with slots := (s, now) :: p.slots, bounded := h } else p

/-- The streams in the pool. -/
def ids (p : StreamPool) : List StreamId := p.slots.map Prod.fst

end StreamPool

/-! ### The exchanges with one upstream -/

/-- The pool, the time and the number of streams opened. -/
structure NetWorld where
  pool : StreamPool
  clock : ℕ
  opened : ℕ

namespace NetWorld

/-- The pool and the clock answer as they stand, a new stream has a new number, and a peer answers
anything. -/
def perform (w : NetWorld) : (e : Net) → e.Answer → NetWorld → Prop
  | .now, r, w' => r = w.clock ∧ w' = w
  | .take now, r, w' => r = (w.pool.take now).1 ∧ w' = { w with pool := (w.pool.take now).2 }
  | .put s, _, w' => w' = { w with pool := w.pool.put s w.clock }
  | .connect _, .ok s, w' => s = w.opened ∧ w' = { w with opened := w.opened + 1 }
  | _, _, w' => w' = w

/-- Time passes. -/
inductive Drift : NetWorld → NetWorld → Prop
  | tick {w : NetWorld} {t : ℕ} (h : w.clock ≤ t) : Drift w { w with clock := t }

end NetWorld

namespace Upstream

variable [Crates]

/-- Exchanges over pooled TCP or TLS streams. -/
inductive Pooled : Talk (Except Error Message) → Prop
  | tcp (dest : SocketAddr) (q : Message) : Pooled (tcpExchangePooled dest q)
  | tls (dest : SocketAddr) (sni : String) (q : Message) : Pooled (tlsExchangePooled dest sni q)

def site : Site NetWorld Unit Net Net.Answer (Except Error Message) where
  perform := NetWorld.perform
  drift := NetWorld.Drift
  admits := Pooled

abbrev Exchanges := Crew NetWorld Unit Net Net.Answer (Except Error Message)

/-- An empty pool and no exchange. -/
def Exchanges.fresh (cap idle clock opened : ℕ) : Exchanges :=
  ⟨⟨.new cap idle, clock, opened⟩, []⟩

/-- An exchange under way. -/
abbrev Talking := Member Unit Net Net.Answer (Except Error Message)

end Upstream

/-! ### What an exchange has done with streams -/

/-- The stream that an action reads or writes. -/
def Net.transfers : Net → Option StreamId
  | write s _ | flush s | read s _ => some s
  | _ => none

/-- The stream that an action works on. -/
def Net.uses : Net → Option StreamId
  | nodelay s | handshake s _ | write s _ | flush s | read s _ | drop s | put s => some s
  | _ => none

theorem Net.uses_of_transfers {e : Net} {s : StreamId} (h : e.transfers = some s) :
    e.uses = some s := by
  cases e <;> simp_all [transfers, uses]

/-- The stream that was handed out. -/
def gained : Event Net Net.Answer → Option StreamId
  | ⟨.take _, r⟩ => r
  | ⟨.connect _, r⟩ => r.toOption
  | _ => none

theorem gained_of_transfers {ev : Event Net Net.Answer} {s : StreamId}
    (h : ev.1.transfers = some s) : gained ev = none := by
  obtain ⟨e, r⟩ := ev
  cases e <;> first | rfl | cases h

/-- The streams an exchange has after one more action. -/
def own (held : List StreamId) (ev : Event Net Net.Answer) : List StreamId :=
  match ev with
  | ⟨.put s, _⟩ | ⟨.drop s, _⟩ => held.erase s
  | ev => (gained ev).toList ++ held

def owned (past : NetTrace) : List StreamId := past.foldl own []

theorem owned_concat (past : NetTrace) (ev : Event Net Net.Answer) :
    owned (past ++ [ev]) = own (owned past) ev := by
  simp [owned]

theorem own_of_transfers {ev : Event Net Net.Answer} {s : StreamId} (h : ev.1.transfers = some s)
    (held : List StreamId) : own held ev = held := by
  obtain ⟨e, r⟩ := ev
  cases e <;> first | rfl | cases h

theorem mem_own {held : List StreamId} {ev : Event Net Net.Answer} {s : StreamId}
    (h : s ∈ own held ev) : gained ev = some s ∨ s ∈ held := by
  unfold own at h
  split at h
  · exact .inr (List.mem_of_mem_erase h)
  · exact .inr (List.mem_of_mem_erase h)
  · simpa using h

/-- What went over a stream. -/
def transfers (s : StreamId) (tr : NetTrace) : NetTrace :=
  tr.filter fun ev => ev.1.transfers = some s

theorem transfers_append (s : StreamId) (tr tr' : NetTrace) :
    transfers s (tr ++ tr') = transfers s tr ++ transfers s tr' :=
  List.filter_append ..

theorem transfers_singleton {s : StreamId} {ev : Event Net Net.Answer}
    (h : ev.1.transfers ≠ some s) : transfers s [ev] = [] := by
  simp [transfers, h]

/-- What went over a stream since it was handed out. -/
def session (s : StreamId) (past : NetTrace) : NetTrace :=
  past.foldl (fun l ev => if gained ev = some s then [] else l ++ transfers s [ev]) []

theorem session_concat (s : StreamId) (past : NetTrace) (ev : Event Net Net.Answer) :
    session s (past ++ [ev]) =
      if gained ev = some s then [] else session s past ++ transfers s [ev] := by
  simp [session]

/-- Actions that only transfer over one stream leave it with who has it, and add to its session. -/
theorem transferred {s : StreamId} {past tr : NetTrace} (h : ∀ ev ∈ tr, ev.1.transfers = some s) :
    owned (past ++ tr) = owned past ∧ session s (past ++ tr) = session s past ++ tr := by
  induction tr using List.reverseRecOn with
  | nil => simp
  | append_singleton tr ev ih =>
    obtain ⟨hown, hsession⟩ := ih fun ev' hev' => h ev' (by simp [hev'])
    have hev := h ev (by simp)
    have hgained : gained ev ≠ some s := by simp [gained_of_transfers hev]
    have hone : transfers s [ev] = [ev] := by simp [transfers, hev]
    rw [← List.append_assoc, owned_concat, session_concat, if_neg hgained, hown, hsession, hone,
      List.append_assoc]
    exact ⟨own_of_transfers hev _, rfl⟩

/-! ### What an exchange minds -/

namespace Upstream

variable [Crates]

/-- An exchange works on streams it has, asks the pool with the time it read, and puts back a stream
over which its query was answered. -/
structure Minds (past : NetTrace) (e : Net) : Prop where
  uses : ∀ s, e.uses = some s → s ∈ owned past
  take : ∀ now, e = .take now → ⟨.now, now⟩ ∈ past
  put : ∀ s, e = .put s → ∃ q m, Ends (framedExchange s q) (session s past) (.ok m)

/-- Nothing but transfers over `s`. -/
def onStream (s : StreamId) : Contract Unit Net Net.Answer where
  guar e := e.transfers = some s
  rely _ _ := True
  held _ := True

theorem framedExchange_sat (s : StreamId) (q : Message) :
    (framedExchange s q).Sat (onStream s) fun _ => True := by
  have one {e : Net} (h : e.transfers = some s) : (Talk.awaited e).Sat (onStream s) fun _ => True :=
    ⟨trivial, h, fun _ _ => trivial⟩
  have next {α β : Type} {p : Talk (Except Error α)} {f : α → Talk (Except Error β)}
      (hp : p.Sat (onStream s) fun _ => True) (hf : ∀ a, (f a).Sat (onStream s) fun _ => True) :
      (Talk.andThen p f).Sat (onStream s) fun _ => True := by
    refine hp.bind fun r _ => ?_
    cases r with
    | error e => trivial
    | ok a => exact hf a
  refine next ?_ fun _ => next ?_ fun _ => trivial
  · rw [writeFramed]
    cases encode q with
    | error e => trivial
    | ok bytes =>
      dsimp only
      split_ifs
      · trivial
      · exact next (one rfl) fun _ => next (one rfl) fun _ => one rfl
  · refine next (one rfl) fun header => ?_
    dsimp only
    split_ifs
    · trivial
    · exact next (one rfl) fun _ => trivial

/-- An exchange over a stream it has leaves it with the stream, and is what is added to the
session. -/
theorem framedExchange_session {s : StreamId} {q : Message} {tr : NetTrace}
    {r : Except Error Message} (h : Ends (framedExchange s q) tr r) (past : NetTrace) :
    owned (past ++ tr) = owned past ∧ session s (past ++ tr) = session s past ++ tr :=
  transferred ((framedExchange_sat s q).ends h fun _ _ => trivial).1

theorem framedExchange_minds {s : StreamId} {past : NetTrace} (h : s ∈ owned past) (q : Message) :
    (framedExchange s q).Heeds Minds past := by
  refine Heeds.of_sat (framedExchange_sat s q) (fun _ _ => trivial) fun tr e htr he => ?_
  have howned : owned (past ++ tr) = owned past := (transferred htr).1
  constructor
  · intro s' hs'
    have huses := Net.uses_of_transfers he
    rw [hs', Option.some.injEq] at huses
    rwa [howned, huses]
  · rintro now rfl
    cases he
  · rintro s' rfl
    cases he

/-- A way of connecting: it minds what it does, and hands out a stream over which nothing went. -/
structure Connects (connect : Talk (Except Error StreamId)) : Prop where
  minds : ∀ past, connect.Heeds Minds past
  ready : ∀ {tr s}, Ends connect tr (.ok s) → ∀ past,
    s ∈ owned (past ++ tr) ∧ session s (past ++ tr) = []

/-- An action that asks nothing of the past. -/
theorem Minds.free {e : Net} (huses : e.uses = none) (htake : ∀ now, e ≠ .take now)
    (past : NetTrace) : Minds past e where
  uses s hs := by rw [huses] at hs; cases hs
  take now he := absurd he (htake now)
  put s he := by rw [he] at huses; cases huses

/-- An action on a stream that is there. -/
theorem Minds.use {e : Net} {s : StreamId} {past : NetTrace} (huses : e.uses = some s)
    (hs : s ∈ owned past) (htake : ∀ now, e ≠ .take now) (hput : ∀ s, e ≠ .put s) :
    Minds past e where
  uses s' hs' := by rw [huses, Option.some.injEq] at hs'; rwa [← hs']
  take now he := absurd he (htake now)
  put s he := absurd he (hput s)

theorem connectTcp_connects (dest : SocketAddr) : Connects (connectTcp dest) := by
  constructor
  · intro past
    refine ⟨.free rfl (fun _ => by simp) past, fun r => ?_⟩
    cases r with
    | error e => trivial
    | ok s =>
      have hs : s ∈ owned (past ++ [⟨.connect dest, .ok s⟩]) := by
        rw [owned_concat]
        exact List.mem_cons_self
      refine ⟨.use rfl hs (fun _ => by simp) fun _ => by simp, fun r => ?_⟩
      cases r with
      | error e =>
        refine ⟨.use rfl ?_ (fun _ => by simp) fun _ => by simp, fun _ => trivial⟩
        rw [owned_concat]
        exact hs
      | ok u => trivial
  · intro tr s h past
    obtain ⟨tr₁, tr₂, s', rfl, hconnect, hset⟩ := Talk.andThen_ok h
    obtain ⟨r, tr₃, rfl, hend⟩ := ends_act hset
    cases r with
    | error e =>
      obtain ⟨_, _, -, hfail⟩ := ends_act hend
      cases (ends_done hfail).2
    | ok u =>
      obtain ⟨rfl, hs⟩ := ends_done hend
      cases hs
      rw [Talk.ends_awaited hconnect, ← List.append_assoc, owned_concat, owned_concat,
        session_concat, session_concat]
      refine ⟨List.mem_cons_self, ?_⟩
      have hgained : gained ⟨.connect dest, .ok s⟩ = some s := rfl
      rw [if_pos hgained]
      rfl

/-- The rule for going on after success. -/
theorem Minds.andThen {α β : Type} {p : Talk (Except Error α)} {f : α → Talk (Except Error β)}
    {past : NetTrace} (hp : p.Heeds Minds past)
    (hf : ∀ tr a, Ends p tr (.ok a) → (f a).Heeds Minds (past ++ tr)) :
    (Talk.andThen p f).Heeds Minds past := by
  refine hp.bind fun tr r h => ?_
  cases r with
  | error e => trivial
  | ok a => exact hf tr a h

theorem connectTls_connects (dest : SocketAddr) (sni : String) : Connects (connectTls dest sni) := by
  have htcp := connectTcp_connects dest
  constructor
  · intro past
    refine Minds.andThen (htcp.minds past) fun tr s h => ?_
    obtain ⟨hs, -⟩ := htcp.ready h past
    refine ⟨.free rfl (fun _ => by simp) _, fun name => ?_⟩
    have hname : s ∈ owned (past ++ tr ++ [⟨.serverName sni, name⟩]) := by
      rw [owned_concat]
      exact hs
    cases name with
    | error e => exact ⟨.use rfl hname (fun _ => by simp) fun _ => by simp, fun _ => trivial⟩
    | ok u =>
      refine ⟨.use rfl hname (fun _ => by simp) fun _ => by simp, fun r => ?_⟩
      cases r with
      | error e =>
        refine ⟨.use rfl ?_ (fun _ => by simp) fun _ => by simp, fun _ => trivial⟩
        rw [owned_concat]
        exact hname
      | ok u => trivial
  · intro tr s h past
    obtain ⟨tr₁, tr₂, s', rfl, hconnect, hset⟩ := Talk.andThen_ok h
    obtain ⟨name, tr₃, rfl, hnamed⟩ := ends_act hset
    cases name with
    | error e =>
      obtain ⟨_, _, -, hfail⟩ := ends_act hnamed
      cases (ends_done hfail).2
    | ok u =>
      obtain ⟨r, tr₄, rfl, hend⟩ := ends_act (ends_await hnamed)
      cases r with
      | error e =>
        obtain ⟨_, _, -, hfail⟩ := ends_act hend
        cases (ends_done hfail).2
      | ok u =>
        obtain ⟨rfl, hs⟩ := ends_done hend
        cases hs
        obtain ⟨hs, hsession⟩ := htcp.ready hconnect past
        rw [← List.append_assoc, List.append_cons, owned_concat, owned_concat, session_concat,
          session_concat, hsession]
        exact ⟨hs, rfl⟩

/-- A stream over which the query was answered may be put back. -/
theorem put_minds {s : StreamId} {q m : Message} {past tr : NetTrace} (hs : s ∈ owned past)
    (hsession : session s past = []) (h : Ends (framedExchange s q) tr (.ok m)) :
    (act (.put s) fun _ => done (.ok m) : Talk (Except Error Message)).Heeds Minds (past ++ tr) := by
  obtain ⟨howned, hadded⟩ := framedExchange_session h past
  refine ⟨⟨?_, ?_, ?_⟩, fun _ => trivial⟩
  · intro s' hs'
    cases hs'
    rwa [howned]
  · rintro now he
    cases he
  · rintro s' he
    cases he
    refine ⟨q, m, ?_⟩
    rwa [hadded, hsession]

/-- A stream that failed may be dropped. -/
theorem drop_minds {s : StreamId} {q : Message} {past tr : NetTrace} {r : Except Error Message}
    (hs : s ∈ owned past) (h : Ends (framedExchange s q) tr r) : Minds (past ++ tr) (.drop s) := by
  refine .use rfl ?_ (fun _ => by simp) fun _ => by simp
  rwa [(framedExchange_session h past).1]

theorem freshExchange_minds {connect : Talk (Except Error StreamId)} (hc : Connects connect)
    (q : Message) (past : NetTrace) : (freshExchange connect q).Heeds Minds past := by
  refine Minds.andThen (hc.minds past) fun tr s hconnect => ?_
  obtain ⟨hs, hsession⟩ := hc.ready hconnect past
  refine (framedExchange_minds hs q).bind fun tr' r hframed => ?_
  cases r with
  | error e => exact ⟨drop_minds hs hframed, fun _ => trivial⟩
  | ok m => exact put_minds hs hsession hframed

/-- From its start on an exchange minds what it does with streams. -/
theorem exchangePooled_minds {connect : Talk (Except Error StreamId)} (hc : Connects connect)
    (q : Message) : (exchangePooled connect q).Heeds Minds [] := by
  refine ⟨.free rfl (fun _ => by simp) _, fun now => ⟨⟨?_, ?_, ?_⟩, fun taken => ?_⟩⟩
  · rintro s hs
    cases hs
  · rintro now' he
    cases he
    exact List.mem_cons_self
  · rintro s he
    cases he
  · cases taken with
    | none => exact freshExchange_minds hc q _
    | some s =>
      have hs : s ∈ owned [⟨.now, now⟩, ⟨.take now, some s⟩] := List.mem_cons_self
      have hsession : session s [⟨.now, now⟩, ⟨.take now, some s⟩] = [] := by
        simp [session, gained]
      refine (framedExchange_minds hs q).bind fun tr r hframed => ?_
      cases r with
      | error e => exact ⟨drop_minds hs hframed, fun _ => freshExchange_minds hc q _⟩
      | ok m => exact put_minds hs hsession hframed

theorem Pooled.minds {p : Talk (Except Error Message)} (h : Pooled p) : p.Heeds Minds [] := by
  cases h with
  | tcp dest q => exact exchangePooled_minds (connectTcp_connects dest) q
  | tls dest sni q => exact exchangePooled_minds (connectTls_connects dest sni) q

/-! ### One action on the world -/

omit [Crates] in
theorem perform_opened {w w' : NetWorld} {e : Net} {r : e.Answer} (h : w.perform e r w') :
    w.opened ≤ w'.opened ∧ w'.pool.cap = w.pool.cap ∧ w'.pool.idle = w.pool.idle := by
  cases e with
  | now =>
    obtain ⟨-, rfl⟩ := h
    exact ⟨le_rfl, rfl, rfl⟩
  | take now =>
    obtain ⟨-, rfl⟩ := h
    exact ⟨le_rfl, rfl, rfl⟩
  | put s =>
    cases h
    refine ⟨le_rfl, ?_⟩
    dsimp only
    rw [StreamPool.put]
    split_ifs
    · exact ⟨rfl, rfl⟩
    · exact ⟨rfl, rfl⟩
  | connect dest =>
    cases r with
    | error e => cases h; exact ⟨le_rfl, rfl, rfl⟩
    | ok s =>
      obtain ⟨-, rfl⟩ := h
      exact ⟨Nat.le_succ _, rfl, rfl⟩
  | _ => cases h; exact ⟨le_rfl, rfl, rfl⟩

omit [Crates] in
/-- A stream handed out was in the pool or is new. -/
theorem gained_of_perform {w w' : NetWorld} {e : Net} {r : e.Answer} {s : StreamId}
    (h : w.perform e r w') (hs : gained ⟨e, r⟩ = some s) : s ∈ w.pool.ids ∨ s = w.opened := by
  cases e with
  | take now =>
    obtain ⟨hr, -⟩ := h
    obtain ⟨stale, t, heq, -⟩ := StreamPool.takeSlots_some (hr.symm.trans hs)
    refine .inl (List.mem_map.2 ⟨(s, t), ?_, rfl⟩)
    rw [heq]
    exact List.mem_append_right _ List.mem_cons_self
  | connect dest =>
    cases r with
    | error e => cases hs
    | ok s' =>
      cases hs
      exact .inr h.1
  | _ => cases hs

omit [Crates] in
/-- A stream in the pool was there or is put back now. -/
theorem ids_of_perform {w w' : NetWorld} {e : Net} {r : e.Answer} {s : StreamId}
    (h : w.perform e r w') (hs : s ∈ w'.pool.ids) : s ∈ w.pool.ids ∨ e = .put s := by
  cases e with
  | now =>
    obtain ⟨-, rfl⟩ := h
    exact .inl hs
  | take now =>
    obtain ⟨-, rfl⟩ := h
    have hsub := (StreamPool.takeSlots_suffix now w.pool.idle w.pool.slots).sublist.map Prod.fst
    exact .inl (hsub.subset hs)
  | put s' =>
    cases h
    dsimp only at hs
    rw [StreamPool.put] at hs
    split_ifs at hs
    · rcases List.mem_cons.1 hs with rfl | hs
      · exact .inr rfl
      · exact .inl hs
    · exact .inl hs
  | connect dest =>
    cases r with
    | error e => cases h; exact .inl hs
    | ok s' =>
      obtain ⟨-, rfl⟩ := h
      exact .inl hs
  | _ => cases h; exact .inl hs

/-- An action moves streams between the pool and who acts; only a new stream comes in addition. -/
theorem count_of_perform {w w' : NetWorld} {e : Net} {r : e.Answer} {past : NetTrace}
    (h : w.perform e r w') (hm : Minds past e) (s : StreamId) :
    w'.pool.ids.count s + (own (owned past) ⟨e, r⟩).count s ≤
      w.pool.ids.count s + (owned past).count s +
        if w.opened ≤ s ∧ s < w'.opened then 1 else 0 := by
  cases e with
  | now =>
    obtain ⟨-, rfl⟩ := h
    exact Nat.le_add_right _ _
  | take now =>
    obtain ⟨hr, rfl⟩ := h
    refine le_trans ?_ (Nat.le_add_right _ _)
    cases r with
    | none =>
      have hnone : (w.pool.take now).2.slots = [] := StreamPool.takeSlots_none hr.symm
      simp [StreamPool.ids, hnone, own, gained]
    | some s' =>
      obtain ⟨stale, t, heq, -⟩ := StreamPool.takeSlots_some hr.symm
      have hids : w.pool.ids = stale.map Prod.fst ++ s' :: (w.pool.take now).2.ids := by
        rw [StreamPool.ids, heq, List.map_append]
        rfl
      have hown : own (owned past) ⟨.take now, some s'⟩ = s' :: owned past := rfl
      rw [hids, hown, List.count_append, List.count_cons, List.count_cons]
      dsimp only
      omega
  | put s' =>
    cases h
    refine le_trans ?_ (Nat.le_add_right _ _)
    have hown : own (owned past) ⟨.put s', r⟩ = (owned past).erase s' := rfl
    have hheld : 0 < (owned past).count s' := List.count_pos_iff.2 (hm.uses s' rfl)
    rw [hown]
    dsimp only
    rw [StreamPool.put]
    split_ifs
    · simp only [StreamPool.ids, List.map_cons, List.count_cons]
      by_cases hs : s' = s
      · subst hs
        rw [List.count_erase_self, if_pos (beq_self_eq_true s')]
        omega
      · rw [List.count_erase_of_ne (Ne.symm hs), if_neg (by simpa using hs)]
        rfl
    · exact Nat.add_le_add_left (List.erase_sublist.count_le s) _
  | drop s' =>
    cases h
    refine le_trans ?_ (Nat.le_add_right _ _)
    have hown : own (owned past) ⟨.drop s', r⟩ = (owned past).erase s' := rfl
    rw [hown]
    exact Nat.add_le_add_left (List.erase_sublist.count_le s) _
  | connect dest =>
    cases r with
    | error e =>
      cases h
      exact Nat.le_add_right _ _
    | ok s' =>
      obtain ⟨rfl, rfl⟩ := h
      have hown : own (owned past) ⟨.connect dest, .ok w.opened⟩ = w.opened :: owned past := rfl
      rw [hown, List.count_cons]
      dsimp only
      by_cases hs : w.opened = s
      · subst hs
        simp
        omega
      · simp [hs]
  | _ =>
    cases h
    exact Nat.le_add_right _ _

/-! ### Every run -/

omit [Crates] in
/-- How often an exchange has a stream. -/
def Talking.has (s : StreamId) (t : Talking) : ℕ := (owned t.past).count s

omit [Crates] in
/-- How often a stream is in the pool or with an exchange. -/
def Exchanges.owners (c : Exchanges) (s : StreamId) : ℕ :=
  c.world.pool.ids.count s + (c.members.map (Talking.has s)).sum

omit [Crates] in
theorem owners_split (w : NetWorld) (l l' : List Talking) (t : Talking) (s : StreamId) :
    Exchanges.owners ⟨w, l ++ t :: l'⟩ s = w.pool.ids.count s + (owned t.past).count s +
      ((l ++ l').map (Talking.has s)).sum := by
  simp only [Exchanges.owners, List.map_append, List.map_cons, List.sum_append, List.sum_cons]
  rw [Talking.has]
  omega

omit [Crates] in
/-- Nobody else has the stream of an exchange. -/
theorem alone {w : NetWorld} {l l' : List Talking} {t : Talking} {s : StreamId}
    (h : Exchanges.owners ⟨w, l ++ t :: l'⟩ s ≤ 1) (hs : s ∈ owned t.past) :
    s ∉ w.pool.ids ∧ ∀ t' ∈ l ++ l', s ∉ owned t'.past := by
  have hone : 0 < (owned t.past).count s := List.count_pos_iff.2 hs
  rw [owners_split] at h
  constructor
  · intro hids
    have htwo := List.count_pos_iff.2 hids
    omega
  · intro t' ht' hs'
    have htwo : 0 < (owned t'.past).count s := List.count_pos_iff.2 hs'
    have hle : (owned t'.past).count s ≤ ((l ++ l').map (Talking.has s)).sum :=
      List.single_le_sum (fun _ _ => Nat.zero_le _) _ (List.mem_map.2 ⟨t', ht', rfl⟩)
    omega

/-- These are whole exchanges over the stream, each with a response that was accepted. -/
inductive Settled (s : StreamId) : NetTrace → Prop
  | nil : Settled s []
  | exchange {tr tr' : NetTrace} {q m : Message} (h : Settled s tr)
      (hs : Ends (framedExchange s q) tr' (.ok m)) : Settled s (tr ++ tr')

/-- The state after everything in the log. -/
structure Sound (cap idle : ℕ) (log : NetTrace) (c : Exchanges) : Prop where
  cap_eq : c.world.pool.cap = max cap 1
  idle_eq : c.world.pool.idle = idle
  started : ∀ t ∈ c.members, Pooled t.start
  single : ∀ s, c.owners s ≤ 1
  unopened : ∀ s, c.world.opened ≤ s → c.owners s = 0 ∧ transfers s log = []
  resting : ∀ s ∈ c.world.pool.ids, Settled s (transfers s log)
  working : ∀ t ∈ c.members, ∀ s ∈ owned t.past,
    ∃ l, Settled s l ∧ transfers s log = l ++ session s t.past

variable {cap idle : ℕ} {log : NetTrace}

theorem Sound.fresh (cap idle clock opened : ℕ) :
    Sound cap idle [] (Exchanges.fresh cap idle clock opened) where
  cap_eq := rfl
  idle_eq := rfl
  started := by simp [Exchanges.fresh]
  single _ := Nat.zero_le _
  unopened _ _ := ⟨rfl, rfl⟩
  resting := by simp [Exchanges.fresh, StreamPool.new, StreamPool.ids]
  working := by simp [Exchanges.fresh]

/-- An exchange about to act minds what it does. -/
theorem Sound.minds {c : Exchanges} (h : Sound cap idle log c) {t : Talking} (ht : t ∈ c.members)
    {e : Net} {k : e.Answer → Talk (Except Error Message)} (hrest : t.rest = .act e k) :
    Minds t.past e :=
  t.heeds (h.started t ht).minds hrest

/-- A stream that an action transfers over is with who acts, and with nobody else. -/
theorem Sound.foreign {w : NetWorld} {l l' : List Talking} {t : Talking}
    (h : Sound cap idle log ⟨w, l ++ t :: l'⟩) {e : Net} (hm : Minds t.past e) (r : e.Answer)
    {s : StreamId} (hs : s ∈ w.pool.ids ∨ (∃ t' ∈ l ++ l', s ∈ owned t'.past) ∨ w.opened ≤ s) :
    transfers s [⟨e, r⟩] = [] := by
  apply transfers_singleton
  intro he
  have hmine := hm.uses s (Net.uses_of_transfers he)
  obtain ⟨hpool, hothers⟩ := alone (h.single s) hmine
  rcases hs with hs | ⟨t', ht', hs⟩ | hs
  · exact hpool hs
  · exact hothers t' ht' hs
  · have hzero := (h.unopened s hs).1
    have hone : 0 < (owned t.past).count s := List.count_pos_iff.2 hmine
    rw [owners_split] at hzero
    omega

theorem Sound.acted {w w' : NetWorld} {l l' : List Talking} {t : Talking} {e : Net}
    {k : e.Answer → Talk (Except Error Message)} (h : Sound cap idle log ⟨w, l ++ t :: l'⟩)
    (hrest : t.rest = .act e k) {r : e.Answer} (hw : w.perform e r w') :
    Sound cap idle (log ++ [⟨e, r⟩]) ⟨w', l ++ t.acted hrest r :: l'⟩ := by
  have ht : t ∈ l ++ t :: l' := by simp
  have hm := h.minds ht hrest
  obtain ⟨hopened, hcap, hidle⟩ := perform_opened hw
  have howners (s : StreamId) : Exchanges.owners ⟨w', l ++ t.acted hrest r :: l'⟩ s ≤
      Exchanges.owners ⟨w, l ++ t :: l'⟩ s + if w.opened ≤ s ∧ s < w'.opened then 1 else 0 := by
    have hcount := count_of_perform hw hm s
    rw [owners_split, owners_split]
    dsimp only
    rw [owned_concat]
    omega
  -- what was handed out, now or before, came from the pool or is new
  have hgained {s : StreamId} (hs : gained ⟨e, r⟩ = some s) :
      Settled s (transfers s (log ++ [⟨e, r⟩])) := by
    rw [transfers_append]
    rcases gained_of_perform hw hs with hpool | rfl
    · rw [h.foreign hm r (.inl hpool), List.append_nil]
      exact h.resting s hpool
    · rw [h.foreign hm r (.inr (.inr le_rfl)), (h.unopened _ le_rfl).2]
      exact .nil
  refine ⟨hcap.trans h.cap_eq, hidle.trans h.idle_eq, ?_, ?_, ?_, ?_, ?_⟩
  · intro t' ht'
    rcases List.mem_append.1 ht' with ht' | ht'
    · exact h.started t' (List.mem_append_left _ ht')
    · rcases List.mem_cons.1 ht' with rfl | ht'
      · exact h.started t ht
      · exact h.started t' (List.mem_append_right _ (List.mem_cons_of_mem _ ht'))
  · intro s
    have hs := howners s
    split_ifs at hs with hnew
    · have hzero := (h.unopened s hnew.1).1
      omega
    · have hone := h.single s
      omega
  · intro s hs
    have hlong := howners s
    rw [if_neg fun hnew => absurd hnew.2 (not_lt.2 hs)] at hlong
    obtain ⟨hzero, hnone⟩ := h.unopened s (hopened.trans hs)
    refine ⟨by omega, ?_⟩
    rw [transfers_append, hnone, h.foreign hm r (.inr (.inr (hopened.trans hs)))]
    rfl
  · intro s hs
    rcases ids_of_perform hw hs with hpool | rfl
    · rw [transfers_append, h.foreign hm r (.inl hpool), List.append_nil]
      exact h.resting s hpool
    · obtain ⟨past, hpast, heq⟩ := h.working t ht s (hm.uses s rfl)
      obtain ⟨q, m, hframed⟩ := hm.put s rfl
      rw [transfers_append, heq]
      simpa [transfers, Net.transfers] using hpast.exchange hframed
  · intro t' ht' s hs
    by_cases hself : t' = t.acted hrest r
    · subst hself
      dsimp only at hs ⊢
      rw [session_concat]
      split_ifs with hnow
      · exact ⟨_, hgained hnow, (List.append_nil _).symm⟩
      · rw [owned_concat] at hs
        obtain ⟨past, hpast, heq⟩ := h.working t ht s ((mem_own hs).resolve_left hnow)
        refine ⟨past, hpast, ?_⟩
        rw [transfers_append, heq, List.append_assoc]
    · have hother : t' ∈ l ++ l' := by
        rcases List.mem_append.1 ht' with ht' | ht'
        · exact List.mem_append_left _ ht'
        · exact List.mem_append_right _ ((List.mem_cons.1 ht').resolve_left hself)
      have hold : t' ∈ l ++ t :: l' := ((List.sublist_cons_self t l').append_left l).subset hother
      rw [transfers_append, h.foreign hm r (.inr (.inl ⟨t', hother, hs⟩)), List.append_nil]
      exact h.working t' hold s hs

theorem Sound.moved {w : NetWorld} {l l' : List Talking} {t : Talking}
    {q : Talk (Except Error Message)} (h : Sound cap idle log ⟨w, l ++ t :: l'⟩)
    (hq : Leads t.rest [] q) : Sound cap idle log ⟨w, l ++ t.moved hq :: l'⟩ := by
  have hsame (P : Talking → Prop) (hP : P t → P (t.moved hq)) (hall : ∀ t' ∈ l ++ t :: l', P t') :
      ∀ t' ∈ l ++ t.moved hq :: l', P t' := by
    intro t' ht'
    simp only [List.mem_append, List.mem_cons] at ht'
    rcases ht' with ht' | rfl | ht'
    · exact hall t' (by simp [ht'])
    · exact hP (hall t (by simp))
    · exact hall t' (by simp [ht'])
  have howners (s : StreamId) :
      Exchanges.owners ⟨w, l ++ t.moved hq :: l'⟩ s = Exchanges.owners ⟨w, l ++ t :: l'⟩ s := by
    rw [owners_split, owners_split]
  refine ⟨h.cap_eq, h.idle_eq, hsame _ id h.started, fun s => ?_, fun s hs => ?_, h.resting,
    hsame _ id h.working⟩
  · rw [howners]
    exact h.single s
  · rw [howners]
    exact h.unopened s hs

/-- An exchange that is given up takes its streams with it. -/
theorem Sound.left {w : NetWorld} {l l' : List Talking} {t : Talking}
    (h : Sound cap idle log ⟨w, l ++ t :: l'⟩) : Sound cap idle log ⟨w, l ++ l'⟩ := by
  have hold {t' : Talking} (ht' : t' ∈ l ++ l') : t' ∈ l ++ t :: l' :=
    ((List.sublist_cons_self t l').append_left l).subset ht'
  have howners (s : StreamId) :
      Exchanges.owners ⟨w, l ++ l'⟩ s ≤ Exchanges.owners ⟨w, l ++ t :: l'⟩ s := by
    rw [owners_split, Exchanges.owners]
    dsimp only
    omega
  refine ⟨h.cap_eq, h.idle_eq, fun t' ht' => h.started t' (hold ht'), fun s => ?_,
    fun s hs => ⟨?_, (h.unopened s hs).2⟩, h.resting, fun t' ht' => h.working t' (hold ht')⟩
  · exact (howners s).trans (h.single s)
  · exact Nat.le_zero.1 ((howners s).trans (h.unopened s hs).1.le)

theorem Sound.arrived {w : NetWorld} {l : List Talking} {p : Talk (Except Error Message)}
    (h : Sound cap idle log ⟨w, l⟩) (hp : Pooled p) :
    Sound cap idle log ⟨w, l ++ [Member.begin p]⟩ := by
  have howners (s : StreamId) :
      Exchanges.owners ⟨w, l ++ [Member.begin p]⟩ s = Exchanges.owners ⟨w, l⟩ s := by
    rw [owners_split, List.append_nil]
    rfl
  refine ⟨h.cap_eq, h.idle_eq, ?_, fun s => ?_, fun s hs => ?_, h.resting, ?_⟩
  · intro t' ht'
    rcases List.mem_append.1 ht' with ht' | ht'
    · exact h.started t' ht'
    · rw [List.mem_singleton.1 ht']
      exact hp
  · rw [howners]
    exact h.single s
  · rw [howners]
    exact h.unopened s hs
  · intro t' ht' s hs
    rcases List.mem_append.1 ht' with ht' | ht'
    · exact h.working t' ht' s hs
    · rw [List.mem_singleton.1 ht'] at hs
      cases hs

theorem Sound.step {c c' : Exchanges} {ev : Option (Talking × Event Net Net.Answer)}
    (h : Sound cap idle log c) (hs : Crew.Step site c ev c') :
    Sound cap idle (log ++ (ev.map Prod.snd).toList) c' := by
  cases hs with
  | act hrest r hw => exact h.acted hrest hw
  | move hq =>
    rw [Option.map_none, Option.toList_none, List.append_nil]
    exact h.moved hq
  | leave =>
    rw [Option.map_none, Option.toList_none, List.append_nil]
    exact h.left
  | drift hd =>
    cases hd with
    | tick =>
      rw [Option.map_none, Option.toList_none, List.append_nil]
      exact ⟨h.cap_eq, h.idle_eq, h.started, h.single, h.unopened, h.resting, h.working⟩
  | arrive hp =>
    rw [Option.map_none, Option.toList_none, List.append_nil]
    exact h.arrived hp

theorem Sound.run {c₀ c : Exchanges} (h₀ : Sound cap idle [] c₀) (h : Crew.Run site c₀ log c) :
    Sound cap idle log c := by
  induction h with
  | refl => exact h₀
  | step _ hs ih => exact ih.step hs

/-! ### The exchange itself -/

/-- What an exchange does after it took a stream: it ends with the response accepted over it, or
drops it and is the exchange over a fresh one. -/
inductive Reused (connect : Talk (Except Error StreamId)) (q : Message) (s : StreamId) :
    NetTrace → Except Error Message → Prop
  | accepted {tr : NetTrace} {m : Message} (h : Ends (framedExchange s q) tr (.ok m)) :
      Reused connect q s (tr ++ [⟨.put s, ()⟩]) (.ok m)
  | failed {tr tr' : NetTrace} {e : Error} {r : Except Error Message}
      (h : Ends (framedExchange s q) tr (.error e)) (h' : Ends (freshExchange connect q) tr' r) :
      Reused connect q s (tr ++ ⟨.drop s, ()⟩ :: tr') r

theorem exchangePooled_eq (connect : Talk (Except Error StreamId)) (q : Message) :
    exchangePooled connect q = act .now fun (now : ℕ) =>
      act (.take now) fun (taken : Option StreamId) =>
        match taken with
        | none => freshExchange connect q
        | some s => (framedExchange s q).bind fun r =>
          match r with
          | .ok msg => act (.put s) fun _ => done (.ok msg)
          | .error _ => act (.drop s) fun _ => freshExchange connect q :=
  rfl

theorem exchangePooled_taken (connect : Talk (Except Error StreamId)) (q : Message) (now : ℕ)
    (s : StreamId) (tr : NetTrace) (r : Except Error Message) :
    Ends (exchangePooled connect q) (⟨.now, now⟩ :: ⟨.take now, some s⟩ :: tr) r ↔
      Reused connect q s tr r := by
  rw [exchangePooled_eq]
  constructor
  · intro h
    obtain ⟨n, tr₀, hn, htake⟩ := ends_act h
    cases hn
    obtain ⟨taken, tr₀, hs, htaken⟩ := ends_act htake
    cases hs
    obtain ⟨tr₁, tr₂, x, rfl, hframed, hrest⟩ := ends_bind htaken
    cases x with
    | error e =>
      obtain ⟨_, tr₃, rfl, hfresh⟩ := ends_act hrest
      exact .failed hframed hfresh
    | ok m =>
      obtain ⟨_, tr₃, rfl, hdone⟩ := ends_act hrest
      obtain ⟨rfl, rfl⟩ := ends_done hdone
      exact .accepted hframed
  · intro h
    apply Leads.act
    apply Leads.act
    cases h with
    | @accepted tr m hframed =>
      have hput : Ends (act (.put s) fun _ => done (.ok m) : Talk (Except Error Message))
          [⟨.put s, ()⟩] (.ok m) := by
        apply Leads.act
        exact .refl _
      exact hframed.bind hput
    | @failed tr tr' e r hframed hfresh =>
      have hdrop : Ends (act (.drop s) fun _ => freshExchange connect q) (⟨.drop s, ()⟩ :: tr') r := by
        apply Leads.act
        exact hfresh
      exact hframed.bind hdrop

/-- In every run of any number of exchanges, which may be dropped anywhere: the pool keeps its
capacity; a stream is in one place at most; over a pooled stream went whole exchanges only; a stream
is put back by the exchange that has it, and that got an accepted response over it; and a stream
taken was put back less than the idle limit before the time that was read. An exchange that fails
over a pooled stream returns what a fresh one yields. -/
theorem pool_sound (cap idle clock opened : ℕ) (log : NetTrace) (c : Exchanges)
    (h : Crew.Run site (Exchanges.fresh cap idle clock opened) log c) :
    c.world.pool.slots.length ≤ max cap 1 ∧
    (∀ s, c.owners s ≤ 1) ∧
    (∀ s ∈ c.world.pool.ids, Settled s (transfers s log)) ∧
    (∀ t ev c', Crew.Step site c (some (t, ev)) c' →
      (∀ s, ev.1 = .put s → s ∈ owned t.past ∧
        ∃ q m, Ends (framedExchange s q) (session s t.past) (.ok m) ∧ Accepts q m) ∧
      ∀ now s, ev = ⟨.take now, some s⟩ → ⟨.now, now⟩ ∈ t.past ∧
        ∃ since, (s, since) ∈ c.world.pool.slots ∧ now - since < idle) ∧
    ∀ connect q now s tr r,
      Ends (exchangePooled connect q) (⟨.now, now⟩ :: ⟨.take now, some s⟩ :: tr) r ↔
        Reused connect q s tr r := by
  have hsound := (Sound.fresh cap idle clock opened).run h
  refine ⟨hsound.cap_eq ▸ c.world.pool.bounded, hsound.single, hsound.resting, ?_,
    exchangePooled_taken⟩
  intro t ev c' hs
  cases hs with
  | act hrest r hw =>
    have hm := hsound.minds (by simp) hrest
    constructor
    · rintro s rfl
      obtain ⟨q, m, hframed⟩ := hm.put s rfl
      exact ⟨hm.uses s rfl, q, m, hframed, framedExchange_accepts hframed⟩
    · rintro now s hev
      cases hev
      obtain ⟨stale, since, heq, hidle⟩ := StreamPool.takeSlots_some hw.1.symm
      refine ⟨hm.take now rfl, since, ?_, hsound.idle_eq ▸ hidle⟩
      dsimp only
      rw [heq]
      exact List.mem_append_right _ List.mem_cons_self

/-! ### One exchange -/

section Sample

omit [Crates]

open Sample

/-- What a server sends that answers with the sample answer. -/
def sent (n : ℕ) : Bytes := if n = 2 then Frames.lengthOctets answerWire.length else answerWire

/-- A world in which all goes well. -/
def serving : Oracle NetWorld Unit Unit Net Net.Answer
  | w, .now => some (w.clock, w, [])
  | w, .take now => some ((w.pool.take now).1, { w with pool := (w.pool.take now).2 }, [])
  | w, .put s => some ((), { w with pool := w.pool.put s w.clock }, [])
  | w, .connect _ => some (.ok w.opened, { w with opened := w.opened + 1 }, [])
  | w, .nodelay _ => some (.ok (), w, [])
  | w, .write _ _ => some (.ok (), w, [])
  | w, .flush _ => some (.ok (), w, [])
  | w, .read _ n => if h : (sent n).length = n then some (.ok ⟨sent n, h⟩, w, []) else none
  | _, _ => none

theorem serving_performs {w w' : NetWorld} {e : Net} {r : e.Answer}
    {new : List (Unit × Prog Unit Net Net.Answer Unit)} (h : serving w e = some (r, w', new)) :
    w.perform e r w' := by
  cases e with
  | read s n =>
    simp only [serving] at h
    split_ifs at h
    cases h
    rfl
  | now => cases h; exact ⟨rfl, rfl⟩
  | take now => cases h; exact ⟨rfl, rfl⟩
  | put s => cases h; rfl
  | connect dest => cases h; exact ⟨rfl, rfl⟩
  | nodelay s => cases h; rfl
  | write s bytes => cases h; rfl
  | flush s => cases h; rfl
  | _ => cases h

def server : SocketAddr := ⟨.v4 0, 53⟩

/-- After an exchange its stream is in the pool, and what went over it is that exchange. -/
theorem pool_sound_one : ∃ (log : NetTrace) (c : Exchanges),
    @Crew.Run _ _ _ _ _ (@site codec) (Exchanges.fresh 8 10 0 0) log c ∧ c.world.pool.ids = [0] ∧
      @Settled codec 0 (transfers 0 log) := by
  have hplay : ((@tcpExchangePooled codec server query).play serving false ⟨.new 8 10, 0, 0⟩).map
      (fun x => x.2.2.1.pool.ids) = some [0] := by decide +kernel
  obtain ⟨⟨tr, a, w, new⟩, hp, hids⟩ := Option.map_eq_some_iff.1 hplay
  have harrive : @Crew.Run _ _ _ _ _ (@site codec) (Exchanges.fresh 8 10 0 0) []
      ⟨⟨.new 8 10, 0, 0⟩, [Member.begin (@tcpExchangePooled codec server query)]⟩ :=
    .step .refl (.arrive (@Pooled.tcp codec server query))
  obtain ⟨t, -, hrun⟩ := @Crew.play_run _ _ _ _ _ (@site codec) _ _ _ serving_performs _ _ _ _ _ _
    hp _ _ _ [] [] rfl harrive
  have hsound := @pool_sound codec 8 10 0 0 _ _ hrun
  exact ⟨_, _, hrun, hids, hsound.2.2.1 0 (by rw [hids]; exact List.mem_cons_self)⟩

end Sample

end Upstream

end FerrumDns
