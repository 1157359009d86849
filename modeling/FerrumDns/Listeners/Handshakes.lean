import FerrumDns.Listeners.Admission
import Mathlib.Data.List.Induction
import Mathlib.Tactic.Common

/-! TLS handshakes at the listeners. The stream listener counts free slots with a
semaphore, whose permit the task of a connection holds until its handshake is over, and
the HTTPS listener keeps its handshakes in a queue and looks at its length. Both let in
the same connections: a handshake is refused only while as many as are allowed are under
way, whatever becomes of the others, and connections that are established take no slot. -/

namespace FerrumDns

open Admission

/-- `MAX_TLS_HANDSHAKES`. -/
def maxTlsHandshakes : ℕ := 128

variable {ι : Type}

/-! ### The stream listener -/

/-- Where the task of a connection stands. Only a handshake holds a permit. -/
inductive Phase where
  | handshake
  | session
  deriving DecidableEq, Repr

/-- The accept loop of `spawn_tcp` with the tasks it started. -/
structure Acceptor (ι : Type) where
  tls : Bool
  slots : ℕ
  tasks : List (ι × Phase)

namespace Acceptor

def new (tls : Bool) : Acceptor ι := ⟨tls, maxTlsHandshakes, []⟩

/-- One round of the loop: without a permit the connection is dropped. -/
def accept (s : Acceptor ι) (x : ι) : Acceptor ι :=
  if s.tls then
    match s.slots with
    | 0 => s
    | n + 1 => { s with slots := n, tasks := s.tasks ++ [(x, .handshake)] }
  else { s with tasks := s.tasks ++ [(x, .session)] }

/-- A failed accept goes on; a handshake returns its permit when it is over, and with its task when
it fails, runs out of time or is dropped. -/
inductive Step : Acceptor ι → List (Event ι) → Acceptor ι → Prop
  | accepted {s : Acceptor ι} (x : ι) :
      Step s (if s.tls then [.come x] else [.come x, .pass x]) (s.accept x)
  | acceptError {s : Acceptor ι} : Step s [] s
  | secured {s : Acceptor ι} {x l l'} (h : s.tasks = l ++ (x, .handshake) :: l') :
      Step s [.pass x] { s with slots := s.slots + 1, tasks := l ++ (x, .session) :: l' }
  | failed {s : Acceptor ι} {x l l'} (h : s.tasks = l ++ (x, .handshake) :: l') :
      Step s [.fail x] { s with slots := s.slots + 1, tasks := l ++ l' }
  | closed {s : Acceptor ι} {x l l'} (h : s.tasks = l ++ (x, .session) :: l') :
      Step s [.leave x] { s with tasks := l ++ l' }

/-- The connections whose tasks are in this phase. -/
def inPhase (s : Acceptor ι) (p : Phase) : List ι :=
  s.tasks.filterMap fun t => if t.2 = p then some t.1 else none

/-- The room of the listener: its free slots are what the handshakes leave, and without TLS nobody
waits. -/
structure Stands (s : Acceptor ι) (r : Room ι) : Prop where
  waiting : r.waiting = s.inPhase .handshake
  passed : r.passed.Perm (s.inPhase .session)
  slots : s.slots + r.waiting.length = maxTlsHandshakes
  plain : s.tls = false → r.waiting = []

variable {s s' : Acceptor ι} {r : Room ι} {evs : List (Event ι)}

theorem Stands.waiting_split {x : ι} {l l' : List (ι × Phase)} (hs : Stands s r)
    (h : s.tasks = l ++ (x, .handshake) :: l') : r.waiting =
      inPhase ⟨s.tls, 0, l⟩ .handshake ++ x :: inPhase ⟨s.tls, 0, l'⟩ .handshake := by
  simp [hs.waiting, inPhase, h]

theorem Stands.accept (h : Stands s r) (x : ι) : ∃ r', Run maxTlsHandshakes r
    (if s.tls then [.come x] else [.come x, .pass x]) r' ∧ Stands (s.accept x) r' := by
  obtain ⟨tls, slots, tasks⟩ := s
  obtain ⟨hwait, hpass, hslots, hplain⟩ := h
  cases tls with
  | true =>
    cases slots with
    | zero =>
      -- No permit is left, so all of them are held by handshakes.
      have hfull : maxTlsHandshakes ≤ r.waiting.length := by
        simp only at hslots
        omega
      exact ⟨_, .step .refl (.refuse hfull), hwait, hpass, hslots, hplain⟩
    | succ n =>
      simp only at hslots
      have hroom : r.waiting.length < maxTlsHandshakes := by omega
      refine ⟨_, .step .refl (.accept (x := x) hroom), ?_, ?_, ?_, by simp [Acceptor.accept]⟩
      · simpa [inPhase, Acceptor.accept] using hwait
      · simpa [inPhase, Acceptor.accept] using hpass
      · simp only [Acceptor.accept, if_true, List.length_append, List.length_singleton]
        omega
  | false =>
    have hnone : r.waiting = [] := hplain rfl
    have hroom : r.waiting.length < maxTlsHandshakes := by simp [hnone, maxTlsHandshakes]
    have hpassed : r.waiting ++ [x] = [] ++ x :: [] := by simp [hnone]
    refine ⟨_, .step (.step .refl (.accept hroom)) (.pass hpassed), ?_, ?_, ?_, fun _ => rfl⟩
    · simpa [inPhase, Acceptor.accept, hnone] using hwait
    · simpa [inPhase, Acceptor.accept] using hpass.append_right [x]
    · simpa [Acceptor.accept, hnone] using hslots

/-- The stream listener lets in what the room does. -/
theorem implements : Implements maxTlsHandshakes (Step (ι := ι)) Stands := by
  intro s evs s' r hstep hs
  cases hstep with
  | accepted x => exact hs.accept x
  | acceptError => exact ⟨r, .refl, hs⟩
  | @secured x l l' h =>
    have hx := hs.waiting_split h
    obtain ⟨hwait, hpass, hslots, hplain⟩ := hs
    refine ⟨_, .step .refl (.pass hx), ?_, ?_, ?_, ?_⟩
    · simp [inPhase]
    · have hmid : (inPhase ⟨s.tls, 0, l⟩ .session ++
          x :: inPhase ⟨s.tls, 0, l'⟩ .session).Perm (r.passed ++ [x]) := by
        refine List.perm_middle.trans ?_
        refine (List.Perm.cons x ?_).trans (List.perm_append_singleton x r.passed).symm
        simpa [inPhase, h] using hpass.symm
      simpa [inPhase] using hmid.symm
    · simp only [hx, List.length_append, List.length_cons] at hslots ⊢
      omega
    · intro htls
      exact absurd (hplain htls) (by simp [hx])
  | @failed x l l' h =>
    have hx := hs.waiting_split h
    obtain ⟨hwait, hpass, hslots, hplain⟩ := hs
    refine ⟨_, .step .refl (.fail hx), ?_, ?_, ?_, ?_⟩
    · simp [inPhase]
    · simpa [inPhase, h] using hpass
    · simp only [hx, List.length_append, List.length_cons] at hslots ⊢
      omega
    · intro htls
      exact absurd (hplain htls) (by simp [hx])
  | @closed x l l' h =>
    obtain ⟨hwait, hpass, hslots, hplain⟩ := hs
    have hsessions : r.passed.Perm (x :: inPhase ⟨s.tls, 0, l ++ l'⟩ .session) := by
      refine hpass.trans ?_
      simp [inPhase, h]
    obtain ⟨before, after, hx⟩ := List.append_of_mem (hsessions.mem_iff.mpr List.mem_cons_self)
    refine ⟨_, .step .refl (.leave hx), ?_, ?_, hslots, hplain⟩
    · simp [hwait, inPhase, h]
    · rw [hx] at hsessions
      exact (List.perm_middle.symm.trans hsessions).cons_inv

theorem stands_new (tls : Bool) : Stands (new tls : Acceptor ι) Room.empty where
  waiting := rfl
  passed := .refl _
  slots := rfl
  plain _ := rfl

end Acceptor

/-! ### The HTTPS listener -/

/-- The listener of `run_doh` with TLS, and the connections `axum` serves for it. -/
structure TlsIncoming (ι : Type) where
  handshakes : List ι
  served : List ι

namespace TlsIncoming

def new : TlsIncoming ι := ⟨[], []⟩

/-- A socket from the listener: with too many in the queue it is dropped. -/
def push (s : TlsIncoming ι) (x : ι) : TlsIncoming ι :=
  if maxTlsHandshakes ≤ s.handshakes.length then s
  else { s with handshakes := s.handshakes ++ [x] }

/-- Handshakes are over in any order, and an established one is what `accept` returns. -/
inductive Step : TlsIncoming ι → List (Event ι) → TlsIncoming ι → Prop
  | accepted {s : TlsIncoming ι} (x : ι) : Step s [.come x] (s.push x)
  | acceptError {s : TlsIncoming ι} : Step s [] s
  | next {s : TlsIncoming ι} {x l l'} (h : s.handshakes = l ++ x :: l') :
      Step s [.pass x] { s with handshakes := l ++ l', served := s.served ++ [x] }
  | nextError {s : TlsIncoming ι} {x l l'} (h : s.handshakes = l ++ x :: l') :
      Step s [.fail x] { s with handshakes := l ++ l' }
  | closed {s : TlsIncoming ι} {x l l'} (h : s.served = l ++ x :: l') :
      Step s [.leave x] { s with served := l ++ l' }

/-- The room of the listener. -/
structure Stands (s : TlsIncoming ι) (r : Room ι) : Prop where
  waiting : r.waiting = s.handshakes
  passed : r.passed = s.served

theorem stands_new : Stands (new : TlsIncoming ι) Room.empty := ⟨rfl, rfl⟩

/-- The HTTPS listener lets in what the room does. -/
theorem implements : Implements maxTlsHandshakes (Step (ι := ι)) Stands := by
  intro s evs s' r hstep hs
  obtain ⟨hwait, hpass⟩ := hs
  cases hstep with
  | accepted x =>
    by_cases hfull : maxTlsHandshakes ≤ s.handshakes.length
    · have hroom : maxTlsHandshakes ≤ r.waiting.length := hwait ▸ hfull
      refine ⟨_, .step .refl (.refuse hroom), ?_, ?_⟩
      · simpa [push, hfull] using hwait
      · simpa [push, hfull] using hpass
    · have hroom : r.waiting.length < maxTlsHandshakes := by
        rw [hwait]
        omega
      refine ⟨_, .step .refl (.accept (x := x) hroom), ?_, ?_⟩
      · simp [push, hfull, hwait]
      · simpa [push, hfull] using hpass
  | acceptError => exact ⟨r, .refl, hwait, hpass⟩
  | next h => exact ⟨_, .step .refl (.pass (hwait.trans h)), rfl, by simp [hpass]⟩
  | nextError h => exact ⟨_, .step .refl (.fail (hwait.trans h)), rfl, hpass⟩
  | closed h => exact ⟨_, .step .refl (.leave (hpass.trans h)), hwait, rfl⟩

end TlsIncoming

/-! ### Both -/

theorem Acceptor.refuses_iff {s : Acceptor ι} {r : Room ι} (hs : s.Stands r) (x : ι) :
    s.accept x = s ↔
      s.tls = true ∧ (s.inPhase .handshake).length = maxTlsHandshakes := by
  have hslots := hs.waiting ▸ hs.slots
  obtain ⟨tls, slots, tasks⟩ := s
  cases tls with
  | false => simp [Acceptor.accept]
  | true =>
    cases slots with
    | zero => simpa [Acceptor.accept] using hslots
    | succ n =>
      have hless : (Acceptor.inPhase ⟨true, n + 1, tasks⟩ .handshake).length ≠
          maxTlsHandshakes := by
        simp only at hslots
        omega
      simp [Acceptor.accept, hless]

theorem TlsIncoming.refuses_iff {s : TlsIncoming ι}
    (hs : s.handshakes.length ≤ maxTlsHandshakes) (x : ι) :
    s.push x = s ↔ s.handshakes.length = maxTlsHandshakes := by
  obtain ⟨handshakes, served⟩ := s
  by_cases hfull : maxTlsHandshakes ≤ handshakes.length
  · simpa [TlsIncoming.push, hfull] using Nat.le_antisymm hs hfull
  · have hless : handshakes.length ≠ maxTlsHandshakes := by omega
    simp [TlsIncoming.push, hfull, hless]

/-- Whatever happened at the stream listener and at the HTTPS one, what the stream listener has left
of its permits is what its handshakes leave, a TLS connection is turned away only while
`maxTlsHandshakes` others are at theirs, and each one that came is in one place. -/
theorem handshakes_admitted (evs : List (Event ι)) :
    (∀ tls s, Steps Acceptor.Step (Acceptor.new tls) evs s → ∃ r,
      Run maxTlsHandshakes Room.empty evs r ∧ r.all.Perm (came evs) ∧
        r.waiting = s.inPhase .handshake ∧ r.passed.Perm (s.inPhase .session) ∧
        s.slots + (s.inPhase .handshake).length = maxTlsHandshakes ∧
        ∀ x, s.accept x = s ↔
          s.tls = true ∧ (s.inPhase .handshake).length = maxTlsHandshakes) ∧
    ∀ s, Steps TlsIncoming.Step TlsIncoming.new evs s → ∃ r,
      Run maxTlsHandshakes Room.empty evs r ∧ r.all.Perm (came evs) ∧
        r.waiting = s.handshakes ∧ r.passed = s.served ∧
        s.handshakes.length ≤ maxTlsHandshakes ∧
        ∀ x, s.push x = s ↔ s.handshakes.length = maxTlsHandshakes := by
  constructor
  · intro tls s hrun
    obtain ⟨r, hr, hs⟩ := Acceptor.implements.run hrun (Acceptor.stands_new tls)
    exact ⟨r, hr, hr.accounts, hs.waiting, hs.passed, hs.waiting ▸ hs.slots,
      Acceptor.refuses_iff hs⟩
  · intro s hrun
    obtain ⟨r, hr, hs⟩ := TlsIncoming.implements.run hrun TlsIncoming.stands_new
    have hle : s.handshakes.length ≤ maxTlsHandshakes :=
      hs.waiting ▸ hr.bounded (Nat.zero_le _)
    exact ⟨r, hr, hr.accounts, hs.waiting, hs.passed, hle, TlsIncoming.refuses_iff hle⟩

/-! ### A crowd -/

namespace Acceptor

theorem accept_tls (s : Acceptor ι) (x : ι) : (s.accept x).tls = s.tls := by
  rw [Acceptor.accept]
  split_ifs
  · split
    · rfl
    · rfl
  · rfl

theorem step_come {s : Acceptor ι} (htls : s.tls = true) (x : ι) :
    Step s [.come x] (s.accept x) := by
  have hstep := Step.accepted (s := s) x
  rwa [if_pos htls] at hstep

theorem steps_come {s : Acceptor ι} (htls : s.tls = true) (xs : List ι) :
    Steps Step s (xs.map .come) (xs.foldl accept s) ∧ (xs.foldl accept s).tls = true := by
  induction xs using List.reverseRec with
  | nil => exact ⟨.refl, htls⟩
  | append_singleton xs x ih =>
    obtain ⟨hrun, htls'⟩ := ih
    rw [List.map_append, List.foldl_concat]
    exact ⟨hrun.step (step_come htls' x), (accept_tls _ x).trans htls'⟩

end Acceptor

/-- Of 129 connections the last is turned away. When the first is through, another one is let in. -/
theorem handshakes_admitted_crowd : ∃ (s : Acceptor ℕ) (r : Room ℕ),
    Steps Acceptor.Step (.new true) ((List.range 129).map .come ++ [.pass 0] ++ [.come 129]) s ∧
      Run maxTlsHandshakes Room.empty ((List.range 129).map .come ++ [.pass 0] ++ [.come 129]) r ∧
      r.all.Perm (List.range 130) ∧ r.waiting = (List.range 127).map (· + 1) ++ [129] ∧
      s.slots + (s.inPhase .handshake).length = maxTlsHandshakes ∧ ∀ x, s.accept x = s := by
  let crowd : Acceptor ℕ := (List.range 129).foldl Acceptor.accept (.new true)
  obtain ⟨hcrowd, htls⟩ : Steps Acceptor.Step (.new true) ((List.range 129).map .come) crowd ∧
      crowd.tls = true := Acceptor.steps_come rfl _
  have htasks : crowd.tasks = [] ++ (0, .handshake) :: crowd.tasks.tail := by decide +kernel
  have hpass := hcrowd.step (.secured htasks)
  have hrun := hpass.step (Acceptor.step_come (by simpa using htls) 129)
  have hcame : came ((List.range 129).map Event.come ++ [.pass 0] ++ [.come 129]) =
      List.range 130 := by decide +kernel
  obtain ⟨r, hr, hall, hwait, -, hslots, hrefuses⟩ := (handshakes_admitted _).1 true _ hrun
  refine ⟨_, r, hrun, hr, hcame ▸ hall, ?_, hslots, fun x => ?_⟩
  · rw [hwait]
    decide +kernel
  · rw [hrefuses]
    decide +kernel

end FerrumDns
