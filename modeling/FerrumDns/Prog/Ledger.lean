import FerrumDns.Prog.Combine
import FerrumDns.Prog.Play
import Mathlib.Algebra.BigOperators.Group.List.Basic
import Mathlib.Algebra.Order.Ring.Int
import Mathlib.Tactic.Linarith

/-! Books kept by many tasks. Every action moves a balance by a weight of its own. A
program repays when it never owes more than a bound, and owes nothing wherever it
suspends or ends; then all tasks of a pool together never owe more than the bound for
each task that is between two suspensions. Timers, races and sequences of programs
that repay repay again. Nothing here depends on what the actions do. -/

namespace FerrumDns

namespace Prog

variable {S E : Type} {R : E → Type} {α β : Type}

/-- A finished or suspended program. -/
def atRest : Prog S E R α → Bool
  | done _ | await _ _ => true
  | act _ _ | choose _ => false

/-- Owing `d`, the program stays within `b`, and has paid back wherever it suspends or ends. What
was paid too much by then is forgotten. -/
def Repays (w : E → ℤ) (b : ℤ) (post : α → Prop) : ℤ → Prog S E R α → Prop
  | d, done a => d ≤ 0 ∧ post a
  | d, act e k => d ≤ b ∧ ∀ r, Repays w b post (d + w e) (k r)
  | d, await _ k => d ≤ 0 ∧ Repays w b post 0 k
  | d, choose k => d ≤ b ∧ ∀ c, Repays w b post d (k c)

variable {w : E → ℤ} {b d : ℤ} {post : α → Prop} {post' : β → Prop}

theorem Repays.anti {p : Prog S E R α} {d' : ℤ} (h : p.Repays w b post d) (hd : d' ≤ d) :
    p.Repays w b post d' := by
  induction p generalizing d d' with
  | done a => exact ⟨hd.trans h.1, h.2⟩
  | act e k ih => exact ⟨hd.trans h.1, fun r => ih r (h.2 r) (by omega)⟩
  | await s k ih => exact ⟨hd.trans h.1, h.2⟩
  | choose k ih => exact ⟨hd.trans h.1, fun c => ih c (h.2 c) hd⟩

theorem Repays.mono {p : Prog S E R α} {post' : α → Prop} (h : p.Repays w b post d)
    (hpost : ∀ a, post a → post' a) : p.Repays w b post' d := by
  induction p generalizing d with
  | done a => exact ⟨h.1, hpost a h.2⟩
  | act e k ih => exact ⟨h.1, fun r => ih r (h.2 r)⟩
  | await s k ih => exact ⟨h.1, ih h.2⟩
  | choose k ih => exact ⟨h.1, fun c => ih c (h.2 c)⟩

theorem Repays.bind {p : Prog S E R α} {f : α → Prog S E R β} (h : p.Repays w b post d)
    (hf : ∀ a, post a → (f a).Repays w b post' 0) : (p.bind f).Repays w b post' d := by
  induction p generalizing d with
  | done a => exact (hf a h.2).anti h.1
  | act e k ih => exact ⟨h.1, fun r => ih r (h.2 r)⟩
  | await s k ih => exact ⟨h.1, ih h.2⟩
  | choose k ih => exact ⟨h.1, fun c => ih c (h.2 c)⟩

/-- A program at rest owes nothing. -/
theorem Repays.nonpos {p : Prog S E R α} (h : p.Repays w b post d) (hp : p.atRest) : d ≤ 0 := by
  cases p with
  | done a => exact h.1
  | await s k => exact h.1
  | act e k => exact absurd hp (by simp [atRest])
  | choose k => exact absurd hp (by simp [atRest])

theorem Repays.le {p : Prog S E R α} (h : p.Repays w b post d) (hb : 0 ≤ b) : d ≤ b := by
  cases p with
  | done a => exact h.1.trans hb
  | await s k => exact h.1.trans hb
  | act e k => exact h.1
  | choose k => exact h.1

/-! ### Timers and races -/

theorem Repays.hold {p : Prog S E R α} {s : S} (h : p.Repays w b post d) :
    (p.hold s).Repays w b post d := by
  induction p generalizing d with
  | done a => exact h
  | act e k ih => exact ⟨h.1, fun r => ih r (h.2 r)⟩
  | await s k ih => exact ⟨h.1, ih h.2⟩
  | choose k ih => exact ⟨h.1, fun c => ih c (h.2 c)⟩

theorem Repays.timeout {p : Prog S E R α} (hb : 0 ≤ b) (h : p.Repays w b post d) :
    p.timeout.Repays w b (fun r => ∀ a, r = .ok a → post a) d := by
  induction p generalizing d with
  | done a => exact ⟨h.1, fun a' ha => by cases ha; exact h.2⟩
  | act e k ih => exact ⟨h.1, fun r => ih r (h.2 r)⟩
  | await s k ih =>
    refine ⟨h.1, hb, fun fired => ?_⟩
    cases fired
    · exact ih h.2
    · exact ⟨le_refl 0, fun a ha => by cases ha⟩
  | choose k ih => exact ⟨h.1, fun c => ih c (h.2 c)⟩

theorem Repays.checked {look : E} {late : R look → Bool} {s : S} {post : Except S α → Prop}
    {p : Prog S E R (Except S α)} (hb : 0 ≤ b) (hlook : w look = 0) (hlate : post (.error s))
    (h : p.Repays w b post 0) : (p.checked look late s).Repays w b post 0 := by
  refine ⟨hb, fun r => ?_⟩
  rw [hlook, add_zero]
  dsimp only
  split_ifs
  · exact ⟨le_rfl, hlate⟩
  · exact h

theorem Repays.limit {look : E} {late : R look → Bool} {p : Prog S E R α} (hb : 0 ≤ b)
    (hlook : w look = 0) (h : p.Repays w b post d) :
    (p.limit look late).Repays w b (fun r => ∀ a, r = .ok a → post a) d := by
  induction p generalizing d with
  | done a => exact ⟨h.1, fun a' ha => by cases ha; exact h.2⟩
  | act e k ih => exact ⟨h.1, fun r => ih r (h.2 r)⟩
  | await s k ih =>
    refine (Repays.checked hb hlook (fun a ha => by cases ha) ?_).anti h.1
    refine ⟨le_rfl, hb, fun ready => ?_⟩
    cases ready
    · exact Repays.checked hb hlook (fun a ha => by cases ha) (ih h.2)
    · exact ih h.2
  | choose k ih => exact ⟨h.1, fun c => ih c (h.2 c)⟩

/-- The winner is done, and what is left of the loser repays. -/
def Raced.Repays (w : E → ℤ) (b : ℤ) (post : α → Prop) (post' : β → Prop) :
    Raced S E R α β → Prop
  | .inl (a, q) => post a ∧ q.Repays w b post' 0
  | .inr (a, p) => post' a ∧ p.Repays w b post 0

theorem Repays.selectRight {p : Prog S E R α}
    {resume : Prog S E R β → Prog S E R (Raced S E R α β)} {q : Prog S E R β} (hb : 0 ≤ b)
    (hp : p.Repays w b post 0)
    (hr : ∀ q', q'.Repays w b post' 0 → (resume q').Repays w b (Raced.Repays w b post post') 0)
    (hq : q.Repays w b post' d) :
    (Prog.selectRight p resume q).Repays w b (Raced.Repays w b post post') d := by
  induction q generalizing d with
  | done a => exact ⟨hq.1, hq.2, hp⟩
  | act e k ih => exact ⟨hq.1, fun r => ih r (hq.2 r)⟩
  | await s k ih =>
    refine ⟨hq.1, hb, fun c => ?_⟩
    cases c
    · exact ih hq.2
    · exact hr k hq.2
  | choose k ih => exact ⟨hq.1, fun c => ih c (hq.2 c)⟩

theorem Repays.selectLeft {p : Prog S E R α} {q : Prog S E R β} (hb : 0 ≤ b)
    (hp : p.Repays w b post d) (hq : q.Repays w b post' 0) :
    (Prog.selectLeft p q).Repays w b (Raced.Repays w b post post') d := by
  induction p generalizing q d with
  | done a => exact ⟨hp.1, hp.2, hq⟩
  | act e k ih => exact ⟨hp.1, fun r => ih r (hp.2 r) hq⟩
  | await s k ih =>
    refine ⟨hp.1, hb, fun c => ?_⟩
    cases c
    · exact Repays.selectRight hb hp.2 (fun q' hq' => ih hp.2 hq') hq
    · exact ih hp.2 hq
  | choose k ih => exact ⟨hp.1, fun c => ih c (hp.2 c) hq⟩

theorem Repays.select {p : Prog S E R α} {q : Prog S E R β} (hb : 0 ≤ b)
    (hp : p.Repays w b post d) (hq : q.Repays w b post' 0) :
    (Prog.select p q).Repays w b (Raced.Repays w b post post') d := by
  induction p generalizing q d with
  | done a => exact ⟨hp.1, hp.2, hq⟩
  | act e k ih => exact ⟨hp.1, fun r => ih r (hp.2 r) hq⟩
  | await s k ih =>
    have hright := Repays.selectRight hb hp.2 (fun q' hq' => Repays.selectLeft hb hp.2 hq') hq
    exact hright.anti hp.1
  | choose k ih => exact ⟨hp.1, fun c => ih c (hp.2 c) hq⟩

end Prog

open Prog

namespace Pool

variable {W T S E : Type} {R : E → Type} (M : Machine W T S E R)

/-- A run in which tasks are dropped only where they suspend or have ended. -/
inductive Orderly (p : Pool W T S E R) : List (Event E R) → Pool W T S E R → Prop
  | refl : Orderly p [] p
  | step {q r ev tr} (h : Orderly p tr q) (hs : Step M q ev r)
      (hall : q.tasks.length ≤ r.tasks.length) : Orderly p (tr ++ ev.toList) r
  | leave {tr w l t x l'} (h : Orderly p tr ⟨w, l ++ (t, x) :: l'⟩) (hx : x.atRest) :
      Orderly p tr ⟨M.release t w, l ++ l'⟩

/-- How many tasks stand between two suspensions. -/
def busy (p : Pool W T S E R) : ℕ := p.tasks.countP fun x => !x.2.atRest

variable {M}

theorem Orderly.run {p q : Pool W T S E R} {tr : List (Event E R)} (h : Orderly M p tr q) :
    Run M p tr q := by
  have one {a b : Pool W T S E R} {ev} (hs : Step M a ev b) : Run M a ev.toList b := by
    simpa using Run.step hs (.refl b)
  induction h with
  | refl => exact .refl p
  | step _ hs _ ih => exact ih.trans (one hs)
  | leave _ _ ih => simpa using ih.trans (one .leave)

/-! ### The books of a pool -/

/-- The balance of a trace. -/
def balance (w : E → ℤ) (tr : List (Event E R)) : ℤ := (tr.map fun ev => w ev.1).sum

variable {w : E → ℤ} {b : ℤ}

@[simp] theorem balance_nil : balance w ([] : List (Event E R)) = 0 := rfl

@[simp] theorem balance_append (tr tr' : List (Event E R)) :
    balance w (tr ++ tr') = balance w tr + balance w tr' := by
  simp [balance]

@[simp] theorem balance_singleton (ev : Event E R) : balance w [ev] = w ev.1 := by
  simp [balance]

/-- Each task repays a share of its own, and the shares cover the balance. -/
def Covers (w : E → ℤ) (b s : ℤ) (tasks : List (T × Prog S E R Unit)) : Prop :=
  ∃ shares : List (ℤ × T × Prog S E R Unit), shares.map Prod.snd = tasks ∧
    (∀ x ∈ shares, x.2.2.Repays w b (fun _ => True) x.1) ∧ s ≤ (shares.map Prod.fst).sum

variable {l l' : List (T × Prog S E R Unit)} {t : T} {x : Prog S E R Unit} {s : ℤ}

/-- The share of one task, with what is left for the others. -/
theorem Covers.split (h : Covers w b s (l ++ (t, x) :: l')) :
    ∃ d, x.Repays w b (fun _ => True) d ∧ Covers w b (s - d) (l ++ l') := by
  obtain ⟨shares, hmap, hall, hs⟩ := h
  obtain ⟨m, rest, rfl, rfl, hrest⟩ := List.map_eq_append_iff.1 hmap
  obtain ⟨⟨d, y⟩, m', rfl, hy, rfl⟩ := List.map_eq_cons_iff.1 hrest
  obtain rfl : y = (t, x) := hy
  refine ⟨d, hall (d, t, x) (by simp), m ++ m', by simp, fun z hz => hall z ?_, ?_⟩
  · rcases List.mem_append.1 hz with hz | hz <;> simp [hz]
  · simp only [List.map_append, List.map_cons, List.sum_append, List.sum_cons] at hs ⊢
    omega

theorem Covers.put {d : ℤ} (h : Covers w b s (l ++ l')) (hx : x.Repays w b (fun _ => True) d) :
    Covers w b (s + d) (l ++ (t, x) :: l') := by
  obtain ⟨shares, hmap, hall, hs⟩ := h
  obtain ⟨m, m', rfl, rfl, rfl⟩ := List.map_eq_append_iff.1 hmap
  refine ⟨m ++ (d, t, x) :: m', by simp, fun z hz => ?_, ?_⟩
  · simp only [List.mem_append, List.mem_cons] at hz hall
    rcases hz with hz | rfl | hz
    · exact hall z (.inl hz)
    · exact hx
    · exact hall z (.inr hz)
  · simp only [List.map_append, List.map_cons, List.sum_append, List.sum_cons] at hs ⊢
    omega

theorem Covers.le {s' : ℤ} (h : Covers w b s l) (hs : s' ≤ s) : Covers w b s' l := by
  obtain ⟨shares, hmap, hall, hle⟩ := h
  exact ⟨shares, hmap, hall, hs.trans hle⟩

/-- New tasks owe nothing. -/
theorem Covers.spawn {new : List (T × Prog S E R Unit)} (h : Covers w b s l)
    (hnew : ∀ y ∈ new, y.2.Repays w b (fun _ => True) 0) : Covers w b s (l ++ new) := by
  induction new generalizing l with
  | nil => simpa using h
  | cons y new ih =>
    have hy : Covers w b (s + 0) (l ++ y :: []) :=
      Covers.put (by simpa using h) (hnew y (by simp))
    rw [add_zero] at hy
    simpa using ih hy fun z hz => hnew z (by simp [hz])

/-- Together the tasks owe the bound for each that is busy, at most. -/
theorem Covers.busy {p : Pool W T S E R} (hb : 0 ≤ b) (h : Covers w b s p.tasks) :
    s ≤ b * p.busy := by
  obtain ⟨wld, tasks⟩ := p
  obtain ⟨shares, hmap, hall, hs⟩ := h
  refine hs.trans ?_
  dsimp only at hmap
  subst hmap
  clear hs
  unfold Pool.busy
  induction shares with
  | nil => simp
  | cons y shares ih =>
    have hrest := ih fun z hz => hall z (by simp [hz])
    have hy := hall y (by simp)
    simp only [List.map_cons, List.sum_cons, List.countP_cons]
    cases hr : y.2.2.atRest with
    | true =>
      have hnon := hy.nonpos hr
      simp only [Bool.not_true, Bool.false_eq_true, if_false, add_zero]
      exact (add_le_add hnon hrest).trans_eq (zero_add _)
    | false =>
      have hle := hy.le hb
      simp only [Bool.not_false, if_true, Nat.cast_add, Nat.cast_one]
      linarith

/-- What new tasks have to keep for the books of a pool to be kept. -/
structure Repaying (M : Machine W T S E R) (w : E → ℤ) (b : ℤ) : Prop where
  bound : 0 ≤ b
  spawned : ∀ {u e r u' new}, M.perform u e r u' new →
    ∀ y ∈ new, y.2.Repays w b (fun _ => True) 0
  arrived : ∀ {u y}, M.arrive u y → y.2.Repays w b (fun _ => True) 0

/-- One step keeps the books, where a task that leaves owes nothing. -/
theorem Repaying.step (h : Repaying M w b) {p q : Pool W T S E R} {ev : Option (Event E R)}
    (hs : Step M p ev q) (hc : Covers w b s p.tasks)
    (hleave : p.tasks.length ≤ q.tasks.length ∨ b ≤ 0) :
    Covers w b (s + balance w ev.toList) q.tasks := by
  cases hs with
  | @act u u' l l' t e k r new hp =>
    obtain ⟨d, hd, hrest⟩ := hc.split
    have hput := hrest.put (t := t) (hd.2 r)
    have hall := hput.spawn (h.spawned hp)
    refine hall.le ?_
    simp only [Option.toList_some, balance_singleton]
    omega
  | @await u l l' t st k =>
    obtain ⟨d, hd, hrest⟩ := hc.split
    have hput := hrest.put (t := t) hd.2
    have hnon := hd.1
    refine hput.le ?_
    simp only [Option.toList_none, balance_nil]
    omega
  | @choose u l l' t k c =>
    obtain ⟨d, hd, hrest⟩ := hc.split
    have hput := hrest.put (t := t) (hd.2 c)
    refine hput.le ?_
    simp only [Option.toList_none, balance_nil]
    omega
  | @leave u l l' t x =>
    obtain ⟨d, hd, hrest⟩ := hc.split
    rcases hleave with hlen | hb
    · simp only [List.length_append, List.length_cons] at hlen
      omega
    · have hle := hd.le h.bound
      refine hrest.le ?_
      simp only [Option.toList_none, balance_nil]
      omega
  | drift => simpa using hc
  | @arrive u l y hy =>
    have hnew : ∀ z ∈ [y], z.2.Repays w b (fun _ => True) 0 := by simpa using h.arrived hy
    simpa using hc.spawn hnew

/-- An orderly run never owes more than the bound for each busy task. -/
theorem Orderly.balance (h : Repaying M w b) {p q : Pool W T S E R} {tr : List (Event E R)}
    (hrun : Orderly M p tr q) (hp : p.tasks = []) : Pool.balance w tr ≤ b * q.busy := by
  have hc : Covers w b (Pool.balance w tr) q.tasks := by
    induction hrun with
    | refl => exact ⟨[], by simp [hp]⟩
    | step _ hs hall ih =>
      rw [balance_append]
      exact h.step hs ih (.inl hall)
    | leave _ hx ih =>
      obtain ⟨d, hd, hrest⟩ := ih.split
      have hnon := hd.nonpos hx
      exact hrest.le (by omega)
  exact hc.busy h.bound

/-- When tasks never owe anything, no run does, wherever tasks are dropped. -/
theorem Run.balance (h : Repaying M w 0) {p q : Pool W T S E R} {tr : List (Event E R)}
    (hrun : Run M p tr q) (hp : p.tasks = []) : Pool.balance w tr ≤ 0 := by
  have keep {s : ℤ} (hc : Covers w 0 s p.tasks) :
      Covers w 0 (s + Pool.balance w tr) q.tasks := by
    clear hp
    induction hrun generalizing s with
    | refl => simpa using hc
    | step hs _ ih =>
      rw [balance_append, ← add_assoc]
      exact ih (h.step hs hc (.inr le_rfl))
  have hc := keep (s := 0) ⟨[], by simp [hp]⟩
  have hle := hc.busy (p := q) le_rfl
  rw [zero_add, zero_mul] at hle
  exact hle

/-- A task played alone makes an orderly run. -/
theorem play_orderly {h : Oracle W T S E R} (hM : Allows M h) {coin : Bool}
    {x : Prog S E R Unit} {u u' : W} {tr : List (Event E R)} {new : List (T × Prog S E R Unit)}
    (hp : x.play h coin u = some (tr, (), u', new)) {o : Pool W T S E R} {log : List (Event E R)}
    {l l' : List (T × Prog S E R Unit)} {t : T} (ho : Orderly M o log ⟨u, l ++ (t, x) :: l'⟩) :
    Orderly M o (log ++ tr) ⟨u', l ++ (t, .done ()) :: (l' ++ new)⟩ := by
  induction x generalizing u tr new log l' with
  | done a =>
    simp only [play, Option.some.injEq, Prod.mk.injEq] at hp
    obtain ⟨rfl, -, rfl, rfl⟩ := hp
    simpa using ho
  | act e k ih =>
    obtain ⟨r, w₁, new₁, tr', a, w'', new', he, hk, hx⟩ := play_act hp
    cases hx
    have hstep := ho.step (.act (hM he)) (by simp)
    rw [List.append_assoc, List.cons_append] at hstep
    have hrest := ih r hk hstep
    simpa using hrest
  | await s k ih =>
    have hstep := ho.step .await (by simp)
    exact ih hp (by simpa using hstep)
  | choose k ih =>
    have hstep := ho.step (.choose coin) (by simp)
    exact ih coin hp (by simpa using hstep)

end Pool

end FerrumDns
