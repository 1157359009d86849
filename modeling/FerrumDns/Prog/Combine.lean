import FerrumDns.Prog.Basic

/-! Combinators of cooperative programs inside one task: showing another state
while suspended, giving up when a timer fires, and racing two programs. Only one
of the two raced programs runs at a time, and control changes hands only where
the running one suspends; the loser comes back as what is left of it. -/

namespace FerrumDns

namespace Prog

variable {S E : Type} {R : E → Type} {α β : Type}

/-- While `p` is suspended its owner is left with `s`. -/
def hold (s : S) : Prog S E R α → Prog S E R α
  | done a => done a
  | act e k => act e fun r => (k r).hold s
  | await _ k => await s (k.hold s)
  | choose k => choose fun b => (k b).hold s

/-- Give up on `p` at a suspension where the timer has fired, keeping the state shown there. The
timer is looked at only when `p` cannot go on. -/
def timeout : Prog S E R α → Prog S E R (Except S α)
  | done a => done (.ok a)
  | act e k => act e fun r => (k r).timeout
  | await s k => await s (choose fun fired => if fired then done (.error s) else k.timeout)
  | choose k => choose fun b => (k b).timeout

/-- Go on with `p` unless `look` answers that it is late. -/
def checked (look : E) (late : R look → Bool) (s : S) (p : Prog S E R (Except S α)) :
    Prog S E R (Except S α) :=
  act look fun r => if late r then done (.error s) else p

/-- Give up on `p` at a suspension where `look` answers that it is late. The timer is looked at when
`p` suspends, and again if `p` cannot go on when it is woken. -/
def limit (look : E) (late : R look → Bool) : Prog S E R α → Prog S E R (Except S α)
  | done a => done (.ok a)
  | act e k => act e fun r => (k r).limit look late
  | await s k => checked look late s (await s (choose fun ready =>
      if ready then k.limit look late else checked look late s (k.limit look late)))
  | choose k => choose fun b => (k b).limit look late

/-- The winner's result with what is left of the loser. -/
abbrev Raced (S E : Type) (R : E → Type) (α β : Type) :=
  (α × Prog S E R β) ⊕ (β × Prog S E R α)

/-- The right program runs; where it suspends, either it or (by `resume`) the left one goes on. -/
def selectRight (left : Prog S E R α) (resume : Prog S E R β → Prog S E R (Raced S E R α β)) :
    Prog S E R β → Prog S E R (Raced S E R α β)
  | done b => done (.inr (b, left))
  | act e k => act e fun r => selectRight left resume (k r)
  | await s k => await s (choose fun b => if b then resume k else selectRight left resume k)
  | choose k => choose fun b => selectRight left resume (k b)

/-- The left program runs again after both have been started. -/
def selectLeft : Prog S E R α → Prog S E R β → Prog S E R (Raced S E R α β)
  | done a, q => done (.inl (a, q))
  | act e k, q => act e fun r => selectLeft (k r) q
  | await s k, q => await s (choose fun b =>
      if b then selectLeft k q else selectRight k (fun q' => selectLeft k q') q)
  | choose k, q => choose fun b => selectLeft (k b) q

/-- Race `p` and `q`. The left one is started first; the right one is started as soon as the left
one suspends. -/
def select : Prog S E R α → Prog S E R β → Prog S E R (Raced S E R α β)
  | done a, q => done (.inl (a, q))
  | act e k, q => act e fun r => select (k r) q
  | await _ k, q => selectRight k (fun q' => selectLeft k q') q
  | choose k, q => choose fun b => select (k b) q

/-- A program that can end does so before its timer fires, if the timer is slow. -/
theorem Ends.timeout {p : Prog S E R α} {tr : List (Event E R)} {a : α} (h : Ends p tr a) :
    Ends p.timeout tr (.ok a) := by
  induction p generalizing tr with
  | done b =>
    obtain ⟨rfl, rfl⟩ := ends_done h
    exact .refl _
  | act e k ih =>
    obtain ⟨r, tr', rfl, h'⟩ := ends_act h
    exact .act r (ih r h')
  | await s k ih => exact .await (.choose false (ih (ends_await h)))
  | choose k ih =>
    obtain ⟨b, h'⟩ := ends_choose h
    exact .choose b (ih b h')

/-! ### Contracts -/

/-- The same promises, but anything may be shown while suspended. -/
def Contract.loose (C : Contract S E R) : Contract S E R := { C with held := fun _ => True }

variable {C : Contract S E R}

theorem Sat.loosen {post : α → Prop} {p : Prog S E R α} (h : p.Sat C post) :
    p.Sat C.loose post := by
  induction p with
  | done a => exact h
  | act e k ih => exact ⟨h.1, fun r hr => ih r (h.2 r hr)⟩
  | await s k ih => exact ⟨trivial, ih h.2⟩
  | choose k ih => exact fun b => ih b (h b)

/-- Nothing is asked of the actions, and nothing relied on. -/
theorem Sat.unconditional (p : Prog S E R α) (hg : ∀ e, C.guar e) :
    p.Sat C.loose fun _ => True := by
  induction p with
  | done a => trivial
  | act e k ih => exact ⟨hg e, fun r _ => ih r⟩
  | await s k ih => exact ⟨trivial, ih⟩
  | choose k ih => exact fun b => ih b

theorem Sat.hold {post : α → Prop} {p : Prog S E R α} {s : S} (h : p.Sat C.loose post)
    (hs : C.held s) : (p.hold s).Sat C post := by
  induction p with
  | done a => exact h
  | act e k ih => exact ⟨h.1, fun r hr => ih r (h.2 r hr)⟩
  | await s k ih => exact ⟨hs, ih h.2⟩
  | choose k ih => exact fun b => ih b (h b)

/-- A result in time, or a state the program may be dropped in. -/
def Contract.Timed (C : Contract S E R) (post : α → Prop) : Except S α → Prop
  | .ok a => post a
  | .error s => C.held s

theorem Sat.timeout {post : α → Prop} {p : Prog S E R α} (h : p.Sat C post) :
    p.timeout.Sat C (C.Timed post) := by
  induction p with
  | done a => exact h
  | act e k ih => exact ⟨h.1, fun r hr => ih r (h.2 r hr)⟩
  | await s k ih =>
    refine ⟨h.1, fun fired => ?_⟩
    cases fired
    · exact ih h.2
    · exact h.1
  | choose k ih => exact fun b => ih b (h b)

theorem Sat.checked {look : E} {late : R look → Bool} {s : S} {post : Except S α → Prop}
    {p : Prog S E R (Except S α)} (hlook : C.guar look) (hlate : post (.error s))
    (h : p.Sat C post) : (p.checked look late s).Sat C post := by
  refine ⟨hlook, fun r _ => ?_⟩
  dsimp only
  split_ifs
  · exact hlate
  · exact h

theorem Sat.limit {look : E} {late : R look → Bool} {post : α → Prop} {p : Prog S E R α}
    (hlook : C.guar look) (h : p.Sat C post) : (p.limit look late).Sat C (C.Timed post) := by
  induction p with
  | done a => exact h
  | act e k ih => exact ⟨h.1, fun r hr => ih r (h.2 r hr)⟩
  | await s k ih =>
    refine Sat.checked hlook h.1 ⟨h.1, fun ready => ?_⟩
    cases ready
    · exact Sat.checked hlook h.1 (ih h.2)
    · exact ih h.2
  | choose k ih => exact fun b => ih b (h b)

/-- The winner meets its postcondition and the loser still keeps its contract. -/
def Raced.Sat (C : Contract S E R) (post : α → Prop) (post' : β → Prop) :
    Raced S E R α β → Prop
  | .inl (a, q) => post a ∧ q.Sat C post'
  | .inr (b, p) => post' b ∧ p.Sat C post

theorem Sat.selectRight {post : α → Prop} {post' : β → Prop} {p : Prog S E R α}
    {resume : Prog S E R β → Prog S E R (Raced S E R α β)} {q : Prog S E R β}
    (hp : p.Sat C post) (hr : ∀ q', q'.Sat C post' → (resume q').Sat C (Raced.Sat C post post'))
    (hq : q.Sat C post') : (selectRight p resume q).Sat C (Raced.Sat C post post') := by
  induction q with
  | done b => exact ⟨hq, hp⟩
  | act e k ih => exact ⟨hq.1, fun r hr' => ih r (hq.2 r hr')⟩
  | await s k ih =>
    refine ⟨hq.1, fun b => ?_⟩
    cases b
    · exact ih hq.2
    · exact hr k hq.2
  | choose k ih => exact fun b => ih b (hq b)

theorem Sat.selectLeft {post : α → Prop} {post' : β → Prop} {p : Prog S E R α}
    {q : Prog S E R β} (hp : p.Sat C post) (hq : q.Sat C post') :
    (selectLeft p q).Sat C (Raced.Sat C post post') := by
  induction p generalizing q with
  | done a => exact ⟨hp, hq⟩
  | act e k ih => exact ⟨hp.1, fun r hr => ih r (hp.2 r hr) hq⟩
  | await s k ih =>
    refine ⟨hp.1, fun b => ?_⟩
    cases b
    · exact Sat.selectRight hp.2 (fun q' hq' => ih hp.2 hq') hq
    · exact ih hp.2 hq
  | choose k ih => exact fun b => ih b (hp b) hq

theorem Sat.select {post : α → Prop} {post' : β → Prop} {p : Prog S E R α} {q : Prog S E R β}
    (hp : p.Sat C post) (hq : q.Sat C post') :
    (select p q).Sat C (Raced.Sat C post post') := by
  induction p generalizing q with
  | done a => exact ⟨hp, hq⟩
  | act e k ih => exact ⟨hp.1, fun r hr => ih r (hp.2 r hr) hq⟩
  | await s k ih => exact Sat.selectRight hp.2 (fun q' hq' => Sat.selectLeft hp.2 hq') hq
  | choose k ih => exact fun b => ih b (hp b) hq

end Prog

end FerrumDns
