import FerrumDns.Prog.Combine

/-! What a run of combined programs says of the programs combined. Showing another
state changes no trace; a result within the time limit is a result of the program; and
the trace of a race is woven from a finished trace of the winner and an unfinished one
of the loser. A program under a time limit ends in time, or is given up at a suspension where
the timer was found late. -/

namespace FerrumDns

/-- The last list is woven from the other two, each in its own order. -/
inductive Woven {α : Type} : List α → List α → List α → Prop
  | nil : Woven [] [] []
  | left {a : α} {l r t : List α} (h : Woven l r t) : Woven (a :: l) r (a :: t)
  | right {a : α} {l r t : List α} (h : Woven l r t) : Woven l (a :: r) (a :: t)

namespace Woven

variable {α : Type}

theorem nil_left (r : List α) : Woven [] r r := by
  induction r with
  | nil => exact .nil
  | cons a r ih => exact ih.right

theorem append_left {l r t : List α} (h : Woven l r t) (s : List α) : Woven (s ++ l) r (s ++ t) := by
  induction s with
  | nil => exact h
  | cons a s ih => exact ih.left

theorem append_right {l r t : List α} (h : Woven l r t) (s : List α) : Woven l (s ++ r) (s ++ t) := by
  induction s with
  | nil => exact h
  | cons a s ih => exact ih.right

/-- One after the other is one way of weaving. -/
theorem append (l r : List α) : Woven l r (l ++ r) := by
  simpa using (nil_left r).append_left l

theorem nil_right (l : List α) : Woven l [] l := by
  simpa using append l []

/-- Weaving can go on at the end on either side. -/
theorem concat_left {l r t : List α} (h : Woven l r t) (s : List α) : Woven (l ++ s) r (t ++ s) := by
  induction h with
  | nil => exact nil_right s
  | left _ ih => exact ih.left
  | right _ ih => exact ih.right

theorem concat_right {l r t : List α} (h : Woven l r t) (s : List α) : Woven l (r ++ s) (t ++ s) := by
  induction h with
  | nil => exact nil_left s
  | left _ ih => exact ih.left
  | right _ ih => exact ih.right

end Woven

namespace Prog

variable {S E : Type} {R : E → Type} {α β : Type}

theorem ends_hold {p : Prog S E R α} {s : S} {tr : List (Event E R)} {a : α}
    (h : Ends (p.hold s) tr a) : Ends p tr a := by
  induction p generalizing tr with
  | done b => exact h
  | act e k ih =>
    obtain ⟨r, tr', rfl, h'⟩ := ends_act h
    exact .act r (ih r h')
  | await _ k ih => exact .await (ih (ends_await h))
  | choose k ih =>
    obtain ⟨b, h'⟩ := ends_choose h
    exact .choose b (ih b h')

/-- A result in time is one of the program itself. -/
theorem ends_timeout {p : Prog S E R α} {tr : List (Event E R)} {a : α}
    (h : Ends p.timeout tr (.ok a)) : Ends p tr a := by
  induction p generalizing tr with
  | done b =>
    obtain ⟨rfl, hb⟩ := ends_done h
    exact Except.ok.inj hb ▸ .refl _
  | act e k ih =>
    obtain ⟨r, tr', rfl, h'⟩ := ends_act h
    exact .act r (ih r h')
  | await s k ih =>
    obtain ⟨fired, h'⟩ := ends_choose (ends_await h)
    cases fired with
    | false => exact .await (ih h')
    | true => cases (ends_done h').2
  | choose k ih =>
    obtain ⟨b, h'⟩ := ends_choose h
    exact .choose b (ih b h')

/-! ### Time limits -/

section Limit

variable (look : E) (late : R look → Bool)

/-- `p` ended in `a`, and whenever the timer was looked at before, there was time left. -/
def InTime (p : Prog S E R α) (tr : List (Event E R)) (a : α) : Prop :=
  ∃ (own : List (Event E R)) (looks : List (R look)), Woven own (looks.map (Sigma.mk look)) tr ∧
    Ends p own a ∧ ∀ r ∈ looks, late r = false

/-- The timer was found late while `p` was suspended, showing `s`. -/
def TooLate (p : Prog S E R α) (tr : List (Event E R)) (s : S) : Prop :=
  ∃ (own : List (Event E R)) (looks : List (R look)) (before : List (Event E R)) (last : R look)
    (k : Prog S E R α), tr = before ++ [⟨look, last⟩] ∧ Woven own (looks.map (Sigma.mk look)) before ∧
    Leads p own (await s k) ∧ (∀ r ∈ looks, late r = false) ∧ late last = true

/-- What a time limit makes of a run of the program. -/
def Limited (p : Prog S E R α) (tr : List (Event E R)) : Except S α → Prop
  | .ok a => InTime look late p tr a
  | .error s => TooLate look late p tr s

variable {look late} {p q : Prog S E R α} {tr : List (Event E R)} {r : Except S α}

/-- Steps of the program in front. -/
theorem Limited.step {own : List (Event E R)} (h : Limited look late q tr r) (hp : Leads p own q) :
    Limited look late p (own ++ tr) r := by
  cases r with
  | ok a =>
    obtain ⟨l, looks, hw, hends, hlooks⟩ := h
    exact ⟨own ++ l, looks, hw.append_left own, hp.trans hends, hlooks⟩
  | error s =>
    obtain ⟨l, looks, before, last, k, rfl, hw, hleads, hlooks, hlast⟩ := h
    exact ⟨own ++ l, looks, own ++ before, last, k, (List.append_assoc _ _ _).symm,
      hw.append_left own, hp.trans hleads, hlooks, hlast⟩

/-- A look in front that found time left. -/
theorem Limited.looked {x : R look} (h : Limited look late p tr r) (hx : late x = false) :
    Limited look late p (⟨look, x⟩ :: tr) r := by
  cases r with
  | ok a =>
    obtain ⟨l, looks, hw, hends, hlooks⟩ := h
    exact ⟨l, x :: looks, hw.right, hends, List.forall_mem_cons.2 ⟨hx, hlooks⟩⟩
  | error s =>
    obtain ⟨l, looks, before, last, k, rfl, hw, hleads, hlooks, hlast⟩ := h
    exact ⟨l, x :: looks, _, last, k, rfl, hw.right, hleads, List.forall_mem_cons.2 ⟨hx, hlooks⟩,
      hlast⟩

/-- At a suspension the timer is late, or what follows is limited. -/
theorem ends_checked {s : S} {k : Prog S E R α} {p' : Prog S E R (Except S α)}
    (hp : ∀ {tr}, Ends p' tr r → Limited look late (await s k) tr r)
    (h : Ends (checked look late s p') tr r) : Limited look late (await s k) tr r := by
  obtain ⟨x, tr', rfl, h'⟩ := ends_act h
  split_ifs at h' with hx
  · obtain ⟨rfl, rfl⟩ := ends_done h'
    exact ⟨[], [], [], x, k, rfl, .nil, .refl _, by simp, hx⟩
  · exact (hp h').looked (by simpa using hx)

theorem ends_limit (h : Ends (p.limit look late) tr r) : Limited look late p tr r := by
  induction p generalizing tr with
  | done a =>
    obtain ⟨rfl, rfl⟩ := ends_done h
    exact ⟨[], [], .nil, .refl _, by simp⟩
  | act e k ih =>
    obtain ⟨x, tr', rfl, h'⟩ := ends_act h
    exact (ih x h').step (.act x (.refl _))
  | await s k ih =>
    have goes {tr} (h : Ends (k.limit look late) tr r) : Limited look late (await s k) tr r :=
      (ih h).step (.await (.refl k))
    refine ends_checked (fun h => ?_) h
    obtain ⟨ready, h'⟩ := ends_choose (ends_await h)
    cases ready with
    | true => exact goes h'
    | false => exact ends_checked goes h'
  | choose k ih =>
    obtain ⟨b, h'⟩ := ends_choose h
    exact (ih b h').step (.choose b (.refl (k b)))

end Limit

/-- How far each of two raced programs got. -/
def Raced.Got (p : Prog S E R α) (q : Prog S E R β) (l r : List (Event E R)) :
    Raced S E R α β → Prop
  | .inl (a, q') => Ends p l a ∧ Leads q r q'
  | .inr (b, p') => Leads p l p' ∧ Ends q r b

/-- A trace of a race is woven from a trace of each program. -/
def Raced.Splits (p : Prog S E R α) (q : Prog S E R β) (tr : List (Event E R))
    (w : Raced S E R α β) : Prop :=
  ∃ l r, Woven l r tr ∧ Raced.Got p q l r w

/-- Steps of the left program in front. -/
theorem Raced.Splits.left {p p' : Prog S E R α} {q : Prog S E R β} {s tr : List (Event E R)}
    {w : Raced S E R α β} (h : Raced.Splits p' q tr w) (hp : Leads p s p') :
    Raced.Splits p q (s ++ tr) w := by
  obtain ⟨l, r, hw, hgot⟩ := h
  refine ⟨s ++ l, r, hw.append_left s, ?_⟩
  cases w with
  | inl x => exact ⟨hp.trans hgot.1, hgot.2⟩
  | inr x => exact ⟨hp.trans hgot.1, hgot.2⟩

/-- Steps of the right program in front. -/
theorem Raced.Splits.right {p : Prog S E R α} {q q' : Prog S E R β} {s tr : List (Event E R)}
    {w : Raced S E R α β} (h : Raced.Splits p q' tr w) (hq : Leads q s q') :
    Raced.Splits p q (s ++ tr) w := by
  obtain ⟨l, r, hw, hgot⟩ := h
  refine ⟨l, s ++ r, hw.append_right s, ?_⟩
  cases w with
  | inl x => exact ⟨hgot.1, hq.trans hgot.2⟩
  | inr x => exact ⟨hgot.1, hq.trans hgot.2⟩

theorem ends_selectRight {p : Prog S E R α} {q : Prog S E R β}
    {resume : Prog S E R β → Prog S E R (Raced S E R α β)} {tr : List (Event E R)}
    {w : Raced S E R α β} (hr : ∀ {q' tr w}, Ends (resume q') tr w → Raced.Splits p q' tr w)
    (h : Ends (selectRight p resume q) tr w) : Raced.Splits p q tr w := by
  induction q generalizing tr with
  | done b =>
    obtain ⟨rfl, rfl⟩ := ends_done h
    exact ⟨[], [], .nil, .refl p, .refl _⟩
  | act e k ih =>
    obtain ⟨r, tr', rfl, h'⟩ := ends_act h
    exact (ih r h').right (.act r (.refl _))
  | await s k ih =>
    obtain ⟨b, h'⟩ := ends_choose (ends_await h)
    cases b with
    | false => exact (ih h').right (s := []) (.await (.refl k))
    | true => exact (hr h').right (s := []) (.await (.refl k))
  | choose k ih =>
    obtain ⟨b, h'⟩ := ends_choose h
    exact (ih b h').right (s := []) (.choose b (.refl (k b)))

theorem ends_selectLeft {p : Prog S E R α} {q : Prog S E R β} {tr : List (Event E R)}
    {w : Raced S E R α β} (h : Ends (selectLeft p q) tr w) : Raced.Splits p q tr w := by
  induction p generalizing q tr w with
  | done a =>
    obtain ⟨rfl, rfl⟩ := ends_done h
    exact ⟨[], [], .nil, .refl _, .refl q⟩
  | act e k ih =>
    obtain ⟨r, tr', rfl, h'⟩ := ends_act h
    exact (ih r h').left (.act r (.refl _))
  | await s k ih =>
    obtain ⟨b, h'⟩ := ends_choose (ends_await h)
    have hk : Leads (await s k) [] k := .await (.refl k)
    cases b with
    | false => exact (ends_selectRight (fun hr => ih hr) h').left hk
    | true => exact (ih h').left hk
  | choose k ih =>
    obtain ⟨b, h'⟩ := ends_choose h
    exact (ih b h').left (s := []) (.choose b (.refl (k b)))

/-- A race that ends is woven from the winner's run and a beginning of the loser's. -/
theorem ends_select {p : Prog S E R α} {q : Prog S E R β} {tr : List (Event E R)}
    {w : Raced S E R α β} (h : Ends (select p q) tr w) : Raced.Splits p q tr w := by
  induction p generalizing q tr with
  | done a =>
    obtain ⟨rfl, rfl⟩ := ends_done h
    exact ⟨[], [], .nil, .refl _, .refl q⟩
  | act e k ih =>
    obtain ⟨r, tr', rfl, h'⟩ := ends_act h
    exact (ih r h').left (.act r (.refl _))
  | await s k ih =>
    exact (ends_selectRight (fun hr => ends_selectLeft hr) h).left (s := []) (.await (.refl k))
  | choose k ih =>
    obtain ⟨b, h'⟩ := ends_choose h
    exact (ih b h').left (s := []) (.choose b (.refl (k b)))

end Prog

end FerrumDns
