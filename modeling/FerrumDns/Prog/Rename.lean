import FerrumDns.Prog.Combine
import Mathlib.Logic.Equiv.Defs

/-! Programs under a renaming of their suspension states and actions. A renamed
program has the renamed traces and no others, and the combinators of programs commute
with renaming: two programs with the same renaming cannot be told apart by what it
keeps. -/

namespace FerrumDns

/-- States and actions are renamed; the answers to an action stay the same up to a bijection. -/
structure Renaming (S E : Type) (R : E → Type) (S' E' : Type) (R' : E' → Type) where
  state : S → S'
  eff : E → E'
  answer : (e : E) → R e ≃ R' (eff e)

namespace Prog

variable {S E S' E' : Type} {R : E → Type} {R' : E' → Type} {α α' β β' : Type}

/-- An answered action under its new name. -/
def event (ρ : Renaming S E R S' E' R') (ev : Event E R) : Event E' R' :=
  ⟨ρ.eff ev.1, ρ.answer ev.1 ev.2⟩

/-- `p` renamed, with `f` applied to its result. -/
def rename (ρ : Renaming S E R S' E' R') (f : α → α') : Prog S E R α → Prog S' E' R' α'
  | done a => done (f a)
  | act e k => act (ρ.eff e) fun r => (k ((ρ.answer e).symm r)).rename ρ f
  | await s k => await (ρ.state s) (k.rename ρ f)
  | choose k => choose fun b => (k b).rename ρ f

variable (ρ : Renaming S E R S' E' R')

/-! ### Traces -/

theorem Ends.rename (f : α → α') {p : Prog S E R α} {tr : List (Event E R)} {a : α}
    (h : Ends p tr a) : Ends (p.rename ρ f) (tr.map (event ρ)) (f a) := by
  induction p generalizing tr with
  | done b =>
    obtain ⟨rfl, rfl⟩ := ends_done h
    exact .refl _
  | act e k ih =>
    obtain ⟨r, tr', rfl, h'⟩ := ends_act h
    refine .act (ρ.answer e r) ?_
    rw [Equiv.symm_apply_apply]
    exact ih r h'
  | await s k ih => exact .await (ih (ends_await h))
  | choose k ih =>
    obtain ⟨b, h'⟩ := ends_choose h
    exact .choose b (ih b h')

theorem ends_rename {f : α → α'} {p : Prog S E R α} {tr' : List (Event E' R')} {a' : α'}
    (h : Ends (p.rename ρ f) tr' a') : ∃ tr a, Ends p tr a ∧ tr.map (event ρ) = tr' ∧ f a = a' := by
  induction p generalizing tr' with
  | done b =>
    obtain ⟨rfl, rfl⟩ := ends_done h
    exact ⟨[], b, .refl _, rfl, rfl⟩
  | act e k ih =>
    obtain ⟨r', tr₁, rfl, h'⟩ := ends_act h
    obtain ⟨tr, a, htr, rfl, rfl⟩ := ih _ h'
    refine ⟨⟨e, (ρ.answer e).symm r'⟩ :: tr, a, .act _ htr, ?_, rfl⟩
    rw [List.map_cons, event, Equiv.apply_symm_apply]
  | await s k ih =>
    obtain ⟨tr, a, htr, rfl, rfl⟩ := ih (ends_await h)
    exact ⟨tr, a, .await htr, rfl, rfl⟩
  | choose k ih =>
    obtain ⟨b, h'⟩ := ends_choose h
    obtain ⟨tr, a, htr, rfl, rfl⟩ := ih b h'
    exact ⟨tr, a, .choose b htr, rfl, rfl⟩

/-- What one program can do, another with the same renaming can do up to it. -/
theorem Ends.of_rename_eq {f : α → α'} {p q : Prog S E R α} (hpq : p.rename ρ f = q.rename ρ f)
    {tr : List (Event E R)} {a : α} (h : Ends p tr a) :
    ∃ tr' a', Ends q tr' a' ∧ tr'.map (event ρ) = tr.map (event ρ) ∧ f a' = f a :=
  ends_rename ρ (hpq ▸ h.rename ρ f)

/-! ### Combinators -/

theorem rename_bind {f : α → α'} {g : β → β'} (p : Prog S E R α) {k : α → Prog S E R β}
    {k' : α' → Prog S' E' R' β'} (hk : ∀ a, (k a).rename ρ g = k' (f a)) :
    (p.bind k).rename ρ g = (p.rename ρ f).bind k' := by
  induction p with
  | done a => exact hk a
  | act e c ih => simp only [bind_act, rename, ih]
  | await s c ih => simp only [bind_await, rename, ih]
  | choose c ih => simp only [bind_choose, rename, ih]

theorem rename_hold (f : α → α') (s : S) (p : Prog S E R α) :
    (p.hold s).rename ρ f = (p.rename ρ f).hold (ρ.state s) := by
  induction p with
  | done a => rfl
  | act e c ih => simp only [hold, rename, ih]
  | await s' c ih => simp only [hold, rename, ih]
  | choose c ih => simp only [hold, rename, ih]

/-- The result of a timeout, renamed. -/
def renameTimed (f : α → α') : Except S α → Except S' α'
  | .ok a => .ok (f a)
  | .error s => .error (ρ.state s)

theorem rename_timeout (f : α → α') (p : Prog S E R α) :
    p.timeout.rename ρ (renameTimed ρ f) = (p.rename ρ f).timeout := by
  induction p with
  | done a => rfl
  | act e c ih => simp only [timeout, rename, ih]
  | await s c ih =>
    simp only [timeout, rename, await.injEq, choose.injEq, true_and]
    funext fired
    cases fired
    · exact ih
    · rfl
  | choose c ih => simp only [timeout, rename, ih]

section Limit

variable {look : E} {late : R look → Bool} {late' : R' (ρ.eff look) → Bool}
  (hlate : ∀ r, late' (ρ.answer look r) = late r)

include hlate

theorem rename_checked (f : α → α') (s : S) (p : Prog S E R (Except S α)) :
    (p.checked look late s).rename ρ (renameTimed ρ f) =
      (p.rename ρ (renameTimed ρ f)).checked (ρ.eff look) late' (ρ.state s) := by
  refine congrArg (act (ρ.eff look)) (funext fun r => ?_)
  dsimp only
  rw [← hlate, Equiv.apply_symm_apply]
  split_ifs <;> rfl

/-- A time limit is renamed with the action that looks at the timer. -/
theorem rename_limit (f : α → α') (p : Prog S E R α) :
    (p.limit look late).rename ρ (renameTimed ρ f) = (p.rename ρ f).limit (ρ.eff look) late' := by
  induction p with
  | done a => rfl
  | act e c ih => simp only [limit, rename, ih]
  | await s c ih =>
    simp only [limit, rename, rename_checked ρ hlate]
    congr 3
    funext ready
    cases ready
    · exact (rename_checked ρ hlate f s _).trans (by rw [ih]; rfl)
    · exact ih
  | choose c ih => simp only [limit, rename, ih]

end Limit

/-- The result of a race, renamed: the loser's rest is renamed as a program. -/
def renameRaced (f : α → α') (g : β → β') : Raced S E R α β → Raced S' E' R' α' β'
  | .inl (a, q) => .inl (f a, q.rename ρ g)
  | .inr (b, p) => .inr (g b, p.rename ρ f)

variable (f : α → α') (g : β → β')

theorem rename_selectRight (p : Prog S E R α)
    {resume : Prog S E R β → Prog S E R (Raced S E R α β)}
    {resume' : Prog S' E' R' β' → Prog S' E' R' (Raced S' E' R' α' β')}
    (hr : ∀ q, (resume q).rename ρ (renameRaced ρ f g) = resume' (q.rename ρ g))
    (q : Prog S E R β) : (selectRight p resume q).rename ρ (renameRaced ρ f g) =
      selectRight (p.rename ρ f) resume' (q.rename ρ g) := by
  induction q with
  | done b => rfl
  | act e c ih => simp only [selectRight, rename, ih]
  | await s c ih =>
    simp only [selectRight, rename, await.injEq, choose.injEq, true_and]
    funext b
    cases b
    · exact ih
    · exact hr c
  | choose c ih => simp only [selectRight, rename, ih]

theorem rename_selectLeft (p : Prog S E R α) (q : Prog S E R β) :
    (selectLeft p q).rename ρ (renameRaced ρ f g) =
      selectLeft (p.rename ρ f) (q.rename ρ g) := by
  induction p generalizing q with
  | done a => rfl
  | act e c ih => simp only [selectLeft, rename, ih]
  | await s c ih =>
    simp only [selectLeft, rename, await.injEq, choose.injEq, true_and]
    funext b
    cases b
    · exact rename_selectRight ρ f g c ih q
    · exact ih q
  | choose c ih => simp only [selectLeft, rename, ih]

theorem rename_select (p : Prog S E R α) (q : Prog S E R β) :
    (select p q).rename ρ (renameRaced ρ f g) = select (p.rename ρ f) (q.rename ρ g) := by
  induction p generalizing q with
  | done a => rfl
  | act e c ih => simp only [select, rename, ih]
  | await s c _ => exact rename_selectRight ρ f g c (rename_selectLeft ρ f g c) q
  | choose c ih => simp only [select, rename, ih]

end Prog

end FerrumDns
