import FerrumDns.Prog.Pool

/-! Executing a task alone, against a world that answers deterministically, with
every scheduling choice settled by one coin. The result is a trace of the program
and a run of any pool whose machine allows those answers. -/

namespace FerrumDns

open Prog

namespace Prog

variable {W T S E : Type} {R : E → Type} {α : Type}

/-- What an action answers, the world it leaves and the tasks it starts, if it can go on. -/
abbrev Oracle (W T S E : Type) (R : E → Type) :=
  W → (e : E) → Option (R e × W × List (T × Prog S E R Unit))

/-- The trace, the result, the last world and the tasks started. -/
def play (h : Oracle W T S E R) (coin : Bool) :
    Prog S E R α → W → Option (List (Event E R) × α × W × List (T × Prog S E R Unit))
  | done a, w => some ([], a, w, [])
  | act e k, w =>
    match h w e with
    | none => none
    | some (r, w', new) =>
      match (k r).play h coin w' with
      | none => none
      | some (tr, a, w'', new') => some (⟨e, r⟩ :: tr, a, w'', new ++ new')
  | await _ k, w => k.play h coin w
  | choose k, w => (k coin).play h coin w

variable {h : Oracle W T S E R} {coin : Bool}

theorem play_act {e : E} {k : R e → Prog S E R α} {w : W} {x}
    (hp : (act e k).play h coin w = some x) :
    ∃ r w' new tr a w'' new', h w e = some (r, w', new) ∧
      (k r).play h coin w' = some (tr, a, w'', new') ∧ x = (⟨e, r⟩ :: tr, a, w'', new ++ new') := by
  rw [play] at hp
  cases he : h w e with
  | none => simp [he] at hp
  | some y =>
    obtain ⟨r, w', new⟩ := y
    cases hk : (k r).play h coin w' with
    | none => simp [he, hk] at hp
    | some z =>
      obtain ⟨tr, a, w'', new'⟩ := z
      exact ⟨r, w', new, tr, a, w'', new', rfl, hk, by simpa [he, hk] using hp.symm⟩

theorem play_ends {p : Prog S E R α} {w w' : W} {tr : List (Event E R)} {a : α}
    {new : List (T × Prog S E R Unit)} (hp : p.play h coin w = some (tr, a, w', new)) :
    Ends p tr a := by
  induction p generalizing w tr new with
  | done b =>
    simp only [play, Option.some.injEq, Prod.mk.injEq] at hp
    obtain ⟨rfl, rfl, -⟩ := hp
    exact .refl _
  | act e k ih =>
    obtain ⟨r, w₁, new₁, tr', a', w'', new', -, hk, hx⟩ := play_act hp
    cases hx
    exact .act r (ih r hk)
  | await s k ih => exact .await (ih hp)
  | choose k ih => exact .choose coin (ih coin hp)

theorem play_bind {β : Type} {p : Prog S E R α} {f : α → Prog S E R β} {w w' w'' : W}
    {tr tr' : List (Event E R)} {a : α} {b : β} {new new' : List (T × Prog S E R Unit)}
    (hp : p.play h coin w = some (tr, a, w', new))
    (hf : (f a).play h coin w' = some (tr', b, w'', new')) :
    (p.bind f).play h coin w = some (tr ++ tr', b, w'', new ++ new') := by
  induction p generalizing w tr new with
  | done c =>
    simp only [play, Option.some.injEq, Prod.mk.injEq] at hp
    obtain ⟨rfl, rfl, rfl, rfl⟩ := hp
    exact hf
  | act e k ih =>
    obtain ⟨r, w₁, new₁, tr₁, a₁, w₂, new₂, he, hk, hx⟩ := play_act hp
    cases hx
    simp [play, he, ih r hk]
  | await s k ih => exact ih hp
  | choose k ih => exact ih coin hp

end Prog

namespace Pool

variable {W T S E : Type} {R : E → Type} {M : Machine W T S E R}

/-- The machine may answer as the oracle does. -/
def Allows (M : Machine W T S E R) (h : Oracle W T S E R) : Prop :=
  ∀ {w e r w' new}, h w e = some (r, w', new) → M.perform w e r w' new

/-- A task played alone is a run of the pool it is in, up to where the task is done. -/
theorem play_run {h : Oracle W T S E R} (hM : Allows M h) {coin : Bool} {p : Prog S E R Unit}
    {w w' : W} {tr : List (Event E R)} {new : List (T × Prog S E R Unit)}
    (hp : p.play h coin w = some (tr, (), w', new)) (l l' : List (T × Prog S E R Unit)) (t : T) :
    Run M ⟨w, l ++ (t, p) :: l'⟩ tr ⟨w', l ++ (t, .done ()) :: (l' ++ new)⟩ := by
  induction p generalizing w tr new l' with
  | done a =>
    simp only [play, Option.some.injEq, Prod.mk.injEq] at hp
    obtain ⟨rfl, -, rfl, rfl⟩ := hp
    simpa using Run.refl _
  | act e k ih =>
    obtain ⟨r, w₁, new₁, tr', a, w'', new', he, hk, hx⟩ := play_act hp
    cases hx
    have hstep : Step M ⟨w, l ++ (t, .act e k) :: l'⟩ (some ⟨e, r⟩)
        ⟨w₁, l ++ (t, k r) :: l' ++ new₁⟩ := .act (hM he)
    have hrest := ih r hk (l' ++ new₁)
    simp only [List.append_assoc, List.cons_append] at hstep hrest ⊢
    exact .step hstep hrest
  | await s k ih => exact .step .await (ih hp l')
  | choose k ih => exact .step (.choose coin) (ih coin hp l')

end Pool

end FerrumDns
