import Mathlib.Data.List.Basic

/-! Cooperative programs over a shared world. A program finishes, performs one
atomic action and goes on with the answer, suspends (showing the state its owner
would be left with if it were dropped there), or lets the scheduler decide.
Actions and their answers are parameters. A contract says which actions a
program may perform, what it may assume of their answers, and what holds of
every state it can be dropped in. Nothing here depends on what the actions do. -/

namespace FerrumDns

/-- A program with suspension states `S`, actions `E` answered in `R`, and result `α`. -/
inductive Prog (S E : Type) (R : E → Type) (α : Type) : Type where
  | done (a : α)
  | act (e : E) (k : R e → Prog S E R α)
  | await (s : S) (k : Prog S E R α)
  | choose (k : Bool → Prog S E R α)

namespace Prog

variable {S E : Type} {R : E → Type} {α β γ : Type}

/-- Run `p`, then `f` on its result. -/
def bind : Prog S E R α → (α → Prog S E R β) → Prog S E R β
  | done a, f => f a
  | act e k, f => act e fun r => (k r).bind f
  | await s k, f => await s (k.bind f)
  | choose k, f => choose fun b => (k b).bind f

@[simp] theorem bind_done (a : α) (f : α → Prog S E R β) : (done a).bind f = f a := rfl

@[simp] theorem bind_act (e : E) (k : R e → Prog S E R α) (f : α → Prog S E R β) :
    (act e k).bind f = act e fun r => (k r).bind f := rfl

@[simp] theorem bind_await (s : S) (k : Prog S E R α) (f : α → Prog S E R β) :
    (await s k).bind f = await s (k.bind f) := rfl

@[simp] theorem bind_choose (k : Bool → Prog S E R α) (f : α → Prog S E R β) :
    (choose k).bind f = choose fun b => (k b).bind f := rfl

theorem bind_assoc (p : Prog S E R α) (f : α → Prog S E R β) (g : β → Prog S E R γ) :
    (p.bind f).bind g = p.bind fun a => (f a).bind g := by
  induction p with
  | done a => rfl
  | act e k ih => simp only [bind_act, ih]
  | await s k ih => simp only [bind_await, ih]
  | choose k ih => simp only [bind_choose, ih]

/-! ### Traces -/

/-- An action together with the answer it got. -/
abbrev Event (E : Type) (R : E → Type) := (e : E) × R e

/-- `Leads p tr q`: after the answered actions `tr`, `q` is what is left of `p`. -/
inductive Leads : Prog S E R α → List (Event E R) → Prog S E R α → Prop
  | refl (p : Prog S E R α) : Leads p [] p
  | act {e : E} {k : R e → Prog S E R α} {tr q} (r : R e) (h : Leads (k r) tr q) :
      Leads (act e k) (⟨e, r⟩ :: tr) q
  | await {s : S} {k : Prog S E R α} {tr q} (h : Leads k tr q) : Leads (await s k) tr q
  | choose {k : Bool → Prog S E R α} {tr q} (b : Bool) (h : Leads (k b) tr q) :
      Leads (choose k) tr q

/-- `p` ends in `a` after the answered actions `tr`. -/
abbrev Ends (p : Prog S E R α) (tr : List (Event E R)) (a : α) : Prop := Leads p tr (done a)

theorem ends_done {a b : α} {tr : List (Event E R)} (h : Ends (done a : Prog S E R α) tr b) :
    tr = [] ∧ a = b := by
  cases h
  exact ⟨rfl, rfl⟩

theorem ends_act {e : E} {k : R e → Prog S E R α} {tr : List (Event E R)} {a : α}
    (h : Ends (act (S := S) e k) tr a) : ∃ r tr', tr = ⟨e, r⟩ :: tr' ∧ Ends (k r) tr' a := by
  cases h with
  | act r h => exact ⟨r, _, rfl, h⟩

theorem ends_await {s : S} {k : Prog S E R α} {tr : List (Event E R)} {a : α}
    (h : Ends (await s k) tr a) : Ends k tr a := by
  cases h with
  | await h => exact h

theorem ends_choose {k : Bool → Prog S E R α} {tr : List (Event E R)} {a : α}
    (h : Ends (choose k) tr a) : ∃ b, Ends (k b) tr a := by
  cases h with
  | choose b h => exact ⟨b, h⟩

theorem Leads.trans {p q r : Prog S E R α} {tr tr' : List (Event E R)} (h : Leads p tr q)
    (h' : Leads q tr' r) : Leads p (tr ++ tr') r := by
  induction h with
  | refl p => exact h'
  | act r _ ih => exact .act r (ih h')
  | await _ ih => exact .await (ih h')
  | choose b _ ih => exact .choose b (ih h')

theorem Leads.bind {p q : Prog S E R α} {tr : List (Event E R)} (h : Leads p tr q)
    (f : α → Prog S E R β) : Leads (p.bind f) tr (q.bind f) := by
  induction h with
  | refl p => exact .refl _
  | act r _ ih => exact .act r ih
  | await _ ih => exact .await ih
  | choose b _ ih => exact .choose b ih

/-- A finished sequence of two programs splits at the first one's result. -/
theorem ends_bind {p : Prog S E R α} {f : α → Prog S E R β} {tr : List (Event E R)} {b : β}
    (h : Ends (p.bind f) tr b) :
    ∃ tr₁ tr₂ a, tr = tr₁ ++ tr₂ ∧ Ends p tr₁ a ∧ Ends (f a) tr₂ b := by
  induction p generalizing tr with
  | done a => exact ⟨[], tr, a, rfl, .refl _, h⟩
  | act e k ih =>
    obtain ⟨r, tr', rfl, h'⟩ := ends_act h
    obtain ⟨tr₁, tr₂, a, rfl, h₁, h₂⟩ := ih r h'
    exact ⟨⟨e, r⟩ :: tr₁, tr₂, a, rfl, .act r h₁, h₂⟩
  | await s k ih =>
    obtain ⟨tr₁, tr₂, a, rfl, h₁, h₂⟩ := ih (ends_await h)
    exact ⟨tr₁, tr₂, a, rfl, .await h₁, h₂⟩
  | choose k ih =>
    obtain ⟨c, h'⟩ := ends_choose h
    obtain ⟨tr₁, tr₂, a, rfl, h₁, h₂⟩ := ih c h'
    exact ⟨tr₁, tr₂, a, rfl, .choose c h₁, h₂⟩

theorem Ends.bind {p : Prog S E R α} {f : α → Prog S E R β} {tr tr' : List (Event E R)} {a : α}
    {b : β} (h : Ends p tr a) (h' : Ends (f a) tr' b) : Ends (p.bind f) (tr ++ tr') b :=
  (Leads.bind h f).trans h'

/-- Programs that go on alike after every result that can be reached are equal. -/
theorem bind_eq_of_ends {p : Prog S E R α} {f g : α → Prog S E R β}
    (h : ∀ tr a, Ends p tr a → f a = g a) : p.bind f = p.bind g := by
  induction p with
  | done a => exact h [] a (.refl _)
  | act e k ih =>
    simp only [bind_act]
    congr 1
    funext r
    exact ih r fun tr a he => h _ a (.act r he)
  | await s k ih =>
    simp only [bind_await]
    congr 1
    exact ih fun tr a he => h tr a (.await he)
  | choose k ih =>
    simp only [bind_choose]
    congr 1
    funext b
    exact ih b fun tr a he => h tr a (.choose b he)

/-! ### Contracts -/

/-- What a program promises of its actions, relies on in their answers, and keeps in every state
it can be dropped in. -/
structure Contract (S E : Type) (R : E → Type) where
  guar : E → Prop
  rely : (e : E) → R e → Prop
  held : S → Prop

/-- `p` keeps the contract, and its result satisfies `post`, whatever the relied-on answers are. -/
def Sat (C : Contract S E R) (post : α → Prop) : Prog S E R α → Prop
  | done a => post a
  | act e k => C.guar e ∧ ∀ r, C.rely e r → (k r).Sat C post
  | await s k => C.held s ∧ k.Sat C post
  | choose k => ∀ b, (k b).Sat C post

variable {C : Contract S E R}

theorem Sat.mono {post post' : α → Prop} {p : Prog S E R α} (h : p.Sat C post)
    (hpost : ∀ a, post a → post' a) : p.Sat C post' := by
  induction p with
  | done a => exact hpost a h
  | act e k ih => exact ⟨h.1, fun r hr => ih r (h.2 r hr)⟩
  | await s k ih => exact ⟨h.1, ih h.2⟩
  | choose k ih => exact fun b => ih b (h b)

theorem Sat.bind {post : α → Prop} {post' : β → Prop} {p : Prog S E R α} {f : α → Prog S E R β}
    (h : p.Sat C post) (hf : ∀ a, post a → (f a).Sat C post') : (p.bind f).Sat C post' := by
  induction p with
  | done a => exact hf a h
  | act e k ih => exact ⟨h.1, fun r hr => ih r (h.2 r hr)⟩
  | await s k ih => exact ⟨h.1, ih h.2⟩
  | choose k ih => exact fun b => ih b (h b)

/-- Along a trace whose answers can be relied on, every action is one the contract allows and what
is left of the program still keeps it. -/
theorem Sat.leads {post : α → Prop} {p q : Prog S E R α} {tr : List (Event E R)}
    (h : p.Sat C post) (hl : Leads p tr q) (hr : ∀ ev ∈ tr, C.rely ev.1 ev.2) :
    (∀ ev ∈ tr, C.guar ev.1) ∧ q.Sat C post := by
  induction hl with
  | refl p => exact ⟨by simp, h⟩
  | @act e k tr q r _ ih =>
    obtain ⟨hg, hq⟩ := ih (h.2 r (hr ⟨e, r⟩ (by simp))) fun ev hev => hr ev (by simp [hev])
    refine ⟨fun ev hev => ?_, hq⟩
    rcases List.mem_cons.1 hev with rfl | hev
    · exact h.1
    · exact hg ev hev
  | await _ ih => exact ih h.2 hr
  | choose b _ ih => exact ih (h b) hr

theorem Sat.ends {post : α → Prop} {p : Prog S E R α} {tr : List (Event E R)} {a : α}
    (h : p.Sat C post) (he : Ends p tr a) (hr : ∀ ev ∈ tr, C.rely ev.1 ev.2) :
    (∀ ev ∈ tr, C.guar ev.1) ∧ post a :=
  h.leads he hr

/-- What holds of every result can be added to a contract that is kept. -/
theorem Sat.of_ends {post post' : α → Prop} {p : Prog S E R α} (h : p.Sat C post)
    (hp : ∀ tr a, Ends p tr a → post' a) : p.Sat C post' := by
  induction p with
  | done a => exact hp [] a (.refl _)
  | act e k ih => exact ⟨h.1, fun r hr => ih r (h.2 r hr) fun tr a he => hp _ a (.act r he)⟩
  | await s k ih => exact ⟨h.1, ih h.2 fun tr a he => hp tr a (.await he)⟩
  | choose k ih => exact fun b => ih b (h b) fun tr a he => hp tr a (.choose b he)

end Prog

end FerrumDns
