import FerrumDns.Prog.Combine
import FerrumDns.Prog.Crew

/-! Programs whose actions stand for programs. Expanding a program puts for each of its
actions what stands for it, and the results it can end with are results of the program.
A rule about the past carries over: if what stands for an action heeds a second rule
wherever the first one allows the action, the expanded program heeds the second rule,
as long as its past stands for a past of the program. -/

namespace FerrumDns

namespace Prog

variable {S E E' : Type} {R : E → Type} {R' : E' → Type} {α β : Type}

/-- `p` with `f e` in place of each action `e`. -/
def expand (f : (e : E) → Prog S E' R' (R e)) : Prog S E R α → Prog S E' R' α
  | done a => done a
  | act e k => (f e).bind fun r => (k r).expand f
  | await s k => await s (k.expand f)
  | choose k => choose fun b => (k b).expand f

variable {f : (e : E) → Prog S E' R' (R e)}

theorem ends_expand {p : Prog S E R α} {tr' : List (Event E' R')} {a : α}
    (h : Ends (p.expand f) tr' a) : ∃ tr, Ends p tr a := by
  induction p generalizing tr' with
  | done b =>
    obtain ⟨-, rfl⟩ := ends_done h
    exact ⟨[], .refl _⟩
  | act e k ih =>
    obtain ⟨_, _, r, -, -, hk⟩ := ends_bind h
    obtain ⟨tr, htr⟩ := ih r hk
    exact ⟨⟨e, r⟩ :: tr, .act r htr⟩
  | await s k ih =>
    obtain ⟨tr, htr⟩ := ih (ends_await h)
    exact ⟨tr, .await htr⟩
  | choose k ih =>
    obtain ⟨b, hb⟩ := ends_choose h
    obtain ⟨tr, htr⟩ := ih b hb
    exact ⟨tr, .choose b htr⟩

/-! ### Rules about the past -/

variable {G : List (Event E R) → E → Prop} {past : List (Event E R)}

/-- A timer only cuts a program short. -/
theorem Heeds.timeout {p : Prog S E R α} (h : p.Heeds G past) : p.timeout.Heeds G past := by
  induction p generalizing past with
  | done a => trivial
  | act e k ih => exact ⟨h.1, fun r => ih r (h.2 r)⟩
  | await s k ih =>
    intro fired
    cases fired
    · exact ih h
    · trivial
  | choose k ih => exact fun b => ih b (h b)

theorem Heeds.expand {G' : List (Event E' R') → E' → Prop}
    {stands : List (Event E R) → List (Event E' R') → Prop}
    (hf : ∀ {past past' e}, stands past past' → G past e → (f e).Heeds G' past' ∧
      ∀ tr r, Ends (f e) tr r → stands (past ++ [⟨e, r⟩]) (past' ++ tr))
    {p : Prog S E R α} {past' : List (Event E' R')} (h : p.Heeds G past) (hs : stands past past') :
    (p.expand f).Heeds G' past' := by
  induction p generalizing past past' with
  | done a => trivial
  | act e k ih =>
    obtain ⟨hheeds, hstands⟩ := hf hs h.1
    exact hheeds.bind fun tr r hr => ih r (h.2 r) (hstands tr r hr)
  | await s k ih => exact ih h hs
  | choose k ih => exact fun b => ih b (h b) hs

end Prog

end FerrumDns
