import FerrumDns.Prog.Play

/-! Programs side by side over one world, each with the actions it has performed. Any of
them may go on at any time, and may be dropped wherever it stands. What a program
does next may depend on what it has done, so a rule for its actions is one about an
action and the actions before it; a program that heeds the rule heeds it in any company. -/

namespace FerrumDns

namespace Prog

variable {S E : Type} {R : E → Type} {α β : Type}

/-! ### Rules about the past -/

/-- Every action that `p` comes to is one the rule allows after the actions before it. -/
def Heeds (G : List (Event E R) → E → Prop) : List (Event E R) → Prog S E R α → Prop
  | _, done _ => True
  | past, act e k => G past e ∧ ∀ r, (k r).Heeds G (past ++ [⟨e, r⟩])
  | past, await _ k => k.Heeds G past
  | past, choose k => ∀ b, (k b).Heeds G past

variable {G : List (Event E R) → E → Prop} {past : List (Event E R)}

theorem Heeds.bind {p : Prog S E R α} {f : α → Prog S E R β} (h : p.Heeds G past)
    (hf : ∀ tr a, Ends p tr a → (f a).Heeds G (past ++ tr)) : (p.bind f).Heeds G past := by
  induction p generalizing past with
  | done a => simpa using hf [] a (.refl _)
  | act e k ih =>
    refine ⟨h.1, fun r => ih r (h.2 r) fun tr a hends => ?_⟩
    have hlong := hf (⟨e, r⟩ :: tr) a (.act r hends)
    rwa [List.append_assoc, List.singleton_append]
  | await s k ih => exact ih h fun tr a hends => hf tr a (.await hends)
  | choose k ih => exact fun b => ih b (h b) fun tr a hends => hf tr a (.choose b hends)

/-- What is left of a program heeds the rule with what has been done as its past. -/
theorem Heeds.leads {p q : Prog S E R α} {tr : List (Event E R)} (h : p.Heeds G past)
    (hl : Leads p tr q) : q.Heeds G (past ++ tr) := by
  induction hl generalizing past with
  | refl p => simpa using h
  | act r _ ih => simpa using ih (h.2 r)
  | await _ ih => exact ih h
  | choose b _ ih => exact ih (h b)

/-- A program whose actions are all of one kind heeds a rule that allows them after such actions. -/
theorem Heeds.of_sat {C : Contract S E R} {post : α → Prop} {p : Prog S E R α} (h : p.Sat C post)
    (hrely : ∀ e r, C.rely e r)
    (hG : ∀ tr e, (∀ ev ∈ tr, C.guar ev.1) → C.guar e → G (past ++ tr) e) : p.Heeds G past := by
  induction p generalizing past with
  | done a => trivial
  | act e k ih =>
    refine ⟨by simpa using hG [] e (by simp) h.1, fun r => ih r (h.2 r (hrely e r)) ?_⟩
    intro tr e' htr he'
    rw [List.append_assoc, List.singleton_append]
    exact hG (⟨e, r⟩ :: tr) e' (by simpa using ⟨h.1, htr⟩) he'
  | await s k ih => exact ih h.2 hG
  | choose k ih => exact fun b => ih b (h b) hG

end Prog

open Prog

/-! ### Crews -/

/-- A program under way. -/
structure Member (S E : Type) (R : E → Type) (α : Type) where
  start : Prog S E R α
  past : List (Event E R)
  rest : Prog S E R α
  leads : Leads start past rest

/-- What an action does to the world and answers, how the world moves by itself, and which programs
may start. -/
structure Site (W S E : Type) (R : E → Type) (α : Type) where
  perform : W → (e : E) → R e → W → Prop
  drift : W → W → Prop
  admits : Prog S E R α → Prop

structure Crew (W S E : Type) (R : E → Type) (α : Type) where
  world : W
  members : List (Member S E R α)

namespace Member

variable {S E : Type} {R : E → Type} {α : Type}

@[reducible] def begin (p : Prog S E R α) : Member S E R α := ⟨p, [], p, .refl p⟩

/-- The member after one more action, and after a silent step. -/
@[reducible] def acted (t : Member S E R α) {e : E} {k : R e → Prog S E R α} (h : t.rest = .act e k)
    (r : R e) : Member S E R α :=
  ⟨t.start, t.past ++ [⟨e, r⟩], k r, t.leads.trans (h ▸ .act r (.refl _))⟩

@[reducible] def moved (t : Member S E R α) {q : Prog S E R α} (h : Leads t.rest [] q) :
    Member S E R α :=
  ⟨t.start, t.past, q, by simpa using t.leads.trans h⟩

/-- A member about to act heeds in this the rule its program heeds. -/
theorem heeds {G : List (Event E R) → E → Prop} {t : Member S E R α} {e : E}
    {k : R e → Prog S E R α} (h : t.start.Heeds G []) (hrest : t.rest = .act e k) : G t.past e := by
  have hleft := h.leads t.leads
  rw [hrest, List.nil_append] at hleft
  exact hleft.1

end Member

namespace Crew

variable {W S E : Type} {R : E → Type} {α : Type} (M : Site W S E R α)

/-- A step, with the member that acted if one did, and what it did. -/
inductive Step : Crew W S E R α → Option (Member S E R α × Event E R) → Crew W S E R α → Prop
  | act {w w' l l'} {t : Member S E R α} {e k} (h : t.rest = .act e k) (r : R e)
      (hw : M.perform w e r w') :
      Step ⟨w, l ++ t :: l'⟩ (some (t, ⟨e, r⟩)) ⟨w', l ++ t.acted h r :: l'⟩
  | move {w l l'} {t : Member S E R α} {q} (h : Leads t.rest [] q) :
      Step ⟨w, l ++ t :: l'⟩ none ⟨w, l ++ t.moved h :: l'⟩
  | leave {w l l' t} : Step ⟨w, l ++ t :: l'⟩ none ⟨w, l ++ l'⟩
  | drift {w w' l} (h : M.drift w w') : Step ⟨w, l⟩ none ⟨w', l⟩
  | arrive {w l p} (h : M.admits p) : Step ⟨w, l⟩ none ⟨w, l ++ [Member.begin p]⟩

/-- A run with everything that was done in it. -/
inductive Run (c : Crew W S E R α) : List (Event E R) → Crew W S E R α → Prop
  | refl : Run c [] c
  | step {log d ev d'} (h : Run c log d) (hs : Step M d ev d') :
      Run c (log ++ (ev.map Prod.snd).toList) d'

variable {M}

/-- What every action that heeds the rule keeps, whoever does it and whatever else was done, a run
keeps; and who is still under way heeds the rule. -/
theorem Run.inv {G : List (Event E R) → E → Prop} {I : List (Event E R) → W → Prop}
    (hadmits : ∀ {p}, M.admits p → p.Heeds G [])
    (hact : ∀ {log past w e r w'}, I log w → past ⊆ log → G past e → M.perform w e r w' →
      I (log ++ [⟨e, r⟩]) w')
    (hdrift : ∀ {log w w'}, I log w → M.drift w w' → I log w')
    {w : W} {log : List (Event E R)} {d : Crew W S E R α} (h : Run M ⟨w, []⟩ log d) (hw : I [] w) :
    I log d.world ∧ ∀ t ∈ d.members, t.start.Heeds G [] ∧ t.past ⊆ log := by
  induction h with
  | refl => exact ⟨hw, by simp⟩
  | @step log c ev d h hs ih =>
    obtain ⟨hI, hall⟩ := ih
    cases hs with
    | @act w w' l l' t e k hrest r hperform =>
      obtain ⟨hheeds, hpast⟩ := hall t (by simp)
      refine ⟨hact hI hpast (Member.heeds hheeds hrest) hperform, fun t' ht' => ?_⟩
      have hlog : log ⊆ log ++ [⟨e, r⟩] := List.subset_append_left _ _
      simp only [List.mem_append, List.mem_cons] at ht'
      rcases ht' with ht' | rfl | ht'
      · exact (hall t' (by simp [ht'])).imp_right fun h => List.Subset.trans h hlog
      · exact ⟨hheeds, List.append_subset.2 ⟨List.Subset.trans hpast hlog, List.subset_append_right _ _⟩⟩
      · exact (hall t' (by simp [ht'])).imp_right fun h => List.Subset.trans h hlog
    | @move w l l' t q hq =>
      rw [Option.map_none, Option.toList_none, List.append_nil]
      refine ⟨hI, fun t' ht' => ?_⟩
      simp only [List.mem_append, List.mem_cons] at ht'
      rcases ht' with ht' | rfl | ht'
      · exact hall t' (by simp [ht'])
      · exact hall t (by simp)
      · exact hall t' (by simp [ht'])
    | leave =>
      rw [Option.map_none, Option.toList_none, List.append_nil]
      refine ⟨hI, fun t' ht' => hall t' ?_⟩
      simp only [List.mem_append, List.mem_cons] at ht' ⊢
      tauto
    | drift hd =>
      rw [Option.map_none, Option.toList_none, List.append_nil]
      exact ⟨hdrift hI hd, hall⟩
    | arrive hp =>
      rw [Option.map_none, Option.toList_none, List.append_nil]
      refine ⟨hI, fun t' ht' => ?_⟩
      rcases List.mem_append.1 ht' with ht' | ht'
      · exact hall t' ht'
      · rw [List.mem_singleton.1 ht']
        exact ⟨hadmits hp, List.nil_subset _⟩

variable {T : Type} {h : Oracle W T S E R} {coin : Bool}

/-- A program that goes on alone in a world that answers deterministically makes a run of its
crew. -/
theorem play_run (hM : ∀ {w e r w' new}, h w e = some (r, w', new) → M.perform w e r w')
    {p : Prog S E R α} {w w' : W} {tr : List (Event E R)} {a : α} {new : List (T × Prog S E R Unit)}
    (hp : p.play h coin w = some (tr, a, w', new)) {c : Crew W S E R α} {log : List (Event E R)}
    {t : Member S E R α} {l l' : List (Member S E R α)} (ht : t.rest = p)
    (hc : Run M c log ⟨w, l ++ t :: l'⟩) :
    ∃ t' : Member S E R α, t'.rest = done a ∧ Run M c (log ++ tr) ⟨w', l ++ t' :: l'⟩ := by
  induction p generalizing w tr new log t with
  | done b =>
    simp only [play, Option.some.injEq, Prod.mk.injEq] at hp
    obtain ⟨rfl, rfl, rfl, -⟩ := hp
    exact ⟨t, ht, by rwa [List.append_nil]⟩
  | act e k ih =>
    obtain ⟨r, w₁, new₁, tr', a', w₂, new₂, he, hk, hx⟩ := play_act hp
    cases hx
    have hstep := hc.step (.act ht r (hM he))
    obtain ⟨t', hrest, hrun⟩ := ih r hk rfl hstep
    refine ⟨t', hrest, ?_⟩
    rwa [List.append_assoc] at hrun
  | await s k ih =>
    have hstep := hc.step (@Step.move _ _ _ _ _ _ _ _ _ _ k (ht ▸ .await (.refl _)))
    rw [Option.map_none, Option.toList_none, List.append_nil] at hstep
    exact ih hp rfl hstep
  | choose k ih =>
    have hstep := hc.step (@Step.move _ _ _ _ _ _ _ _ _ _ (k coin) (ht ▸ .choose coin (.refl _)))
    rw [Option.map_none, Option.toList_none, List.append_nil] at hstep
    exact ih coin hp rfl hstep

end Crew

end FerrumDns
