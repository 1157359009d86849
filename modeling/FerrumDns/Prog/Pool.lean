import FerrumDns.Prog.Basic

/-! Many tasks over one world. Each task is a program with a tag for what it
owns; any task may be scheduled at any time, may be dropped wherever it stands
(finished, cancelled or panicking, its destructor runs all the same), and the
world may drift on its own. An invariant of the world and of the live tags holds
along every run when each single action keeps it. -/

namespace FerrumDns

open Prog

/-- The world under a pool of tasks: what an action does and answers (possibly starting tasks),
what a task's end releases, how the world moves by itself, and which tasks may arrive. -/
structure Machine (W T S E : Type) (R : E → Type) where
  perform : W → (e : E) → R e → W → List (T × Prog S E R Unit) → Prop
  release : T → W → W
  drift : W → W → Prop
  arrive : W → T × Prog S E R Unit → Prop

/-- A world with its live tasks. -/
structure Pool (W T S E : Type) (R : E → Type) where
  world : W
  tasks : List (T × Prog S E R Unit)

namespace Pool

variable {W T S E : Type} {R : E → Type} (M : Machine W T S E R)

/-- The tags of the live tasks. -/
def tags (p : Pool W T S E R) : List T := p.tasks.map Prod.fst

/-- One scheduling step, with the action it performed if it performed one. -/
inductive Step : Pool W T S E R → Option (Event E R) → Pool W T S E R → Prop
  | act {w w' l l' t e k r new} (h : M.perform w e r w' new) :
      Step ⟨w, l ++ (t, .act e k) :: l'⟩ (some ⟨e, r⟩) ⟨w', l ++ (t, k r) :: l' ++ new⟩
  | await {w l l' t s k} : Step ⟨w, l ++ (t, .await s k) :: l'⟩ none ⟨w, l ++ (t, k) :: l'⟩
  | choose {w l l' t k} (b : Bool) :
      Step ⟨w, l ++ (t, .choose k) :: l'⟩ none ⟨w, l ++ (t, k b) :: l'⟩
  | leave {w l l' t p} : Step ⟨w, l ++ (t, p) :: l'⟩ none ⟨M.release t w, l ++ l'⟩
  | drift {w w' l} (h : M.drift w w') : Step ⟨w, l⟩ none ⟨w', l⟩
  | arrive {w l x} (h : M.arrive w x) : Step ⟨w, l⟩ none ⟨w, l ++ [x]⟩

/-- A run of the pool with the actions it performed, in order. -/
inductive Run : Pool W T S E R → List (Event E R) → Pool W T S E R → Prop
  | refl (p) : Run p [] p
  | step {p q r ev tr} (h : Step M p ev q) (hr : Run q tr r) : Run p (ev.toList ++ tr) r

variable {M}

theorem Run.trans {p q r : Pool W T S E R} {tr tr' : List (Event E R)} (h : Run M p tr q)
    (h' : Run M q tr' r) : Run M p (tr ++ tr') r := by
  induction h with
  | refl p => exact h'
  | step h _ ih => exact List.append_assoc _ _ _ ▸ .step h (ih h')

/-- A run splits at each of its actions. -/
theorem Run.split {p r : Pool W T S E R} {tr tr' : List (Event E R)} {ev : Event E R}
    (h : Run M p (tr ++ ev :: tr') r) :
    ∃ a b, Run M p tr a ∧ Step M a (some ev) b ∧ Run M b tr' r := by
  generalize htr : tr ++ ev :: tr' = all at h
  induction h generalizing tr with
  | refl p => simp at htr
  | @step p q r ev' all h hr ih =>
    cases ev' with
    | none =>
      obtain ⟨a, b, ha, hab, hb⟩ := ih htr
      exact ⟨a, b, .step h ha, hab, hb⟩
    | some ev' =>
      simp only [Option.toList_some, List.singleton_append] at htr
      cases tr with
      | nil =>
        obtain ⟨rfl, rfl⟩ := List.cons.inj htr
        exact ⟨p, q, .refl p, h, hr⟩
      | cons ev'' tr =>
        obtain ⟨rfl, htl⟩ := List.cons.inj htr
        obtain ⟨a, b, ha, hab, hb⟩ := ih htl
        exact ⟨a, b, .step h ha, hab, hb⟩

/-! ### Relied-on answers -/

section Relying

variable (M) (C : Contract S E R)

/-- The machine whose actions get only answers that can be relied on. -/
def relying : Machine W T S E R :=
  { M with perform := fun w e r w' new => M.perform w e r w' new ∧ C.rely e r }

variable {M C}

theorem Step.relying {p q : Pool W T S E R} {ev : Option (Event E R)} (h : Step M p ev q)
    (hr : ∀ a ∈ ev, C.rely a.1 a.2) : Step (Pool.relying M C) p ev q := by
  cases h with
  | act h => exact .act ⟨h, hr _ rfl⟩
  | await => exact .await
  | choose b => exact .choose b
  | leave => exact .leave
  | drift h => exact .drift h
  | arrive h => exact .arrive h

/-- A run whose answers can all be relied on is one of that machine. -/
theorem Run.relying {p q : Pool W T S E R} {tr : List (Event E R)} (h : Run M p tr q)
    (hr : ∀ a ∈ tr, C.rely a.1 a.2) : Run (Pool.relying M C) p tr q := by
  induction h with
  | refl p => exact .refl p
  | step h _ ih =>
    refine .step (h.relying fun a ha => hr a ?_) (ih fun a ha => hr a (List.mem_append_right _ ha))
    exact List.mem_append_left _ (Option.mem_toList.2 ha)

end Relying

/-- A step with an action is that action performed on the world. -/
theorem Step.performed {p q : Pool W T S E R} {ev : Event E R} (h : Step M p (some ev) q) :
    ∃ new, M.perform p.world ev.1 ev.2 q.world new := by
  cases h with
  | act h => exact ⟨_, h⟩

variable (M)

/-- What each single move has to keep for `J` to be an invariant of the pool. -/
structure Keeps (C : Contract S E R) (J : W → List T → Prop) : Prop where
  perform : ∀ {w e r w' new l t l'}, J w (l ++ t :: l') → C.guar e → M.perform w e r w' new →
    C.rely e r ∧ J w' (l ++ t :: l' ++ new.map Prod.fst) ∧
      ∀ x ∈ new, x.2.Sat C fun _ => True
  release : ∀ {w l t l'}, J w (l ++ t :: l') → J (M.release t w) (l ++ l')
  drift : ∀ {w w' ts}, J w ts → M.drift w w' → J w' ts
  arrive : ∀ {w ts x}, J w ts → M.arrive w x → J w (ts ++ [x.1]) ∧ x.2.Sat C fun _ => True

variable {M}

variable {C : Contract S E R} {J : W → List T → Prop}

/-- The invariant holds of the world and the live tags, and every live task keeps its contract. -/
def Inv (C : Contract S E R) (J : W → List T → Prop) (p : Pool W T S E R) : Prop :=
  J p.world p.tags ∧ ∀ x ∈ p.tasks, x.2.Sat C fun _ => True

/-- One step keeps the invariant, and an action it performs is allowed and answered as relied on. -/
theorem Keeps.step (hk : Keeps M C J) {p q : Pool W T S E R} {ev : Option (Event E R)}
    (h : Step M p ev q) (hp : Inv C J p) :
    Inv C J q ∧ ∀ a ∈ ev, C.guar a.1 ∧ C.rely a.1 a.2 := by
  cases h with
  | @act w w' l l' t e k r new h =>
    obtain ⟨hj, ht⟩ := hp
    have hact := ht (t, .act e k) (by simp)
    simp only [tags, List.map_append, List.map_cons] at hj
    obtain ⟨hr, hj', hnew⟩ := hk.perform hj hact.1 h
    refine ⟨⟨by simpa [tags] using hj', fun x hx => ?_⟩, by simpa using ⟨hact.1, hr⟩⟩
    simp only [List.mem_append, List.mem_cons] at hx
    rcases hx with (hx | rfl | hx) | hx
    · exact ht x (by simp [hx])
    · exact hact.2 r hr
    · exact ht x (by simp [hx])
    · exact hnew x hx
  | @await w l l' t s k =>
    obtain ⟨hj, ht⟩ := hp
    refine ⟨⟨by simpa [tags] using hj, fun x hx => ?_⟩, by simp⟩
    simp only [List.mem_append, List.mem_cons] at hx
    rcases hx with hx | rfl | hx
    · exact ht x (by simp [hx])
    · exact (ht (t, .await s k) (by simp)).2
    · exact ht x (by simp [hx])
  | @choose w l l' t k b =>
    obtain ⟨hj, ht⟩ := hp
    refine ⟨⟨by simpa [tags] using hj, fun x hx => ?_⟩, by simp⟩
    simp only [List.mem_append, List.mem_cons] at hx
    rcases hx with hx | rfl | hx
    · exact ht x (by simp [hx])
    · exact (ht (t, .choose k) (by simp)) b
    · exact ht x (by simp [hx])
  | @leave w l l' t p =>
    obtain ⟨hj, ht⟩ := hp
    simp only [tags, List.map_append, List.map_cons] at hj
    refine ⟨⟨by simpa [tags] using hk.release hj, fun x hx => ht x ?_⟩, by simp⟩
    rcases List.mem_append.1 hx with hx | hx <;> simp [hx]
  | drift h => exact ⟨⟨hk.drift hp.1 h, hp.2⟩, by simp⟩
  | @arrive w l x h =>
    obtain ⟨hj, ht⟩ := hp
    obtain ⟨hj', hx⟩ := hk.arrive hj h
    refine ⟨⟨by simpa [tags] using hj', fun y hy => ?_⟩, by simp⟩
    rcases List.mem_append.1 hy with hy | hy
    · exact ht y hy
    · rw [List.mem_singleton.1 hy]; exact hx

/-- A run keeps the invariant, and all its actions are allowed and answered as relied on. -/
theorem Keeps.run (hk : Keeps M C J) {p q : Pool W T S E R} {tr : List (Event E R)}
    (h : Run M p tr q) (hp : Inv C J p) :
    Inv C J q ∧ ∀ a ∈ tr, C.guar a.1 ∧ C.rely a.1 a.2 := by
  induction h with
  | refl p => exact ⟨hp, by simp⟩
  | step h _ ih =>
    obtain ⟨hq, hev⟩ := hk.step h hp
    obtain ⟨hr, htr⟩ := ih hq
    refine ⟨hr, fun a ha => ?_⟩
    rcases List.mem_append.1 ha with ha | ha
    · exact hev a (by simpa using ha)
    · exact htr a ha

end Pool

end FerrumDns
