import FerrumDns.Prog.Combine
import FerrumDns.Prog.Ledger

/-! Budgets. Every action has a cost, and a program with a budget spends no more than
that, however far it gets and whatever is answered. Programs in sequence spend their
budgets one after the other, and so do programs that race, the loser included. An
action that starts tasks pays for what those may spend, so a closed pool of tasks
spends no more than its tasks were given at the start. -/

namespace FerrumDns

namespace Prog

variable {S E : Type} {R : E → Type} {α β γ : Type}

/-- With `n` left, every action that comes can be paid for. -/
def Spends (w : E → ℕ) : ℕ → Prog S E R α → Prop
  | _, done _ => True
  | n, act e k => w e ≤ n ∧ ∀ r, Spends w (n - w e) (k r)
  | n, await _ k => Spends w n k
  | n, choose k => ∀ c, Spends w n (k c)

variable {w w' : E → ℕ} {m n : ℕ}

theorem Spends.mono {p : Prog S E R α} (h : p.Spends w n) (hn : n ≤ m) : p.Spends w m := by
  induction p generalizing n m with
  | done a => trivial
  | act e k ih => exact ⟨h.1.trans hn, fun r => ih r (h.2 r) (by omega)⟩
  | await s k ih => exact ih h hn
  | choose k ih => exact fun c => ih c (h c) hn

/-- What follows a program is judged by the results it can have. -/
theorem Spends.bind_ends {p : Prog S E R α} {f : α → Prog S E R β} (h : p.Spends w n)
    (hf : ∀ tr a, Ends p tr a → (f a).Spends w m) : (p.bind f).Spends w (n + m) := by
  induction p generalizing n with
  | done a => exact (hf [] a (.refl _)).mono (by omega)
  | act e k ih =>
    obtain ⟨hle, hk⟩ := h
    refine ⟨by omega, fun r => ?_⟩
    exact (ih r (hk r) fun tr a ha => hf _ a (.act r ha)).mono (by omega)
  | await s k ih => exact ih h fun tr a ha => hf tr a (.await ha)
  | choose k ih => exact fun c => ih c (h c) fun tr a ha => hf tr a (.choose c ha)

theorem Spends.bind {p : Prog S E R α} {f : α → Prog S E R β} (h : p.Spends w n)
    (hf : ∀ a, (f a).Spends w m) : (p.bind f).Spends w (n + m) :=
  h.bind_ends fun _ a _ => hf a

/-- Going on with something that costs nothing. -/
theorem Spends.andThen {p : Prog S E R α} {f : α → Prog S E R β} (h : p.Spends w n)
    (hf : ∀ a, (f a).Spends w 0) : (p.bind f).Spends w n :=
  h.bind hf

theorem Spends.hold {p : Prog S E R α} {s : S} (h : p.Spends w n) : (p.hold s).Spends w n := by
  induction p generalizing n with
  | done a => trivial
  | act e k ih => exact ⟨h.1, fun r => ih r (h.2 r)⟩
  | await s k ih => exact ih h
  | choose k ih => exact fun c => ih c (h c)

theorem Spends.timeout {p : Prog S E R α} (h : p.Spends w n) : p.timeout.Spends w n := by
  induction p generalizing n with
  | done a => trivial
  | act e k ih => exact ⟨h.1, fun r => ih r (h.2 r)⟩
  | await s k ih =>
    intro fired
    cases fired
    · exact ih h
    · trivial
  | choose k ih => exact fun c => ih c (h c)

theorem Spends.checked {look : E} {late : R look → Bool} {s : S} {p : Prog S E R (Except S α)}
    (hlook : w look = 0) (h : p.Spends w n) : (p.checked look late s).Spends w n := by
  refine ⟨by omega, fun r => ?_⟩
  rw [hlook, Nat.sub_zero]
  dsimp only
  split_ifs
  · trivial
  · exact h

theorem Spends.limit {look : E} {late : R look → Bool} {p : Prog S E R α} (hlook : w look = 0)
    (h : p.Spends w n) : (p.limit look late).Spends w n := by
  induction p generalizing n with
  | done a => trivial
  | act e k ih => exact ⟨h.1, fun r => ih r (h.2 r)⟩
  | await s k ih =>
    refine Spends.checked hlook fun ready => ?_
    cases ready
    · exact Spends.checked hlook (ih h)
    · exact ih h
  | choose k ih => exact fun c => ih c (h c)

/-- A contract may promise less and rely on more. -/
theorem Sat.weaken {C C' : Contract S E R} {post : α → Prop} {p : Prog S E R α}
    (h : p.Sat C post) (hguar : ∀ e, C.guar e → C'.guar e) (hrely : ∀ e r, C'.rely e r → C.rely e r)
    (hheld : ∀ s, C.held s → C'.held s) : p.Sat C' post := by
  induction p with
  | done a => exact h
  | act e k ih => exact ⟨hguar e h.1, fun r hr => ih r (h.2 r (hrely e r hr))⟩
  | await s k ih => exact ⟨hheld s h.1, ih h.2⟩
  | choose k ih => exact fun c => ih c (h c)

/-- Costs may change for actions that are never performed. -/
theorem Spends.of_sat {C : Contract S E R} {post : α → Prop} {p : Prog S E R α}
    (h : p.Spends w n) (hp : p.Sat C post) (hrely : ∀ e r, C.rely e r)
    (hw : ∀ e, C.guar e → w' e ≤ w e) : p.Spends w' n := by
  induction p generalizing n with
  | done a => trivial
  | act e k ih =>
    have hle := hw e hp.1
    have hn := h.1
    exact ⟨by omega, fun r => (ih r (h.2 r) (hp.2 r (hrely e r))).mono (by omega)⟩
  | await s k ih => exact ih h hp.2
  | choose k ih => exact fun c => ih c (h c) (hp c)

/-! ### Races -/

/-- A race with what follows it, which may go on with the loser. -/
def Raced.Spends (w : E → ℕ) (c : ℕ) (f : Raced S E R α β → Prog S E R γ) : Prop :=
  (∀ a q n, q.Spends w n → (f (.inl (a, q))).Spends w (n + c)) ∧
    ∀ a p n, p.Spends w n → (f (.inr (a, p))).Spends w (n + c)

variable {c : ℕ} {f : Raced S E R α β → Prog S E R γ}

theorem Spends.selectRight {p : Prog S E R α} {s : S}
    {resume : Prog S E R β → Prog S E R (Raced S E R α β)} {q : Prog S E R β}
    (hf : Raced.Spends w c f) (hp : p.Spends w m)
    (hr : ∀ q' n, q'.Spends w n → (((resume q').hold s).bind f).Spends w (m + n + c))
    (hq : q.Spends w n) :
    (((Prog.selectRight p resume q).hold s).bind f).Spends w (m + n + c) := by
  induction q generalizing n with
  | done b => exact (hf.2 b p m hp).mono (by omega)
  | act e k ih =>
    obtain ⟨hle, hk⟩ := hq
    exact ⟨by omega, fun r => (ih r (hk r)).mono (by omega)⟩
  | await _ k ih =>
    intro b
    cases b
    · exact ih hq
    · exact hr k n hq
  | choose k ih => exact fun b => ih b (hq b)

theorem Spends.selectLeft {p : Prog S E R α} {s : S} {q : Prog S E R β}
    (hf : Raced.Spends w c f) (hp : p.Spends w m) (hq : q.Spends w n) :
    (((Prog.selectLeft p q).hold s).bind f).Spends w (m + n + c) := by
  induction p generalizing q m n with
  | done a => exact (hf.1 a q n hq).mono (by omega)
  | act e k ih =>
    obtain ⟨hle, hk⟩ := hp
    exact ⟨by omega, fun r => (ih r (hk r) hq).mono (by omega)⟩
  | await _ k ih =>
    intro b
    cases b
    · exact Spends.selectRight hf hp (fun q' n' hq' => ih hp hq') hq
    · exact ih hp hq
  | choose k ih => exact fun b => ih b (hp b) hq

/-- Two programs that race spend both their budgets at most, with what is done after them. -/
theorem Spends.select {p : Prog S E R α} {s : S} {q : Prog S E R β} (hf : Raced.Spends w c f)
    (hp : p.Spends w m) (hq : q.Spends w n) :
    (((Prog.select p q).hold s).bind f).Spends w (m + n + c) := by
  induction p generalizing q m n with
  | done a => exact (hf.1 a q n hq).mono (by omega)
  | act e k ih =>
    obtain ⟨hle, hk⟩ := hp
    exact ⟨by omega, fun r => (ih r (hk r) hq).mono (by omega)⟩
  | await _ k ih =>
    exact Spends.selectRight hf hp (fun q' n' hq' => Spends.selectLeft hf hp hq') hq
  | choose k ih => exact fun b => ih b (hp b) hq

end Prog

open Prog

namespace Pool

variable {W T S E : Type} {R : E → Type} (M : Machine W T S E R)

/-- The machine at which nothing arrives. -/
@[reducible] def closed : Machine W T S E R := { M with arrive := fun _ _ => False }

/-- What a trace costs. -/
def cost (w : E → ℕ) (tr : List (Event E R)) : ℕ := (tr.map fun ev => w ev.1).sum

/-- The tasks keep the contract, and budgets that add up to `n` cover what they spend. -/
def Funded (C : Contract S E R) (w : E → ℕ) (n : ℕ) (tasks : List (T × Prog S E R Unit)) : Prop :=
  ∃ funds : List (ℕ × T × Prog S E R Unit), funds.map Prod.snd = tasks ∧
    (∀ x ∈ funds, x.2.2.Spends w x.1 ∧ x.2.2.Sat C fun _ => True) ∧ (funds.map Prod.fst).sum = n

variable {M} {C : Contract S E R} {w own : E → ℕ} {m n : ℕ} {t : T} {x : Prog S E R Unit}
  {l l' : List (T × Prog S E R Unit)}

theorem Funded.append (h : Funded C w m l) (h' : Funded C w n l') :
    Funded C w (m + n) (l ++ l') := by
  obtain ⟨funds, rfl, hall, rfl⟩ := h
  obtain ⟨funds', rfl, hall', rfl⟩ := h'
  refine ⟨funds ++ funds', by simp, fun y hy => ?_, by simp⟩
  rcases List.mem_append.1 hy with hy | hy
  · exact hall y hy
  · exact hall' y hy

theorem Funded.split (h : Funded C w n (l ++ l')) :
    ∃ a b, a + b = n ∧ Funded C w a l ∧ Funded C w b l' := by
  obtain ⟨funds, hmap, hall, rfl⟩ := h
  obtain ⟨m, m', rfl, rfl, rfl⟩ := List.map_eq_append_iff.1 hmap
  refine ⟨(m.map Prod.fst).sum, (m'.map Prod.fst).sum, by simp, ⟨m, rfl, fun y hy => ?_, rfl⟩,
    ⟨m', rfl, fun y hy => ?_, rfl⟩⟩
  · exact hall y (List.mem_append_left _ hy)
  · exact hall y (List.mem_append_right _ hy)

theorem funded_single (hx : x.Spends w n) (hs : x.Sat C fun _ => True) :
    Funded C w n [(t, x)] :=
  ⟨[(n, t, x)], rfl, by simpa using ⟨hx, hs⟩, by simp⟩

/-- The budget of one task, with those of the tasks on both sides. -/
theorem Funded.at (h : Funded C w n (l ++ (t, x) :: l')) :
    ∃ a b c, a + b + c = n ∧ Funded C w a l ∧ (x.Spends w b ∧ x.Sat C fun _ => True) ∧
      Funded C w c l' := by
  obtain ⟨a, r, hr, hl, hrest⟩ := h.split
  rw [← List.singleton_append] at hrest
  obtain ⟨b, c, hbc, ⟨funds, hmap, hall, hsum⟩, hl'⟩ := hrest.split
  obtain ⟨⟨d, y⟩, rfl, hy⟩ := List.map_eq_singleton_iff.1 hmap
  obtain rfl : y = (t, x) := hy
  have hx := hall (d, t, x) (by simp)
  have hd : d = b := by simpa using hsum
  subst hd
  exact ⟨a, d, c, by omega, hl, hx, hl'⟩

/-- An action that is allowed pays its own cost and the budgets of the tasks it starts. -/
structure Charging (M : Machine W T S E R) (C : Contract S E R) (w own : E → ℕ) : Prop where
  pays : ∀ {u e r u' new}, C.guar e → M.perform u e r u' new →
    ∃ n, own e + n ≤ w e ∧ Funded C w n new
  rely : ∀ e r, C.rely e r

/-- One step spends what it costs. -/
theorem Charging.step (h : Charging M C w own) {p q : Pool W T S E R} {ev : Option (Event E R)}
    (hs : Step (closed M) p ev q) (hp : Funded C w n p.tasks) :
    ∃ n', Funded C w n' q.tasks ∧ cost own ev.toList + n' ≤ n := by
  cases hs with
  | @act u u' l l' t e k r new hperform =>
    obtain ⟨a, b, c, rfl, hl, ⟨⟨hle, hk⟩, hguar, hsat⟩, hl'⟩ := hp.at
    obtain ⟨d, hd, hnew⟩ := h.pays hguar hperform
    have hrest := funded_single (t := t) (hk r) (hsat r (h.rely e r))
    refine ⟨a + (b - w e + c) + d, ?_, ?_⟩
    · exact (hl.append (hrest.append hl')).append hnew
    · simp only [cost, Option.toList_some, List.map_cons, List.map_nil, List.sum_singleton]
      omega
  | @await u l l' t s k =>
    obtain ⟨a, b, c, rfl, hl, ⟨hx, hsat⟩, hl'⟩ := hp.at
    have hrest := funded_single (t := t) (w := w) (n := b) (x := k) hx hsat.2
    exact ⟨a + (b + c), hl.append (hrest.append hl'), by simp [cost, Nat.add_assoc]⟩
  | @choose u l l' t k c' =>
    obtain ⟨a, b, c, rfl, hl, ⟨hx, hsat⟩, hl'⟩ := hp.at
    have hrest := funded_single (t := t) (hx c') (hsat c')
    exact ⟨a + (b + c), hl.append (hrest.append hl'), by simp [cost, Nat.add_assoc]⟩
  | @leave u l l' t y =>
    obtain ⟨a, b, c, rfl, hl, -, hl'⟩ := hp.at
    refine ⟨a + c, hl.append hl', ?_⟩
    simp only [cost, Option.toList_none, List.map_nil, List.sum_nil]
    omega
  | drift => exact ⟨n, hp, by simp [cost]⟩
  | arrive harrive => exact harrive.elim

/-- Whatever happens in a closed pool costs no more than its tasks' budgets. -/
theorem Charging.run (h : Charging M C w own) {p q : Pool W T S E R} {tr : List (Event E R)}
    (hrun : Run (closed M) p tr q) (hp : Funded C w n p.tasks) : cost own tr ≤ n := by
  induction hrun generalizing n with
  | refl => exact Nat.zero_le n
  | step hs _ ih =>
    obtain ⟨n', hq, hle⟩ := h.step hs hp
    have hrest := ih hq
    simp only [cost, List.map_append, List.sum_append] at hle hrest ⊢
    omega

end Pool

end FerrumDns
