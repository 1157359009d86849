import FerrumDns.Pipeline.Invariant
import FerrumDns.Resolver

/-! From pipelines to the whole resolver: when contexts of new requests and of
background refreshes satisfy an invariant of pipelines, every task keeps the
contract, and so does every run of the resolver. -/

namespace FerrumDns

open Prog Resolver

/-- The invariant holds wherever a request or a refresh starts. -/
structure Starts (C : Contract QueryContext Eff Eff.Answer) (I : QueryContext → Prop) : Prop where
  upgrade : C.guar .upgrade
  entered : ∀ {ctx} entry, I ctx → I (ctx.beginPipeline entry)
  request : ∀ q peer proto traced, I { QueryContext.new q peer proto with traceEnabled := traced }
  refresh : ∀ {c key bg entry}, C.guar (.kick c key bg entry) → I bg

namespace Leaves

variable [Crates] {reg : Registry} {C : Contract QueryContext Eff Eff.Answer}
  {I : QueryContext → Prop} {W : Write → Prop}

theorem requestTask_sat (h : Leaves reg C I W) (hs : Starts C I) (depth : ℕ) (entry : Tag)
    {ctx : QueryContext} (hi : I ctx) :
    (Resolver.requestTask reg depth entry ctx).Sat C fun _ => True :=
  (h.handle_sat depth entry ctx hi (hs.entered entry hi)).bind fun _ _ => trivial

theorem refreshTask_sat (h : Leaves reg C I W) (hs : Starts C I) (depth : ℕ) {bg : QueryContext}
    (hi : I bg) (entry : Tag) : (Resolver.refreshTask reg depth bg entry).Sat C fun _ => True := by
  refine ⟨hs.upgrade, fun (alive : Bool) _ => ?_⟩
  cases alive with
  | false => trivial
  | true =>
    exact (h.handle_sat depth _ bg hi (hs.entered _ hi)).bind fun _ _ => trivial

theorem arrives (h : Leaves reg C I W) (hs : Starts C I) {depth : ℕ} {x : Task}
    (hx : Arrives reg depth x) : x.1 = none ∧ x.2.Sat C fun _ => True := by
  cases hx with
  | listener entry q peer proto =>
    exact ⟨rfl, h.requestTask_sat hs depth entry (hs.request q peer proto false)⟩
  | diagnostic entry q peer => exact ⟨rfl, h.requestTask_sat hs depth _ (hs.request q peer _ true)⟩

/-- A task started by an action keeps the contract too. -/
theorem started (h : Leaves reg C I W) (hs : Starts C I) {depth : ℕ} {w w' : World} {e : Eff}
    {r : e.Answer} {new : List Task} (hg : C.guar e)
    (hp : Resolver.perform reg depth w e r w' new) : ∀ x ∈ new, x.2.Sat C fun _ => True := by
  cases e with
  | kick c key bg entry =>
    simp only [Resolver.perform] at hp
    split_ifs at hp
    · simp [hp.2]
    · simpa [hp.2] using h.refreshTask_sat hs depth (hs.refresh hg) entry
  | lookup c key q => simp [hp.2.2]
  | now => simp [hp.2.2]
  | upgrade => simp [hp.2.2]
  | overflow => exact hp.elim
  | _ => simp [hp.2]

/-- Every action of a run of a fresh resolver is as promised, if its answers can be relied on. -/
theorem promised (h : Leaves reg C I W) (hs : Starts C I) {depth : ℕ} {p q : State} {tr : Trace}
    (hp : Fresh p) (hrun : Runs reg depth p tr q) (hr : ∀ ev ∈ tr, C.rely ev.1 ev.2) :
    ∀ ev ∈ tr, C.guar ev.1 := by
  have hk : Pool.Keeps (Pool.relying (machine reg depth) C) C fun _ _ => True :=
    { perform := fun _ hg hp => ⟨hp.2, trivial, h.started hs hg hp.1⟩
      release := fun _ => trivial
      drift := fun _ _ => trivial
      arrive := fun _ hx => ⟨trivial, (h.arrives hs hx).2⟩ }
  exact fun ev hev => ((hk.run (hrun.relying hr) ⟨trivial, by simp [hp.quiet]⟩).2 ev hev).1

end Leaves

namespace Preserved

variable [Crates] {C : Contract QueryContext Eff Eff.Answer} {I : QueryContext → Prop}
  {W : Write → Prop}

/-- A property of the world and the guards that single moves keep is an invariant of the resolver,
where actions may be assumed to be as promised. -/
theorem keeps (h : Preserved C I W) (hs : Starts C I) {reg : Registry} {depth : ℕ}
    {J : World → List Owner → Prop}
    (hperform : ∀ {w w' : World} {e r} {new : List Task} {l t l'}, J w (l ++ t :: l') → C.guar e →
      Resolver.perform reg depth w e r w' new → C.rely e r ∧ J w' (l ++ t :: l' ++ new.map Prod.fst))
    (hrelease : ∀ {w l t l'}, J w (l ++ t :: l') → J (release t w) (l ++ l'))
    (hdrift : ∀ {w w' ts}, J w ts → Drift w w' → J w' ts)
    (harrive : ∀ {w ts}, J w ts → J w (ts ++ [none])) :
    Pool.Keeps (machine reg depth) C J where
  perform hj hg hp :=
    have := hperform hj hg hp
    ⟨this.1, this.2, (h.guarded.leaves reg).started hs hg hp⟩
  release := hrelease
  drift := hdrift
  arrive hj hx := by
    obtain ⟨hn, hsat⟩ := (h.guarded.leaves reg).arrives hs hx
    exact ⟨hn ▸ harrive hj, hsat⟩

/-- Every action of every run of a fresh resolver is as promised. -/
theorem promised (h : Preserved C I W) (hs : Starts C I) (hr : ∀ e r, C.rely e r)
    {reg : Registry} {depth : ℕ} {p q : State} {tr : Trace} (hp : Fresh p)
    (hrun : Runs reg depth p tr q) : ∀ ev ∈ tr, C.guar ev.1 :=
  (h.guarded.leaves reg).promised hs hp hrun fun _ _ => hr _ _

end Preserved

end FerrumDns
