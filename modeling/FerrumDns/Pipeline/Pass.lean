import FerrumDns.Pipeline.Invariant

/-! How a sequence goes through its steps. A pass keeps the list of the plugins it
executed, each with the context just before. A finished run is a pass, then the
write-backs of the caches on that list; after an error there are none. -/

namespace FerrumDns

open Prog Dnsutil

/-! ### One write-back -/

namespace Cache

variable [Crates]

/-- What a write-back of this context stores: the rebound response and its wire form. -/
def written (ctx : QueryContext) (lookup : CacheLookup) : Option (Message × Bytes) :=
  if ctx.servedFromCache || (ctx.response.map fun r => !cacheableEdns r).getD false then none
  else (ctx.responseForQuery lookup.query lookup.rewriteStart).bind fun response =>
    (admits response).map fun wire => (response, wire)

theorem storeLookup_ends {c : Cache} {ctx : QueryContext} {lookup : CacheLookup} {tr : Trace}
    (h : Ends (c.storeLookup ctx lookup) tr ()) :
    (written ctx lookup = none ∧ tr = []) ∨
      ∃ response wire now, written ctx lookup = some (response, wire) ∧
        tr = [⟨.now, now⟩, ⟨.insert c lookup ctx.source (c.entryAt wire (minTtl response) now), ()⟩] := by
  rw [storeLookup] at h
  rw [written]
  split at h
  next hs => exact .inl ⟨if_pos hs, (ends_done h).1⟩
  next hs =>
    rw [if_neg hs]
    cases hr : ctx.responseForQuery lookup.query lookup.rewriteStart with
    | none =>
      rw [hr] at h
      exact .inl ⟨rfl, (ends_done h).1⟩
    | some response =>
      simp only [hr, store] at h
      cases ha : admits response with
      | none =>
        rw [ha] at h
        exact .inl ⟨by simp [ha], (ends_done h).1⟩
      | some wire =>
        rw [ha] at h
        obtain ⟨now, tr', rfl, h'⟩ := ends_act h
        obtain ⟨_, tr'', rfl, h''⟩ := ends_act h'
        obtain ⟨rfl, -⟩ := ends_done h''
        exact .inr ⟨response, wire, now, by simp [ha], rfl⟩

end Cache

namespace Sequence

variable [Crates] {reg : Registry} {call : Executable → QueryContext → Run Outcome} {self : Tag}

/-- Each event of a series of write-backs belongs to one of them. -/
theorem store_event {ctx : QueryContext} {writes : List Write} {tr : Trace}
    (h : Ends (store ctx writes) tr ()) {ev : Event Eff Eff.Answer} (hev : ev ∈ tr) :
    ∃ w ∈ writes, ∃ tr', Ends (w.1.storeLookup ctx w.2) tr' () ∧ ev ∈ tr' := by
  induction writes generalizing tr with
  | nil =>
    rw [(ends_done h).1] at hev
    cases hev
  | cons w writes ih =>
    obtain ⟨tr₁, tr₂, _, rfl, h₁, h₂⟩ := ends_bind h
    rcases List.mem_append.1 hev with hev | hev
    · exact ⟨w, by simp, tr₁, h₁, hev⟩
    · obtain ⟨w', hw, htr⟩ := ih h₂ hev
      exact ⟨w', by simp [hw], htr⟩

/-- Each write-back of a series is performed. -/
theorem store_performs {ctx : QueryContext} {writes : List Write} {tr : Trace}
    (h : Ends (store ctx writes) tr ()) {w : Write} (hw : w ∈ writes) :
    ∃ tr', Ends (w.1.storeLookup ctx w.2) tr' () ∧ ∀ ev ∈ tr', ev ∈ tr := by
  induction writes generalizing tr with
  | nil => cases hw
  | cons w' writes ih =>
    obtain ⟨tr₁, tr₂, _, rfl, h₁, h₂⟩ := ends_bind h
    rcases List.mem_cons.1 hw with rfl | hw
    · exact ⟨tr₁, h₁, fun ev hev => List.mem_append_left _ hev⟩
    · obtain ⟨tr', h', hsub⟩ := ih h₂ hw
      exact ⟨tr', h', fun ev hev => List.mem_append_right _ (hsub ev hev)⟩

/-! ### Visits -/

/-- An executed plugin with the context just before it. -/
abbrev Visit := Tag × QueryContext

/-- The plugin a step executes. -/
def visits (ctx : QueryContext) : Exec → List Visit
  | .Plugin tag => [(tag, ctx)]
  | .Builtin _ => []

/-- The writes that visits leave to be done. -/
def notes (reg : Registry) (vs : List Visit) : List Write :=
  vs.flatMap fun v => noteCache reg v.1 v.2

theorem notes_append (vs vs' : List Visit) :
    notes reg (vs ++ vs') = notes reg vs ++ notes reg vs' :=
  List.flatMap_append

theorem noteCache_of_error {tag : Tag} {e : Error} (h : reg.getExec tag = .error e)
    (ctx : QueryContext) : noteCache reg tag ctx = [] := by
  have hnone : reg.caches tag = none := by
    cases hc : reg.caches tag with
    | none => rfl
    | some c => simp [Registry.getExec, (reg.caches_execs tag c).1 hc] at h
  simp [noteCache, hnone]

theorem mem_notes {vs : List Visit} {w : Write} (h : w ∈ notes reg vs) :
    ∃ tag before, (tag, before) ∈ vs ∧ reg.caches tag = some w.1 ∧
      w.1.snapshot before = some w.2 := by
  obtain ⟨⟨tag, before⟩, hv, hw⟩ := List.mem_flatMap.1 h
  refine ⟨tag, before, hv, ?_⟩
  rw [noteCache] at hw
  cases hc : reg.caches tag with
  | none => simp [hc] at hw
  | some c =>
    simp only [hc, Option.mem_toList, Option.map_eq_some_iff] at hw
    obtain ⟨lookup, hs, rfl⟩ := hw
    exact ⟨rfl, hs⟩

theorem notes_of_mem {vs : List Visit} {tag : Tag} {before : QueryContext} {c : Cache}
    {lookup : CacheLookup} (hv : (tag, before) ∈ vs) (hc : reg.caches tag = some c)
    (hs : c.snapshot before = some lookup) : (c, lookup) ∈ notes reg vs :=
  List.mem_flatMap.2 ⟨_, hv, by simp [noteCache, hc, hs]⟩

theorem callTag_ends {before ctx : QueryContext} {tag : Tag} {tr : Trace} {ws : List Write}
    {o : Outcome} (h : Ends (callTag reg call before tag ctx) tr (ws, o)) :
    ws = notes reg [(tag, before)] := by
  rw [callTag] at h
  cases hg : reg.getExec tag with
  | error e =>
    rw [hg] at h
    cases (ends_done h).2
    simp [notes, noteCache_of_error hg]
  | ok p =>
    rw [hg] at h
    obtain ⟨tr₁, tr₂, o', rfl, -, h₂⟩ := ends_bind h
    cases (ends_done h₂).2
    simp [notes]

theorem perform_ends {ctx : QueryContext} {x : Exec} {tr : Trace} {ws : List Write} {o : Outcome}
    (h : Ends (perform reg call self ctx x) tr (ws, o)) : ws = notes reg (visits ctx x) := by
  cases x with
  | Builtin b =>
    cases (ends_done h).2
    rfl
  | Plugin tag =>
    rw [perform] at h
    cases hg : reg.getExec tag with
    | error e =>
      rw [hg] at h
      cases (ends_done h).2
      simp [notes, visits, noteCache_of_error hg]
    | ok p =>
      rw [hg] at h
      exact callTag_ends h

/-! ### Passes -/

/-- How a step's result leaves the sequence at once. -/
def leaving : Except Error Action → Option (Except Error Action)
  | .error e => some (.error e)
  | .ok .Accept => some (.ok .Accept)
  | .ok .Return => some (.ok .Continue)
  | .ok _ => none

variable (reg call self)

/-- Going through the steps: those whose matchers do not all hold are skipped, the others are
performed, up to one that leaves the sequence or jumps to a target. -/
inductive Pass : List Step → QueryContext → Trace → List Visit → Outcome → Prop
  | stop {ctx} : Pass [] ctx [] [] (ctx, .ok .Continue)
  | skip {step steps ctx tr vs o} (hm : ¬ step.matchers.all (·.matches ctx))
      (h : Pass steps ctx tr vs o) : Pass (step :: steps) ctx tr vs o
  | next {step steps ctx tr ws c tr' vs o} (hm : step.matchers.all (·.matches ctx))
      (hp : Ends (perform reg call self ctx step.exec) tr (ws, c, .ok .Continue))
      (h : Pass steps c tr' vs o) :
      Pass (step :: steps) ctx (tr ++ tr') (visits ctx step.exec ++ vs) o
  | leave {step steps ctx tr ws c r r'} (hm : step.matchers.all (·.matches ctx))
      (hp : Ends (perform reg call self ctx step.exec) tr (ws, c, r)) (hr : leaving r = some r') :
      Pass (step :: steps) ctx tr (visits ctx step.exec) (c, r')
  | jump {step steps ctx tr ws c tag tr' ws' o} (hm : step.matchers.all (·.matches ctx))
      (hp : Ends (perform reg call self ctx step.exec) tr (ws, c, .ok (.Goto tag)))
      (hc : Ends (callTag reg call c tag c) tr' (ws', o)) :
      Pass (step :: steps) ctx (tr ++ tr') (visits ctx step.exec ++ [(tag, c)]) o

variable {reg call self}

/-- The write-backs done on the way out. -/
def flushed (writes : List Write) : Outcome → Run Unit
  | (_, .error _) => done ()
  | (ctx, .ok _) => store ctx writes

theorem finish_flushed {ctx : QueryContext} {writes : List Write} {a : Action} {tr : Trace}
    {o : Outcome} (h : Ends (finish ctx writes a) tr o) :
    o = (ctx, .ok a) ∧ Ends (flushed writes o) tr () := by
  obtain ⟨tr₁, tr₂, _, rfl, h₁, h₂⟩ := ends_bind h
  obtain ⟨rfl, rfl⟩ := ends_done h₂
  exact ⟨rfl, (List.append_nil tr₁).symm ▸ h₁⟩

/-- A finished run goes through its steps and then does the write-backs of its visits. -/
theorem loop_pass {steps : List Step} {writes : List Write} {ctx : QueryContext} {tr : Trace}
    {o : Outcome} (h : Ends (loop reg call self steps writes ctx) tr o) :
    ∃ inner own vs, tr = inner ++ own ∧ Pass reg call self steps ctx inner vs o ∧
      Ends (flushed (writes ++ notes reg vs) o) own () := by
  induction steps generalizing writes ctx tr with
  | nil =>
    obtain ⟨rfl, hown⟩ := finish_flushed h
    exact ⟨[], tr, [], rfl, .stop, by simpa [notes] using hown⟩
  | cons step steps ih =>
    rw [loop] at h
    split at h
    next hm =>
      obtain ⟨tr₁, tr₂, ⟨ws, c, r⟩, rfl, hp, h₂⟩ := ends_bind h
      have hws := perform_ends hp
      subst hws
      cases r with
      | error e =>
        obtain ⟨rfl, rfl⟩ := ends_done h₂
        exact ⟨tr₁, [], _, rfl, .leave hm hp rfl, .refl _⟩
      | ok a =>
        cases a with
        | Accept =>
          obtain ⟨rfl, hown⟩ := finish_flushed h₂
          exact ⟨tr₁, tr₂, _, rfl, .leave hm hp rfl, hown⟩
        | Return =>
          obtain ⟨rfl, hown⟩ := finish_flushed h₂
          exact ⟨tr₁, tr₂, _, rfl, .leave hm hp rfl, hown⟩
        | Continue =>
          obtain ⟨inner, own, vs, rfl, hpass, hown⟩ := ih h₂
          refine ⟨tr₁ ++ inner, own, _, by simp, .next hm hp hpass, ?_⟩
          rwa [notes_append, ← List.append_assoc]
        | Goto tag =>
          obtain ⟨tr₃, tr₄, ⟨ws, c', r⟩, rfl, hc, h₄⟩ := ends_bind h₂
          have hws := callTag_ends hc
          subst hws
          cases r with
          | error e =>
            obtain ⟨rfl, rfl⟩ := ends_done h₄
            exact ⟨tr₁ ++ tr₃, [], _, by simp, .jump hm hp hc, .refl _⟩
          | ok a =>
            obtain ⟨rfl, hown⟩ := finish_flushed h₄
            refine ⟨tr₁ ++ tr₃, tr₄, _, by simp, .jump hm hp hc, ?_⟩
            simpa [notes_append] using hown
    next hm =>
      obtain ⟨inner, own, vs, rfl, hpass, hown⟩ := ih h
      exact ⟨inner, own, vs, rfl, .skip hm hpass, hown⟩

theorem run_pass {seq : Sequence} {ctx : QueryContext} {tr : Trace} {o : Outcome}
    (h : Ends (seq.run reg call ctx) tr o) :
    ∃ inner own vs, tr = inner ++ own ∧ Pass reg call seq.tag seq.steps ctx inner vs o ∧
      Ends (flushed (notes reg vs) o) own () :=
  loop_pass h

/-! ### Invariants along a pass -/

section Keeps

variable {C : Contract QueryContext Eff Eff.Answer} {I : QueryContext → Prop} {W : Write → Prop}

/-- An invariant of pipelines holds at every visit of a pass and at its end. -/
theorem Pass.keeps (hI : Preserved C I W) (hr : ∀ e r, C.rely e r)
    (hcall : ∀ p ctx, I ctx → (call p ctx).Sat C fun o => I o.1) {steps : List Step}
    {ctx : QueryContext} {tr : Trace} {vs : List Visit} {o : Outcome}
    (h : Pass reg call self steps ctx tr vs o) (hi : I ctx) : I o.1 ∧ ∀ v ∈ vs, I v.2 := by
  have hleaves := (hI.guarded.leaves reg).preserves
  have here {x : Exec} {ctx : QueryContext} (hi : I ctx) : ∀ v ∈ visits ctx x, I v.2 := by
    cases x <;> simp [visits, hi]
  have performed {x : Exec} {ctx c : QueryContext} {tr : Trace} {ws : List Write}
      {r : Except Error Action} (hi : I ctx)
      (hp : Ends (perform reg call self ctx x) tr (ws, c, r)) : I c :=
    ((hleaves.perform_sat (fun _ => hcall _ _) hi self fun _ _ => trivial).ends hp fun _ _ => hr _ _).2.2
  induction h with
  | stop => exact ⟨hi, by simp⟩
  | skip hm _ ih => exact ih hi
  | next hm hp _ ih =>
    obtain ⟨ho, hvs⟩ := ih (performed hi hp)
    exact ⟨ho, fun v hv => (List.mem_append.1 hv).elim (here hi v) (hvs v)⟩
  | leave hm hp _ => exact ⟨performed hi hp, here hi⟩
  | jump hm hp hc =>
    have hi' := performed hi hp
    have hcalled := (hleaves.callTag_sat (fun _ => hcall _ _) hi' hi' _).ends hc fun _ _ => hr _ _
    refine ⟨hcalled.2.2, fun v hv => ?_⟩
    rcases List.mem_append.1 hv with hv | hv
    · exact here hi v hv
    · rw [List.mem_singleton.1 hv]
      exact hi'

end Keeps

end Sequence

end FerrumDns
