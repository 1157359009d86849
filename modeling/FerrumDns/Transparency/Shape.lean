import FerrumDns.Cache.Hit
import FerrumDns.Pipeline.Pass
import FerrumDns.Transparency.Follow

/-! A pipeline of redirects around a cache. It redirects, looks in the cache, leaves with
what it found there, and else redirects on and asks. A run of it goes one of two ways,
each with the questions and aliases that the redirects give. -/

namespace FerrumDns

open Prog Dnsutil QueryContext Sequence

/-! ### The pipeline -/

/-- The action is of neither a cache's entries nor the clock. -/
def Apart (e : Eff) : Prop :=
  (∀ c key q, e ≠ .lookup c key q) ∧ (∀ c lookup source entry, e ≠ .insert c lookup source entry) ∧
    e ≠ .now

/-- The step that executes a plugin unconditionally. -/
def plain (tag : Tag) : Step := ⟨[], .Plugin tag⟩

/-- Redirects, a cache, a way out with a response, more redirects, and a plugin that answers. -/
structure Pipeline (reg : Registry) where
  tag : Tag
  before : List (Tag × Redirect)
  cache : Cache
  behind : List (Tag × Redirect)
  up : Tag × Executable
  before_execs : ∀ x ∈ before, reg.execs x.1 = some (.redirect x.2)
  cache_execs : reg.caches cache.tag = some cache
  behind_execs : ∀ x ∈ behind, reg.execs x.1 = some (.redirect x.2)
  up_execs : reg.execs up.1 = some up.2
  up_caches : reg.caches up.1 = none

namespace Pipeline

variable {reg : Registry} (p : Pipeline reg)

def sequence : Sequence where
  tag := p.tag
  steps := p.before.map (fun x => plain x.1) ++ plain p.cache.tag ::
    ⟨[.HasResp], .Builtin .Accept⟩ :: (p.behind.map (fun x => plain x.1) ++ [plain p.up.1])

variable [Crates]

/-- The questions at the cache, with the aliases up to there. -/
def atCache (l : List Query) : List Query × List (Name × Name) := follow (p.before.map Prod.snd) l

/-- The questions that the answering plugin gets, with the aliases made behind the cache. -/
def atUp (l : List Query) : List Query × List (Name × Name) := follow (p.behind.map Prod.snd) l

end Pipeline

/-! ### Runs of single steps -/

variable [Crates] {reg : Registry} {depth : ℕ} {self : Tag}

/-- Something executed to its end had room for the call. -/
theorem Executable.exec_ends {p : Executable} {ctx : QueryContext} {tr : Trace} {o : Outcome}
    (h : Ends (p.exec reg depth ctx) tr o) : ∃ d tr', depth = d + 1 ∧ tr = ⟨.call p ctx, ()⟩ :: tr' ∧
      Ends (p.body reg (Executable.exec reg d) ctx) tr' o := by
  cases depth with
  | zero =>
    obtain ⟨r, -⟩ := ends_act h
    exact r.elim
  | succ d =>
    obtain ⟨_, tr', rfl, h'⟩ := ends_act h
    exact ⟨d, tr', rfl, rfl, h'⟩

theorem perform_plugin {call : Executable → QueryContext → Run Outcome} {tag : Tag} {p : Executable}
    (hp : reg.execs tag = some p) {ctx : QueryContext} {tr : Trace} {ws : List Write} {o : Outcome}
    (h : Ends (perform reg call self ctx (.Plugin tag)) tr (ws, o)) :
    Ends (call p (ctx.pushTrace self "exec")) tr o := by
  simp only [perform, callTag, Registry.getExec, hp] at h
  obtain ⟨tr₁, tr₂, o', rfl, h₁, h₂⟩ := ends_bind h
  obtain ⟨rfl, ho⟩ := ends_done h₂
  cases ho
  rwa [List.append_nil]

theorem perform_redirect {tag : Tag} {r : Redirect} (hr : reg.execs tag = some (.redirect r))
    {ctx : QueryContext} {tr : Trace} {ws : List Write} {o : Outcome}
    (h : Ends (perform reg (Executable.exec reg depth) self ctx (.Plugin tag)) tr (ws, o)) :
    (∀ ev ∈ tr, Apart ev.1) ∧ o.2 = .ok .Continue ∧
      Traced (ctx.moved (follow [r] ctx.query.queries)) o.1 := by
  obtain ⟨d, tr', rfl, rfl, h'⟩ := Executable.exec_ends (perform_plugin hr h)
  obtain ⟨rfl, rfl⟩ := ends_done h'
  refine ⟨by simp [Apart], rfl, ?_⟩
  have hexec := r.exec_traced (ctx.pushTrace self "exec")
  obtain ⟨t, ht⟩ := ctx.pushTrace_eq self "exec"
  rw [ht] at hexec ⊢
  obtain ⟨t', ht'⟩ := hexec
  exact ⟨t', ht'⟩

/-! ### Going through the pipeline -/

/-- A pass goes on behind a step that is performed and always continues. -/
theorem Pass.continued {call : Executable → QueryContext → Run Outcome} {step : Step}
    {steps : List Step} {ctx : QueryContext} {tr : Trace} {vs : List Visit} {o : Outcome}
    (hm : step.matchers.all (·.matches ctx) = true)
    (hc : ∀ tr₁ ws c r, Ends (perform reg call self ctx step.exec) tr₁ (ws, c, r) → tr₁ ⊆ tr →
      r = .ok .Continue)
    (h : Pass reg call self (step :: steps) ctx tr vs o) : ∃ tr₁ tr₂ ws c vs', tr = tr₁ ++ tr₂ ∧
      vs = visits ctx step.exec ++ vs' ∧
      Ends (perform reg call self ctx step.exec) tr₁ (ws, c, .ok .Continue) ∧
      Pass reg call self steps c tr₂ vs' o := by
  cases h with
  | skip hn _ => exact absurd hm hn
  | next _ hp h => exact ⟨_, _, _, _, _, rfl, rfl, hp, h⟩
  | leave _ hp hr =>
    rw [hc _ _ _ _ hp (List.Subset.refl _)] at hr
    cases hr
  | jump _ hp _ => cases hc _ _ _ _ hp (List.subset_append_left _ _)

/-- Visits that leave nothing to be written. -/
def Unwritten (reg : Registry) (vs : List Visit) : Prop := ∀ v ∈ vs, reg.caches v.1 = none

theorem notes_of_unwritten {vs : List Visit} (h : Unwritten reg vs) : notes reg vs = [] := by
  rw [notes, List.flatMap_eq_nil_iff]
  intro v hv
  rw [noteCache, h v hv]

/-- Past redirects a pass goes on from where they lead. -/
theorem Pass.redirects {l : List (Tag × Redirect)}
    (hl : ∀ x ∈ l, reg.execs x.1 = some (.redirect x.2)) {rest : List Step} {ctx : QueryContext}
    {tr : Trace} {vs : List Visit} {o : Outcome}
    (h : Pass reg (Executable.exec reg depth) self (l.map (fun x => plain x.1) ++ rest) ctx tr vs o) :
    ∃ tr₁ tr₂ vs₁ vs₂ x, tr = tr₁ ++ tr₂ ∧ (∀ ev ∈ tr₁, Apart ev.1) ∧ vs = vs₁ ++ vs₂ ∧
      Unwritten reg vs₁ ∧ Traced (ctx.moved (follow (l.map Prod.snd) ctx.query.queries)) x ∧
      Pass reg (Executable.exec reg depth) self rest x tr₂ vs₂ o := by
  induction l generalizing ctx tr vs with
  | nil =>
    refine ⟨[], tr, [], vs, ctx, rfl, by simp, rfl, by simp [Unwritten], ?_, h⟩
    simp [QueryContext.moved, follow, Traced.refl]
  | cons y l ih =>
    have hy := hl y (by simp)
    have hnone : reg.caches y.1 = none := by
      cases hc : reg.caches y.1 with
      | none => rfl
      | some c => rw [(reg.caches_execs y.1 c).1 hc] at hy; cases hy
    obtain ⟨tr₁, tr₂, ws, c, vs', rfl, rfl, hp, hrest⟩ := Pass.continued rfl
      (fun _ _ _ _ he _ => (perform_redirect hy he).2.1) h
    obtain ⟨hapart, -, hc⟩ := perform_redirect hy hp
    obtain ⟨tr₃, tr₄, vs₁, vs₂, x, rfl, hapart', rfl, hun, hx, hpass⟩ :=
      ih (fun x hx => hl x (by simp [hx])) hrest
    refine ⟨tr₁ ++ tr₃, tr₄, (y.1, ctx) :: vs₁, vs₂, x, by simp, ?_, rfl, ?_, ?_, hpass⟩
    · intro ev hev
      exact (List.mem_append.1 hev).elim (hapart ev) (hapart' ev)
    · intro v hv
      rcases List.mem_cons.1 hv with rfl | hv
      · exact hnone
      · exact hun v hv
    · have hq : c.query.queries = (follow [y.2] ctx.query.queries).1 := by
        obtain ⟨t, rfl⟩ := hc
        rfl
      have hfollow := follow_append [y.2] (l.map Prod.snd) ctx.query.queries
      have hc' : Traced (ctx.moved (follow [y.2] ctx.query.queries)) c := hc
      rw [hq] at hx
      rw [List.map_cons, ← List.singleton_append, hfollow, ← moved_moved]
      exact (hc'.moved _).trans hx

/-! ### The plugin that answers -/

/-- The context after the response was taken, if there was one. -/
def Took (ctx : QueryContext) : Except Error Message → QueryContext → Prop
  | .ok m, c => ∃ source, Traced (ctx.setResponse source m) c
  | .error _, c => Traced ctx c

/-- The upstreams' answers are those of `up`. -/
def Asked (up : Message → Except Error Message) (tr : Trace) : Prop :=
  ∀ ups q r, (⟨.exchange ups q, r⟩ : Event Eff Eff.Answer) ∈ tr → r.2 = up q

/-- The plugin installs the response that `up` gives to the query and leaves caches alone. -/
def Answers (reg : Registry) (p : Executable) (up : Message → Except Error Message) : Prop :=
  ∀ depth ctx tr o, Ends (p.exec reg depth ctx) tr o → Asked up tr →
    (∀ ev ∈ tr, Apart ev.1) ∧ o.2 = .ok .Continue ∧ Took ctx (up ctx.query) o.1

/-- Behind the cache a pass leaves with a response, or asks for one past more redirects. -/
theorem Pipeline.pass_behind (p : Pipeline reg) {up : Message → Except Error Message}
    (hup : Answers reg p.up.2 up) {y : QueryContext} {tr : Trace} {vs : List Visit} {o : Outcome}
    (h : Pass reg (Executable.exec reg depth) p.tag (⟨[.HasResp], .Builtin .Accept⟩ ::
      (p.behind.map (fun x => plain x.1) ++ [plain p.up.1])) y tr vs o)
    (hasked : Asked up tr) : (∀ ev ∈ tr, Apart ev.1) ∧ Unwritten reg vs ∧
      (y.hasResp = true ∧ o.2 = .ok .Accept ∧ Traced y o.1 ∨
        y.hasResp = false ∧ o.2 = .ok .Continue ∧ ∃ z,
          Traced (y.moved (p.atUp y.query.queries)) z ∧ Took z (up z.query) o.1) := by
  have hmatch : (Step.matchers ⟨[.HasResp], .Builtin .Accept⟩).all (·.matches y) = y.hasResp := by
    simp [Matcher.matches]
  cases h with
  | next _ hp _ => cases (ends_done hp).2
  | jump _ hp _ => cases (ends_done hp).2
  | leave hm hp hr =>
    rw [hmatch] at hm
    obtain ⟨rfl, ho⟩ := ends_done hp
    cases ho
    cases hr
    exact ⟨by simp, by simp [Unwritten, visits], .inl ⟨hm, rfl, (Traced.refl y).push _ _⟩⟩
  | skip hm h =>
    rw [hmatch, Bool.not_eq_true] at hm
    obtain ⟨tr₁, tr₂, vs₁, vs₂, z, rfl, hapart, rfl, hun, hz, hpass⟩ :=
      Pass.redirects p.behind_execs h
    have answered {tr : Trace} {ws : List Write} {c : QueryContext} {r : Except Error Action}
        (he : Ends (perform reg (Executable.exec reg depth) p.tag z (plain p.up.1).exec) tr (ws, c, r))
        (hsub : tr ⊆ tr₂) : (∀ ev ∈ tr, Apart ev.1) ∧ r = .ok .Continue ∧
          Took (z.pushTrace p.tag "exec") (up z.query) c := by
      have hasked' : Asked up tr := fun ups q r hev => hasked ups q r (by simp [hsub hev])
      have hend := hup depth _ _ _ (perform_plugin p.up_execs he) hasked'
      rwa [QueryContext.pushTrace_query] at hend
    obtain ⟨tr₃, tr₄, ws, c, vs₃, rfl, rfl, hp, hstop⟩ := Pass.continued rfl
      (fun _ _ _ _ he hsub => (answered he hsub).2.1) hpass
    obtain ⟨hapart', -, htook⟩ := answered hp (List.subset_append_left _ _)
    cases hstop with
    | stop =>
      refine ⟨?_, ?_, .inr ⟨hm, rfl, z.pushTrace p.tag "exec", hz.push _ _, by simpa using htook⟩⟩
      · intro ev hev
        rw [List.append_nil] at hev
        exact (List.mem_append.1 hev).elim (hapart ev) (hapart' ev)
      · intro v hv
        rcases List.mem_append.1 hv with hv | hv
        · exact hun v hv
        · rw [List.append_nil] at hv
          rw [List.mem_singleton.1 hv]
          exact p.up_caches

/-- A pass through the pipeline: past the redirects to the cache, and out with its response, or past
more redirects to the plugin that answers. -/
theorem Pipeline.pass (p : Pipeline reg) {up : Message → Except Error Message}
    (hup : Answers reg p.up.2 up) {ctx : QueryContext} {tr : Trace} {vs : List Visit} {o : Outcome}
    (h : Pass reg (Executable.exec reg depth) p.tag p.sequence.steps ctx tr vs o)
    (hasked : Asked up tr) : ∃ x y trc, Traced (ctx.moved (p.atCache ctx.query.queries)) x ∧
      notes reg vs = noteCache reg p.cache.tag x ∧
      Ends (p.cache.exec (x.pushTrace p.tag "exec")) trc (y, .ok .Continue) ∧
      (∀ ev ∈ trc, ev ∈ tr) ∧ (∀ ev ∈ tr, ev ∈ trc ∨ Apart ev.1) ∧
      (y.hasResp = true ∧ o.2 = .ok .Accept ∧ Traced y o.1 ∨
        y.hasResp = false ∧ o.2 = .ok .Continue ∧ ∃ z,
          Traced (y.moved (p.atUp y.query.queries)) z ∧ Took z (up z.query) o.1) := by
  have hcache := (reg.caches_execs p.cache.tag p.cache).1 p.cache_execs
  obtain ⟨tr₁, tr₂, vs₁, vs₂, x, rfl, hapart₁, rfl, hun₁, hx, hpass⟩ :=
    Pass.redirects p.before_execs h
  -- The cache is executed and continues, whatever it finds.
  have executed {tr : Trace} {ws : List Write} {c : QueryContext} {r : Except Error Action}
      (he : Ends (perform reg (Executable.exec reg depth) p.tag x (plain p.cache.tag).exec) tr
        (ws, c, r)) : ∃ trc, tr = ⟨.call (.cache p.cache) (x.pushTrace p.tag "exec"), ()⟩ :: trc ∧
      Ends (p.cache.exec (x.pushTrace p.tag "exec")) trc (c, r) ∧ r = .ok .Continue := by
    obtain ⟨d, trc, rfl, rfl, hc⟩ := Executable.exec_ends (perform_plugin hcache he)
    refine ⟨trc, rfl, hc, ?_⟩
    rcases Cache.exec_ends hc with ⟨-, ho⟩ | ⟨_, _, _, _, _, _, -, -, -, -, ho⟩
    · rcases ho with ho | ho <;> exact congrArg Prod.snd ho
    · exact congrArg Prod.snd ho
  obtain ⟨tr₃, tr₄, ws, y, vs₃, rfl, rfl, hp, hbehind⟩ := Pass.continued
    rfl (fun _ _ _ _ he _ => (executed he).choose_spec.2.2) hpass
  obtain ⟨trc, rfl, hc, -⟩ := executed hp
  have hnoted {vs : List Visit} (hun : Unwritten reg vs) :
      notes reg (vs₁ ++ ((p.cache.tag, x) :: vs)) = noteCache reg p.cache.tag x := by
    have hcons : (p.cache.tag, x) :: vs = [(p.cache.tag, x)] ++ vs := rfl
    rw [hcons, notes_append, notes_append, notes_of_unwritten hun₁, notes_of_unwritten hun]
    simp [notes]
  have hcall : Apart (.call (.cache p.cache) (x.pushTrace p.tag "exec")) := by simp [Apart]
  obtain ⟨hapart₂, hun₂, hway⟩ := p.pass_behind hup hbehind fun ups q r hev =>
    hasked ups q r (by simp [hev])
  refine ⟨x, y, trc, hx, hnoted hun₂, hc, fun ev hev => by simp [hev], fun ev hev => ?_, hway⟩
  simp only [List.mem_append, List.mem_cons] at hev
  rcases hev with hev | (rfl | hev) | hev
  · exact .inr (hapart₁ ev hev)
  · exact .inr hcall
  · exact .inl hev
  · exact .inr (hapart₂ ev hev)

end FerrumDns
