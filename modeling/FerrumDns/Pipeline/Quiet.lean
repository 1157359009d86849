import FerrumDns.Pipeline.Pass

/-! Steps that read and change the context alone. What they do depends only on the part
of the context that a background refresh is given back: neither the trace nor the flag
that passes caches by plays a role. So two runs that start alike go past the same steps
and stay alike. -/

namespace FerrumDns

open Prog Dnsutil Sequence

namespace QueryContext

/-- The context without its history and without what concerns caches. -/
def bare (ctx : QueryContext) : QueryContext :=
  { ctx with
    trace := []
    traceEnabled := false
    skipCache := false
    servedFromCache := false
    source := none
    rewritesAnswered := 0
    ecsRefused := false }

@[simp] theorem bare_pushTrace (ctx : QueryContext) (plugin event : String) :
    (ctx.pushTrace plugin event).bare = ctx.bare := by
  obtain ⟨trace, h⟩ := ctx.pushTrace_eq plugin event
  rw [h]
  rfl

theorem bare_rewriteName (ctx : QueryContext) (name : Name) :
    (ctx.bare.rewriteName name).bare = (ctx.rewriteName name).bare := by
  simp only [rewriteName]
  have hq : ctx.bare.query = ctx.query := rfl
  rw [hq]
  cases ctx.query.queries with
  | nil => rfl
  | cons question rest =>
    dsimp only
    split_ifs <;> rfl

/-- Alike up to trace and caching. -/
def Alike (a b : QueryContext) : Prop := a.bare = b.bare

theorem Alike.symm {a b : QueryContext} (h : Alike a b) : Alike b a := Eq.symm h

theorem Alike.map {f : QueryContext → QueryContext} (hf : ∀ ctx, (f ctx.bare).bare = (f ctx).bare)
    {a b : QueryContext} (h : Alike a b) : Alike (f a) (f b) := by
  rw [Alike, ← hf a, ← hf b, h]

theorem Alike.query {a b : QueryContext} (h : Alike a b) : a.query = b.query := by
  have hq : a.bare.query = b.bare.query := by rw [h]
  exact hq

theorem alike_bare (ctx : QueryContext) : Alike ctx.bare ctx := rfl

theorem Alike.traced {a b : QueryContext} (h : Alike a b) (plugin event : String) :
    Alike (a.pushTrace plugin event) (b.pushTrace plugin event) := by
  rw [Alike, bare_pushTrace, bare_pushTrace]
  exact h

end QueryContext

open QueryContext

variable [Crates]

theorem Matcher.matches_bare (m : Matcher) (ctx : QueryContext) :
    m.matches ctx.bare = m.matches ctx := by
  induction m with
  | Neg inner ih => exact congrArg not ih
  | _ => rfl

theorem Step.all_bare (step : Step) (ctx : QueryContext) :
    step.matchers.all (·.matches ctx.bare) = step.matchers.all (·.matches ctx) := by
  simp only [Matcher.matches_bare]

namespace Executable

/-- What a plugin that works on the context alone makes of it. -/
def quiet : Executable → Option (QueryContext → QueryContext)
  | blackhole b => some b.exec
  | redirect r => some r.exec
  | ecs e => some e.exec
  | noEcs n => some n.exec
  | hosts h => some h.exec
  | forward _ | cache _ | sequence _ | fallback _ => none

theorem exec_quiet {p : Executable} {f : QueryContext → QueryContext} (h : p.quiet = some f)
    (reg : Registry) (depth : ℕ) (ctx : QueryContext) :
    p.exec reg (depth + 1) ctx = act (.call p ctx) fun _ => done (f ctx, .ok .Continue) := by
  cases p <;> cases h <;> rfl

theorem quiet_bare {p : Executable} {f : QueryContext → QueryContext} (h : p.quiet = some f)
    (ctx : QueryContext) : (f ctx.bare).bare = (f ctx).bare := by
  cases p with
  | blackhole b => cases h; rfl
  | redirect r =>
    cases h
    have ht : r.target ctx.bare = r.target ctx := rfl
    rw [Redirect.exec, Redirect.exec, ht]
    cases r.target ctx with
    | none => rfl
    | some name => simpa using ctx.bare_rewriteName name
  | ecs e =>
    cases h
    have hp : e.pick ctx.bare = e.pick ctx := rfl
    have hq : ctx.bare.query = ctx.query := rfl
    simp only [Ecs.exec, hp, hq]
    split_ifs
    · simp only [bare_pushTrace]
      rfl
    · cases e.pick ctx <;> simp only [bare_pushTrace] <;> rfl
    · cases e.pick ctx <;> simp only [bare_pushTrace] <;> rfl
  | noEcs n =>
    cases h
    simp only [NoEcs.exec, bare_pushTrace]
    rfl
  | hosts t =>
    cases h
    have hn : ctx.bare.qnameStr = ctx.qnameStr := rfl
    have ht : ctx.bare.qtype = ctx.qtype := rfl
    have answered (event : String) (recs : List Record) :
        Alike ((ctx.bare.pushTrace t.tag event).setResponse (.hosts t.tag)
            (buildHostsResponse (ctx.bare.pushTrace t.tag event).query recs))
          ((ctx.pushTrace t.tag event).setResponse (.hosts t.tag)
            (buildHostsResponse (ctx.pushTrace t.tag event).query recs)) := by
      have htraced := (alike_bare ctx).traced t.tag event
      exact htraced.map (f := fun c => c.setResponse _ (buildHostsResponse c.query recs)) fun _ => rfl
    simp only [Hosts.exec, hn, ht]
    split_ifs
    · exact answered _ _
    · exact answered _ _
    · rfl
  | _ => cases h

end Executable

omit [Crates] in
theorem Builtin.apply_bare (b : Builtin) (ctx : QueryContext) :
    (b.apply ctx.bare).1.bare = (b.apply ctx).1.bare ∧ (b.apply ctx.bare).2 = (b.apply ctx).2 := by
  cases b with
  | Ttl low high =>
    simp only [Builtin.apply]
    split_ifs <;> exact ⟨rfl, rfl⟩
  | _ => exact ⟨rfl, rfl⟩

/-! ### Quiet steps -/

namespace Sequence

variable (reg : Registry) (self : Tag)

/-- What performing a step comes to, if it works on the context alone. -/
def effect (ctx : QueryContext) : Exec → Option Outcome
  | .Builtin b => some (b.apply (ctx.pushTrace self "builtin"))
  | .Plugin tag => ((reg.execs tag).bind Executable.quiet).map fun f =>
      (f (ctx.pushTrace self "exec"), .ok .Continue)

/-- The step works on the context alone: a builtin, or a plugin that shares nothing. -/
def Quiet : Exec → Prop
  | .Builtin _ => True
  | .Plugin tag => ((reg.execs tag).bind Executable.quiet).isSome

variable {reg self} {depth : ℕ}

theorem Quiet.effect {x : Exec} (h : Quiet reg x) (ctx : QueryContext) :
    ∃ o, effect reg self ctx x = some o := by
  cases x with
  | Builtin b => exact ⟨_, rfl⟩
  | Plugin tag =>
    obtain ⟨f, hf⟩ := Option.isSome_iff_exists.1 h
    exact ⟨_, by rw [Sequence.effect, hf, Option.map_some]⟩

theorem effect_alike {a b : QueryContext} {x : Exec} {o : Outcome} (h : effect reg self a x = some o)
    (hab : Alike a b) : ∃ o', effect reg self b x = some o' ∧ Alike o.1 o'.1 ∧ o.2 = o'.2 := by
  cases x with
  | Builtin k =>
    cases h
    have ht : Alike (a.pushTrace self "builtin") (b.pushTrace self "builtin") := hab.traced _ _
    have hr (ctx : QueryContext) : (k.apply ctx).2 = (k.apply ctx.bare).2 :=
      (k.apply_bare ctx).2.symm
    refine ⟨_, rfl, ht.map (f := fun c => (k.apply c).1) fun c => (k.apply_bare c).1, ?_⟩
    rw [hr, hr (b.pushTrace _ _), ht]
  | Plugin tag =>
    obtain ⟨f, hf, rfl⟩ := Option.map_eq_some_iff.1 h
    obtain ⟨p, hp, hq⟩ := Option.bind_eq_some_iff.1 hf
    refine ⟨(f (b.pushTrace self "exec"), .ok .Continue), by rw [effect, hf, Option.map_some], ?_, rfl⟩
    exact (hab.traced _ _).map fun c => Executable.quiet_bare hq c

theorem perform_effect {ctx : QueryContext} {x : Exec} {o o' : Outcome} {tr : Trace}
    {ws : List Write} (h : effect reg self ctx x = some o)
    (he : Ends (perform reg (Executable.exec reg (depth + 1)) self ctx x) tr (ws, o')) : o' = o := by
  cases x with
  | Builtin b =>
    cases h
    cases (ends_done he).2
    rfl
  | Plugin tag =>
    obtain ⟨f, hf, rfl⟩ := Option.map_eq_some_iff.1 h
    obtain ⟨p, hp, hq⟩ := Option.bind_eq_some_iff.1 hf
    simp only [perform, callTag, Registry.getExec, hp, Executable.exec_quiet hq] at he
    obtain ⟨_, tr', -, h'⟩ := ends_act he
    cases (ends_done h').2
    rfl

theorem effect_performs {ctx : QueryContext} {x : Exec} {o : Outcome}
    (h : effect reg self ctx x = some o) (depth : ℕ) :
    ∃ tr ws, Ends (perform reg (Executable.exec reg (depth + 1)) self ctx x) tr (ws, o) := by
  cases x with
  | Builtin b =>
    cases h
    exact ⟨_, _, .refl _⟩
  | Plugin tag =>
    obtain ⟨f, hf, rfl⟩ := Option.map_eq_some_iff.1 h
    obtain ⟨p, hp, hq⟩ := Option.bind_eq_some_iff.1 hf
    simp only [perform, callTag, Registry.getExec, hp, Executable.exec_quiet hq]
    exact ⟨_, _, .act () (.refl _)⟩

/-! ### Walking past steps -/

section Walk

variable (reg self) (call : Executable → QueryContext → Run Outcome)

/-- Going past steps one after the other: skipping those whose matchers do not all hold, performing
the others and going on. -/
inductive Walk : List Step → QueryContext → Trace → List Visit → QueryContext → Prop
  | stop {ctx} : Walk [] ctx [] [] ctx
  | skip {step steps ctx tr vs x} (hm : ¬ step.matchers.all (·.matches ctx))
      (h : Walk steps ctx tr vs x) : Walk (step :: steps) ctx tr vs x
  | next {step steps ctx tr ws c tr' vs x} (hm : step.matchers.all (·.matches ctx))
      (hp : Ends (perform reg call self ctx step.exec) tr (ws, c, .ok .Continue))
      (h : Walk steps c tr' vs x) :
      Walk (step :: steps) ctx (tr ++ tr') (visits ctx step.exec ++ vs) x

end Walk

/-- A run of a longer sequence that walks past its first steps goes on with the rest. -/
theorem Walk.leads {call : Executable → QueryContext → Run Outcome} {pre : List Step}
    {ctx x : QueryContext} {tr : Trace} {vs : List Visit} (h : Walk reg self call pre ctx tr vs x)
    (rest : List Step) (writes : List Write) :
    Leads (loop reg call self (pre ++ rest) writes ctx) tr
      (loop reg call self rest (writes ++ notes reg vs) x) := by
  induction h generalizing writes with
  | stop => simpa [notes] using Leads.refl _
  | skip hm _ ih =>
    rw [List.cons_append, loop, if_neg hm]
    exact ih writes
  | next hm hp _ ih =>
    obtain rfl := perform_ends hp
    rw [List.cons_append, loop, if_pos hm, notes_append, ← List.append_assoc]
    exact (Leads.bind hp _).trans (ih _)

variable {pre : List Step}

/-- Contexts that are alike walk past the same quiet steps. -/
theorem Walk.alike (hq : ∀ step ∈ pre, Quiet reg step.exec) {a b x : QueryContext} {tr : Trace}
    {vs : List Visit} (h : Walk reg self (Executable.exec reg (depth + 1)) pre a tr vs x)
    (hab : Alike a b) : ∃ tr' vs' y,
      Walk reg self (Executable.exec reg (depth + 1)) pre b tr' vs' y ∧ Alike x y := by
  induction h generalizing b with
  | stop => exact ⟨[], [], b, .stop, hab⟩
  | @skip step steps ctx tr vs x hm _ ih =>
    obtain ⟨tr', vs', y, hw, hxy⟩ := ih (fun s hs => hq s (by simp [hs])) hab
    refine ⟨tr', vs', y, .skip ?_ hw, hxy⟩
    rwa [← step.all_bare, ← hab, step.all_bare]
  | @next step steps ctx tr ws c tr' vs x hm hp _ ih =>
    obtain ⟨o, ho⟩ := (hq step (by simp)).effect ctx
    obtain rfl := perform_effect ho hp
    obtain ⟨⟨c', r⟩, ho', hc, hr⟩ := effect_alike ho hab
    obtain rfl : _ = r := hr
    obtain ⟨tr₁, ws', hp'⟩ := effect_performs ho' depth
    obtain ⟨tr₂, vs', y, hw, hxy⟩ := ih (fun s hs => hq s (by simp [hs])) hc
    refine ⟨_, _, y, .next ?_ hp' hw, hxy⟩
    rwa [← step.all_bare, ← hab, step.all_bare]

/-- Walks past quiet steps from contexts that are alike end alike. -/
theorem Walk.unique (hq : ∀ step ∈ pre, Quiet reg step.exec) {a b x y : QueryContext}
    {tr tr' : Trace} {vs vs' : List Visit}
    (h : Walk reg self (Executable.exec reg (depth + 1)) pre a tr vs x)
    (h' : Walk reg self (Executable.exec reg (depth + 1)) pre b tr' vs' y) (hab : Alike a b) :
    Alike x y := by
  induction h generalizing b tr' vs' with
  | stop =>
    cases h'
    exact hab
  | @skip step steps ctx tr vs x hm _ ih =>
    rw [← step.all_bare, hab, step.all_bare] at hm
    cases h' with
    | skip _ h' => exact ih (fun s hs => hq s (by simp [hs])) h' hab
    | next hm' _ _ => exact absurd hm' hm
  | @next step steps ctx tr ws c tr₁ vs x hm hp _ ih =>
    rw [← step.all_bare, hab, step.all_bare] at hm
    cases h' with
    | skip hm' _ => exact absurd hm hm'
    | next _ hp' h' =>
      obtain ⟨o, ho⟩ := (hq step (by simp)).effect ctx
      obtain rfl := perform_effect ho hp
      obtain ⟨o', ho', hc, -⟩ := effect_alike ho hab
      obtain rfl := perform_effect ho' hp'
      exact ih (fun s hs => hq s (by simp [hs])) h' hc

end Sequence

end FerrumDns
