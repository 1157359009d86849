import FerrumDns.Pipeline.Pass
import FerrumDns.Runtime.Nesting
import FerrumDns.Sample

/-! Control flow through nested sequences. What a run still has to do is a stack of
activations, innermost first, each with the steps it has left and the writes it has
collected. Accepting ends the whole stack, returning ends its top, and a jump leaves
nothing to do below the target but to hand on its result; each activation that ends
does its write-backs then, and only then. A fallback calls its branches apart from
any stack. -/

namespace FerrumDns

open Prog Nesting

/-! ### Acyclic registries -/

namespace Registry

variable (reg : Registry)

/-- The plugin with the first tag looks up the second one. -/
def Calls (a b : Tag) : Prop := ∃ p, reg.getExec a = .ok p ∧ b ∈ p.refs

/-- Finitely many plugins, none of which comes to call itself. -/
structure Acyclic : Prop where
  finite : {tag | ∃ p, reg.getExec tag = .ok p}.Finite
  noCycle : ∀ tag, ¬ Relation.TransGen reg.Calls tag tag

variable {reg}

theorem Acyclic.within (h : reg.Acyclic) : ∃ n, ∀ tag, Graph.Within reg.Calls n tag := by
  refine Graph.within_of_acyclic (h.finite.subset fun tag htag => ?_) h.noCycle
  obtain ⟨_, p, hp, -⟩ := htag
  exact ⟨p, hp⟩

/-- A plugin is shallow when chains of calls from its tag are short. -/
theorem shallow_nests : Nests reg (fun e => e ≠ .overflow) (fun _ => True)
    (fun n p => ∃ tag, reg.getExec tag = .ok p ∧ Graph.Within reg.Calls n tag) where
  call _ ctx := by intro h; cases h
  other {e} he := by
    rintro rfl
    exact he
  overflow h := by
    obtain ⟨_, _, hw⟩ := h
    exact hw.elim
  config _ := trivial
  found h ht hq := by
    obtain ⟨a, hp, hw⟩ := h
    exact ⟨_, hq, hw _ ⟨_, hp, ht⟩⟩
  missing _ _ _ := trivial

/-- With room for every chain of calls, no call is too deep. -/
theorem Acyclic.no_overflow [Crates] (h : reg.Acyclic) : ∃ N, ∀ tag p, reg.getExec tag = .ok p →
    ∀ n ≥ N, ∀ ctx tr k, ¬ Leads (p.exec reg n ctx) tr (.act .overflow k) := by
  obtain ⟨N, hN⟩ := h.within
  refine ⟨N, fun tag p hp n hn ctx tr k hl => ?_⟩
  have hsat := shallow_nests.exec_sat ⟨tag, hp, (hN tag).mono hn⟩ ctx
  exact (hsat.leads hl fun _ _ => trivial).2.1 rfl

end Registry

theorem always_nests {reg : Registry} :
    Nests reg (fun _ => True) (fun _ => True) (fun _ _ => True) where
  call _ _ := trivial
  other _ := trivial
  overflow _ := trivial
  config _ := trivial
  found _ _ _ := trivial
  missing _ _ _ := trivial

/-- Executing a plugin never asks the caller to return or to jump. -/
theorem Executable.exec_settles [Crates] {reg : Registry} {n : ℕ} {p : Executable}
    {ctx c : QueryContext} {tr : Trace} {a : Action}
    (h : Ends (p.exec reg n ctx) tr (c, .ok a)) : a = .Continue ∨ a = .Accept :=
  ((always_nests.exec_sat trivial ctx).ends h fun _ _ => trivial).2

namespace Sequence

/-! ### Stacks of activations -/

/-- A sequence being executed: how deep it may call, the steps that are left, and the writes it
has collected. -/
structure Activation where
  depth : ℕ
  self : Tag
  steps : List Step
  writes : List Write

variable [Crates] (reg : Registry)

namespace Activation

/-- Go through the steps that are left. -/
def proceed (f : Activation) (ctx : QueryContext) : Run Outcome :=
  loop reg (Executable.exec reg f.depth) f.self f.steps f.writes ctx

/-- Take up what a called plugin came to. -/
def resume (f : Activation) : Outcome → Run Outcome
  | (ctx, .ok .Continue) => f.proceed reg ctx
  | (ctx, .ok a) => finish ctx f.writes a
  | (ctx, .error e) => done (ctx, .error e)

end Activation

/-- What a run comes to, taken up by the top of the stack, and so on down. -/
def handOn : List Activation → Run Outcome → Run Outcome
  | [], r => r
  | f :: fs, r => handOn fs (r.bind (f.resume reg))

/-- The top of the stack goes on. -/
def goOn (fs : List Activation) (ctx : QueryContext) : Run Outcome :=
  handOn reg fs (done (ctx, .ok .Continue))

/-- Where a run of a plugin can be: after these events, with this stack and context. -/
inductive At (n : ℕ) (p : Executable) (ctx : QueryContext) :
    Trace → List Activation → QueryContext → Prop
  | start {d s} (hn : n = d + 1) (hp : p = .sequence s) :
      At n p ctx [⟨.call p ctx, ()⟩] [⟨d, s.tag, s.steps, []⟩] ctx
  | skip {tr d self step steps writes fs c}
      (h : At n p ctx tr (⟨d, self, step :: steps, writes⟩ :: fs) c)
      (hm : ¬ step.matchers.all (·.matches c)) :
      At n p ctx tr (⟨d, self, steps, writes⟩ :: fs) c
  | next {tr d self step steps writes fs c tr' ws c'}
      (h : At n p ctx tr (⟨d, self, step :: steps, writes⟩ :: fs) c)
      (hm : step.matchers.all (·.matches c))
      (hp : Ends (perform reg (Executable.exec reg d) self c step.exec) tr'
        (ws, c', .ok .Continue)) :
      At n p ctx (tr ++ tr') (⟨d, self, steps, writes ++ ws⟩ :: fs) c'
  | enter {tr d self step steps writes fs c tag s}
      (h : At n p ctx tr (⟨d + 1, self, step :: steps, writes⟩ :: fs) c)
      (hm : step.matchers.all (·.matches c)) (hx : step.exec = .Plugin tag)
      (hs : reg.getExec tag = .ok (.sequence s)) :
      At n p ctx (tr ++ [⟨.call (.sequence s) (c.pushTrace self "exec"), ()⟩])
        (⟨d, s.tag, s.steps, []⟩ :: ⟨d + 1, self, steps, writes ++ noteCache reg tag c⟩ :: fs)
        (c.pushTrace self "exec")
  | jump {tr d self step steps writes fs c tag s}
      (h : At n p ctx tr (⟨d + 1, self, step :: steps, writes⟩ :: fs) c)
      (hm : step.matchers.all (·.matches c)) (hx : step.exec = .Builtin (.Goto tag))
      (hs : reg.getExec tag = .ok (.sequence s)) :
      At n p ctx (tr ++ [⟨.call (.sequence s) (c.pushTrace self "builtin"), ()⟩])
        (⟨d, s.tag, s.steps, []⟩ ::
          ⟨d + 1, self, [], writes ++ noteCache reg tag (c.pushTrace self "builtin")⟩ :: fs)
        (c.pushTrace self "builtin")

/-- After this outcome of what it called, an activation goes through the steps it has left, if it
is to go on, and then does all its write-backs, unless there is an error. -/
def Closes (f : Activation) (o : Outcome) (tr : Trace) (o' : Outcome) : Prop :=
  ∃ inner own vs, tr = inner ++ own ∧
    (match o with
      | (c, .ok .Continue) =>
        Pass reg (Executable.exec reg f.depth) f.self f.steps c inner vs o'
      | o => inner = [] ∧ vs = [] ∧ o' = o) ∧
    Ends (flushed (f.writes ++ notes reg vs) o') own ()

/-- Each activation of a stack closes once, from the top down. -/
def Unwinds : List Activation → Outcome → Trace → Outcome → Prop
  | [], o, tr, o' => tr = [] ∧ o' = o
  | f :: fs, o, tr, o' => ∃ tr₁ o₁ tr₂, tr = tr₁ ++ tr₂ ∧ Closes reg f o tr₁ o₁ ∧
      Unwinds fs o₁ tr₂ o'

/-- How a run goes through nested sequences. At each point of it one knows what is left to do. -/
structure Controlled (n : ℕ) (p : Executable) (ctx : QueryContext) : Prop where
  settles : ∀ tr c a, Ends (p.exec reg n ctx) tr (c, .ok a) → a = .Continue ∨ a = .Accept
  reached : ∀ tr fs c, At reg n p ctx tr fs c → Leads (p.exec reg n ctx) tr (goOn reg fs c)
  /-- Nothing but the write-backs of the whole stack is left. -/
  accepted : ∀ tr d self step steps writes fs c b,
    At reg n p ctx tr (⟨d, self, step :: steps, writes⟩ :: fs) c →
    step.matchers.all (·.matches c) → step.exec = .Builtin b →
    (b = .Accept ∨ ∃ rcode, b = .Reject rcode) →
    ∃ c', c' = (b.apply (c.pushTrace self "builtin")).1 ∧
      Leads (p.exec reg n ctx) tr
        ((store c' (writes ++ fs.flatMap Activation.writes)).bind fun _ => done (c', .ok .Accept))
  /-- The sequence does its write-backs, and the one below it goes on. -/
  returned : ∀ tr d self step steps writes fs c,
    At reg n p ctx tr (⟨d, self, step :: steps, writes⟩ :: fs) c →
    step.matchers.all (·.matches c) → step.exec = .Builtin .Return →
    ∃ c', c' = c.pushTrace self "builtin" ∧
      Leads (p.exec reg n ctx) tr ((store c' writes).bind fun _ => goOn reg fs c')
  /-- The target runs over an activation without steps, which hands on what it comes to. -/
  jumped : ∀ tr d self step steps writes fs c tag q,
    At reg n p ctx tr (⟨d, self, step :: steps, writes⟩ :: fs) c →
    step.matchers.all (·.matches c) → step.exec = .Builtin (.Goto tag) → reg.getExec tag = .ok q →
    ∃ c' f, c' = c.pushTrace self "builtin" ∧
      f = ⟨d, self, [], writes ++ noteCache reg tag c'⟩ ∧
      Leads (p.exec reg n ctx) tr (handOn reg (f :: fs) (q.exec reg d c')) ∧
      ∀ o a, a = .Continue ∨ a = .Accept → handOn reg (f :: fs) (done (o, .ok a)) =
        (store o f.writes).bind fun _ => handOn reg fs (done (o, .ok a))
  /-- Without steps left, the sequence does its write-backs, and the one below it goes on. -/
  exhausted : ∀ tr d self writes fs c, At reg n p ctx tr (⟨d, self, [], writes⟩ :: fs) c →
    Leads (p.exec reg n ctx) tr ((store c writes).bind fun _ => goOn reg fs c)
  /-- Whatever else happens, each enclosing sequence closes once. -/
  unwound : ∀ tr fs c tr' o, At reg n p ctx tr fs c → Ends (goOn reg fs c) tr' o →
    Unwinds reg fs (c, .ok .Continue) tr' o

/-! ### What a step leaves to do -/

section Steps

variable {reg} {d : ℕ} {self : Tag} {step : Step} {steps : List Step} {writes : List Write}
  {c : QueryContext}

theorem store_append (ctx : QueryContext) (ws ws' : List Write) :
    store ctx (ws ++ ws') = (store ctx ws).bind fun _ => store ctx ws' := by
  induction ws with
  | nil => rfl
  | cons w ws ih =>
    rw [List.cons_append, store, ih, store, bind_assoc]

namespace Activation

theorem proceed_skip (hm : ¬ step.matchers.all (·.matches c)) :
    proceed reg ⟨d, self, step :: steps, writes⟩ c = proceed reg ⟨d, self, steps, writes⟩ c := by
  rw [proceed, loop, if_neg hm]
  rfl

/-- A step that goes on leaves the later ones. -/
theorem proceed_next {tr : Trace} {ws : List Write} {c' : QueryContext}
    (hm : step.matchers.all (·.matches c))
    (hp : Ends (perform reg (Executable.exec reg d) self c step.exec) tr (ws, c', .ok .Continue)) :
    Leads (proceed reg ⟨d, self, step :: steps, writes⟩ c) tr
      (proceed reg ⟨d, self, steps, writes ++ ws⟩ c') := by
  rw [proceed, loop, if_pos hm]
  exact Leads.bind hp _

/-- A called plugin's result is taken up before the later steps. -/
theorem proceed_call {tag : Tag} {q : Executable} (hm : step.matchers.all (·.matches c))
    (hx : step.exec = .Plugin tag) (hq : reg.getExec tag = .ok q) :
    proceed reg ⟨d, self, step :: steps, writes⟩ c =
      (q.exec reg d (c.pushTrace self "exec")).bind
        (resume reg ⟨d, self, steps, writes ++ noteCache reg tag c⟩) := by
  rw [proceed, loop, if_pos hm, hx, perform, hq]
  simp only [callTag, hq, bind_assoc, bind_done]
  refine bind_eq_of_ends fun tr o ho => ?_
  obtain ⟨c', r⟩ := o
  cases r with
  | error e => rfl
  | ok a =>
    cases Executable.exec_settles ho with
    | inl ha => subst ha; rfl
    | inr ha => subst ha; rfl

/-- After a jump only the target's result is left. -/
theorem proceed_jump {tag : Tag} {q : Executable} (hm : step.matchers.all (·.matches c))
    (hx : step.exec = .Builtin (.Goto tag)) (hq : reg.getExec tag = .ok q) :
    proceed reg ⟨d, self, step :: steps, writes⟩ c =
      (q.exec reg d (c.pushTrace self "builtin")).bind
        (resume reg ⟨d, self, [], writes ++ noteCache reg tag (c.pushTrace self "builtin")⟩) := by
  rw [proceed, loop, if_pos hm, hx, perform]
  simp only [Builtin.apply, callTag, hq, bind_assoc, bind_done, List.append_nil]
  refine bind_eq_of_ends fun tr o ho => ?_
  obtain ⟨c', r⟩ := o
  cases r with
  | error e => rfl
  | ok a =>
    cases Executable.exec_settles ho with
    | inl ha => subst ha; rfl
    | inr ha => subst ha; rfl

theorem proceed_accept {b : Builtin} (hm : step.matchers.all (·.matches c))
    (hx : step.exec = .Builtin b) (hb : b = .Accept ∨ ∃ rcode, b = .Reject rcode) :
    proceed reg ⟨d, self, step :: steps, writes⟩ c =
      finish (b.apply (c.pushTrace self "builtin")).1 writes .Accept := by
  rw [proceed, loop, if_pos hm, hx, perform]
  rcases hb with rfl | ⟨rcode, rfl⟩
  · simp only [Builtin.apply, bind_done, List.append_nil]
  · simp only [Builtin.apply, bind_done, List.append_nil]

theorem proceed_return (hm : step.matchers.all (·.matches c))
    (hx : step.exec = .Builtin .Return) :
    proceed reg ⟨d, self, step :: steps, writes⟩ c =
      finish (c.pushTrace self "builtin") writes .Continue := by
  rw [proceed, loop, if_pos hm, hx, perform]
  simp only [Builtin.apply, bind_done, List.append_nil]

/-- An activation without steps hands on what it gets. -/
theorem resume_nil {a : Action} (ha : a = .Continue ∨ a = .Accept) :
    resume reg ⟨d, self, [], writes⟩ (c, .ok a) = finish c writes a := by
  rcases ha with rfl | rfl
  · rfl
  · rfl

end Activation

end Steps

/-! ### Down the stack -/

section Stack

variable {reg}

theorem handOn_bind {α : Type} (r : Run α) (k : α → Run Outcome) (fs : List Activation) :
    handOn reg fs (r.bind k) = r.bind fun a => handOn reg fs (k a) := by
  induction fs generalizing k with
  | nil => rfl
  | cons f fs ih =>
    rw [handOn, bind_assoc, ih]
    rfl

theorem handOn_leads {r r' : Run Outcome} {tr : Trace} (h : Leads r tr r')
    (fs : List Activation) : Leads (handOn reg fs r) tr (handOn reg fs r') := by
  induction fs generalizing r r' with
  | nil => exact h
  | cons f fs ih => exact ih (h.bind _)

theorem handOn_finish (c : QueryContext) (ws : List Write) (a : Action) (fs : List Activation) :
    handOn reg fs (finish c ws a) =
      (store c ws).bind fun _ => handOn reg fs (done (c, .ok a)) :=
  handOn_bind _ _ fs

/-- Accepting ends every activation of the stack. -/
theorem handOn_accept (c : QueryContext) (fs : List Activation) :
    handOn reg fs (done (c, .ok .Accept)) =
      (store c (fs.flatMap Activation.writes)).bind fun _ => done (c, .ok .Accept) := by
  induction fs with
  | nil => rfl
  | cons f fs ih =>
    have hfinish : handOn reg (f :: fs) (done (c, .ok .Accept)) =
        handOn reg fs (finish c f.writes .Accept) := rfl
    rw [hfinish, handOn_finish, ih, List.flatMap_cons, store_append, bind_assoc]

theorem goOn_cons (f : Activation) (fs : List Activation) (c : QueryContext) :
    goOn reg (f :: fs) c = handOn reg fs (f.proceed reg c) := rfl

/-! ### Closing -/

theorem resume_closes {f : Activation} {o o' : Outcome} {tr : Trace}
    (ho : ∀ c a, o = (c, .ok a) → a = .Continue ∨ a = .Accept)
    (h : Ends (f.resume reg o) tr o') : Closes reg f o tr o' := by
  obtain ⟨c, r⟩ := o
  cases r with
  | error e =>
    obtain ⟨rfl, rfl⟩ := ends_done h
    exact ⟨[], [], [], rfl, ⟨rfl, rfl, rfl⟩, .refl _⟩
  | ok a =>
    cases ho c a rfl with
    | inl ha =>
      subst ha
      exact loop_pass h
    | inr ha =>
      subst ha
      obtain ⟨rfl, hown⟩ := finish_flushed h
      refine ⟨[], tr, [], rfl, ⟨rfl, rfl, rfl⟩, ?_⟩
      simpa [notes] using hown

theorem proceed_settles {f : Activation} {c c' : QueryContext} {tr : Trace} {a : Action}
    (h : Ends (f.proceed reg c) tr (c', .ok a)) : a = .Continue ∨ a = .Accept := by
  have hrefs (step : Step) (hm : step ∈ f.steps) (tag : Tag) (ht : tag ∈ step.exec.refs) :
      tag ∈ (Executable.sequence ⟨f.self, f.steps⟩).refs :=
    List.mem_flatMap.2 ⟨step, hm, ht⟩
  have hsat := @Nests.loop_sat reg _ _ _ _ (Executable.exec reg f.depth) f.depth
    (fun _ ctx => always_nests.exec_sat trivial ctx) always_nests _ trivial f.self f.steps hrefs
    f.writes c
  exact (hsat.ends h fun _ _ => trivial).2

theorem resume_settles {f : Activation} {o : Outcome} {c : QueryContext} {tr : Trace} {a : Action}
    (ho : ∀ c a, o = (c, .ok a) → a = .Continue ∨ a = .Accept)
    (h : Ends (f.resume reg o) tr (c, .ok a)) : a = .Continue ∨ a = .Accept := by
  obtain ⟨c', r⟩ := o
  cases r with
  | error e =>
    cases (ends_done h).2
  | ok a' =>
    cases ho c' a' rfl with
    | inl ha =>
      subst ha
      exact proceed_settles h
    | inr ha =>
      subst ha
      cases (finish_flushed h).1
      exact .inr rfl

theorem handOn_unwinds {r : Run Outcome} {fs : List Activation} {tr : Trace} {o' : Outcome}
    (hr : ∀ tr c a, Ends r tr (c, .ok a) → a = .Continue ∨ a = .Accept)
    (h : Ends (handOn reg fs r) tr o') :
    ∃ tr₁ o tr₂, tr = tr₁ ++ tr₂ ∧ Ends r tr₁ o ∧ Unwinds reg fs o tr₂ o' := by
  induction fs generalizing r with
  | nil => exact ⟨tr, o', [], (List.append_nil tr).symm, h, rfl, rfl⟩
  | cons f fs ih =>
    have hsettled (tr : Trace) (c : QueryContext) (a : Action)
        (he : Ends (r.bind (f.resume reg)) tr (c, .ok a)) : a = .Continue ∨ a = .Accept := by
      obtain ⟨tr₁, tr₂, o, rfl, h₁, h₂⟩ := ends_bind he
      exact resume_settles (fun c a ho => hr tr₁ c a (ho ▸ h₁)) h₂
    obtain ⟨tr', o₁, tr₃, rfl, he, hrest⟩ := ih hsettled h
    obtain ⟨tr₁, tr₂, o, rfl, h₁, h₂⟩ := ends_bind he
    have hcloses := resume_closes (fun c a ho => hr tr₁ c a (ho ▸ h₁)) h₂
    exact ⟨tr₁, o, tr₂ ++ tr₃, List.append_assoc _ _ _, h₁, tr₂, o₁, tr₃, rfl, hcloses, hrest⟩

theorem goOn_unwinds {fs : List Activation} {c : QueryContext} {tr : Trace} {o : Outcome}
    (h : Ends (goOn reg fs c) tr o) : Unwinds reg fs (c, .ok .Continue) tr o := by
  have hgo (tr : Trace) (c' : QueryContext) (a : Action)
      (he : Ends (done (c, .ok .Continue) : Run Outcome) tr (c', .ok a)) :
      a = .Continue ∨ a = .Accept := by
    cases (ends_done he).2
    exact .inl rfl
  obtain ⟨tr₁, o₁, tr₂, rfl, hdone, hun⟩ := handOn_unwinds hgo h
  obtain ⟨rfl, rfl⟩ := ends_done hdone
  exact hun

end Stack

/-! ### Every point of a run -/

section Points

variable {reg} {n : ℕ} {p : Executable} {ctx : QueryContext}

/-- Starting a sequence leaves its steps. -/
theorem exec_leads (d : ℕ) (s : Sequence) (c : QueryContext) :
    Leads ((Executable.sequence s).exec reg (d + 1) c) [⟨.call (.sequence s) c, ()⟩]
      (Activation.proceed reg ⟨d, s.tag, s.steps, []⟩ c) := by
  apply Leads.act
  exact .refl _

theorem At.leads {tr : Trace} {fs : List Activation} {c : QueryContext}
    (h : At reg n p ctx tr fs c) : Leads (p.exec reg n ctx) tr (goOn reg fs c) := by
  induction h with
  | start hn hp =>
    subst hn hp
    exact exec_leads _ _ _
  | skip _ hm ih =>
    rw [goOn_cons, Activation.proceed_skip hm] at ih
    exact ih
  | next _ hm hp ih => exact ih.trans (handOn_leads (Activation.proceed_next hm hp) _)
  | enter _ hm hx hs ih =>
    rw [goOn_cons, Activation.proceed_call hm hx hs] at ih
    exact ih.trans (handOn_leads (exec_leads _ _ _) (_ :: _))
  | jump _ hm hx hs ih =>
    rw [goOn_cons, Activation.proceed_jump hm hx hs] at ih
    exact ih.trans (handOn_leads (exec_leads _ _ _) (_ :: _))

theorem controlled (reg : Registry) (n : ℕ) (p : Executable) (ctx : QueryContext) :
    Controlled reg n p ctx where
  settles _ _ _ h := Executable.exec_settles h
  reached _ _ _ h := h.leads
  accepted tr d self step steps writes fs c b h hm hx hb := by
    refine ⟨_, rfl, ?_⟩
    have hl := h.leads
    rw [goOn_cons, Activation.proceed_accept hm hx hb, handOn_finish, handOn_accept] at hl
    rw [store_append, bind_assoc]
    exact hl
  returned tr d self step steps writes fs c h hm hx := by
    refine ⟨_, rfl, ?_⟩
    have hl := h.leads
    rw [goOn_cons, Activation.proceed_return hm hx, handOn_finish] at hl
    exact hl
  jumped tr d self step steps writes fs c tag q h hm hx hq := by
    refine ⟨_, _, rfl, rfl, ?_, fun o a ha => ?_⟩
    · have hl := h.leads
      rw [goOn_cons, Activation.proceed_jump hm hx hq] at hl
      exact hl
    · rw [handOn, bind_done, Activation.resume_nil ha, handOn_finish]
  exhausted tr d self writes fs c h := by
    have hl := h.leads
    rw [goOn_cons] at hl
    exact (handOn_finish c writes .Continue fs) ▸ hl
  unwound _ _ _ _ _ _ h := goOn_unwinds h

/-- In an acyclic registry calls end in depth, no plugin that is executed asks its caller to return
or to jump, and at each point of a run through nested sequences accepting, returning and jumping
leave this and no more to do. -/
theorem control_flow (h : reg.Acyclic) :
    (∃ N, ∀ tag p, reg.getExec tag = .ok p → ∀ n ≥ N, ∀ ctx tr k,
      ¬ Leads (p.exec reg n ctx) tr (.act .overflow k)) ∧
    ∀ n p ctx, Controlled reg n p ctx :=
  ⟨h.no_overflow, controlled reg⟩

end Points

end Sequence

/-! ### One sequence in another -/

namespace Sequence.Sample

open FerrumDns.Sample (crates context registry)

/-- Its last step is never reached. -/
def inner : Sequence where
  tag := "inner"
  steps := [⟨[], .Builtin .Return⟩, ⟨[], .Builtin .DropResp⟩]

def outer : Sequence where
  tag := "outer"
  steps := [⟨[], .Plugin "inner"⟩, ⟨[], .Builtin .Accept⟩, ⟨[], .Plugin "inner"⟩]

def nested : Registry :=
  registry [("inner", .sequence inner), ("outer", .sequence outer)] rfl

theorem nested_getExec {tag : Tag} {p : Executable} (h : nested.getExec tag = .ok p) :
    tag = "inner" ∧ p = .sequence inner ∨ tag = "outer" ∧ p = .sequence outer := by
  by_cases hinner : tag = "inner"
  · subst hinner
    cases h
    exact .inl ⟨rfl, rfl⟩
  · by_cases houter : tag = "outer"
    · subst houter
      cases h
      exact .inr ⟨rfl, rfl⟩
    · have hnone : nested.execs tag = none := by
        simp [nested, registry, hinner, houter]
      simp [Registry.getExec, hnone] at h

theorem nested_calls {a b : Tag} (h : nested.Calls a b) : a = "outer" ∧ b = "inner" := by
  obtain ⟨p, hp, hb⟩ := h
  rcases nested_getExec hp with ⟨rfl, rfl⟩ | ⟨rfl, rfl⟩
  · simp [Executable.refs, inner, Exec.refs] at hb
  · exact ⟨rfl, by simpa [Executable.refs, outer, Exec.refs] using hb⟩

theorem nested_acyclic : nested.Acyclic where
  finite := by
    refine (Set.toFinite {"inner", "outer"}).subset fun tag h => ?_
    obtain ⟨p, hp⟩ := h
    rcases nested_getExec hp with ⟨rfl, -⟩ | ⟨rfl, -⟩
    · exact .inl rfl
    · exact .inr rfl
  noCycle tag h := by
    obtain ⟨_, hfirst, -⟩ := Relation.TransGen.head'_iff.1 h
    obtain ⟨_, -, hlast⟩ := Relation.TransGen.tail'_iff.1 h
    have heq := (nested_calls hfirst).1.symm.trans (nested_calls hlast).2
    exact absurd heq (by decide)

/-- The inner sequence returns, and the outer one goes on to accept. -/
theorem control_flow_nested : ∃ c', Leads
    (@Executable.exec (crates []) nested 2 (.sequence outer) context)
    [⟨.call (.sequence outer) context, ()⟩,
      ⟨.call (.sequence inner) (context.pushTrace "outer" "exec"), ()⟩]
    (done (c', .ok .Accept)) := by
  have hcontrolled := (@control_flow (crates []) nested nested_acyclic).2 2 (.sequence outer) context
  have hstart := @At.start (crates []) nested 2 (.sequence outer) context 1 outer rfl rfl
  have hreturn : Ends (@perform (crates []) nested (@Executable.exec (crates []) nested 1) "outer"
      context (.Plugin "inner"))
      [⟨.call (.sequence inner) (context.pushTrace "outer" "exec"), ()⟩]
      ([], (context.pushTrace "outer" "exec").pushTrace "inner" "builtin", .ok .Continue) := by
    apply Leads.act
    exact .refl _
  have hpoint := @At.next (crates []) nested 2 (.sequence outer) context _ 1 "outer"
    ⟨[], .Plugin "inner"⟩ _ _ _ _ _ _ _ hstart rfl hreturn
  obtain ⟨c', -, hl⟩ := @Controlled.accepted (crates []) nested 2 (.sequence outer) context
    hcontrolled _ _ _ _ _ _ _ _ _ hpoint rfl rfl (.inl rfl)
  exact ⟨c', hl⟩

end Sequence.Sample

end FerrumDns
