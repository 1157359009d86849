import FerrumDns.Forward.Race
import FerrumDns.Pipeline.Tasks
import FerrumDns.Prog.Ledger
import FerrumDns.Sample
import Mathlib.Tactic.Ring

/-! The counters of the resolver as books over its actions. Each time a cache step is
executed on a request that has a key a hit or a miss is recorded, a hit only after a
look-up; each answered exchange is recorded as usable or not, and each request that is
concluded as answered or dropped before it counts as a query. A task is behind with its
records only between two suspensions, so at every moment of every run the counters differ
by no more than the number of tasks under way there. -/

namespace FerrumDns

open Prog Dnsutil

namespace Metrics

/-- What the execution of a cache step, a look-up, an answered exchange and each counter weigh; other
actions weigh nothing. -/
structure Tally where
  executions : ℤ
  lookups : ℤ
  exchanges : ℤ
  counts : Counter → ℤ

section Weights

variable [Crates]

/-- A cache step on a request that has a key. -/
def keyed : Executable → QueryContext → Bool
  | .cache c, ctx => (Cache.keyOf ctx.query c.cacheEverything).isSome
  | _, _ => false

namespace Tally

def weight (t : Tally) : Eff → ℤ
  | .call p ctx => if keyed p ctx then t.executions else 0
  | .lookup _ _ _ => t.lookups
  | .exchange _ _ => t.exchanges
  | .count k => t.counts k
  | _ => 0

/-- The actions that a plugin or a listener performs between two suspensions pay for each other,
and never owe more than `b`. -/
structure Closed (t : Tally) (b : ℤ) : Prop where
  bound : 0 ≤ b
  asked : t.exchanges ≤ b
  usable : t.exchanges + t.counts .upstreamOk ≤ 0
  unusable : t.exchanges + t.counts .upstreamErr ≤ 0
  executed : t.executions ≤ b
  skipped : t.executions + t.counts .cacheMisses ≤ 0
  looked : t.executions + t.lookups ≤ b
  missed : t.executions + t.lookups + t.counts .cacheMisses ≤ 0
  fresh : t.executions + t.lookups + t.counts .cacheHits ≤ 0
  lazily : t.executions + t.lookups + t.counts .cacheLazyHits ≤ b
  lazy : t.executions + t.lookups + t.counts .cacheLazyHits + t.counts .cacheHits ≤ 0
  responding : t.counts .responses ≤ b
  responded : t.counts .responses + t.counts .queries ≤ 0
  dropping : t.counts .dropped ≤ b
  dropped : t.counts .dropped + t.counts .queries ≤ 0

variable {t : Tally} {b d : ℤ} {α : Type} {post : α → Prop}

/-- A run of the resolver owes no more than `d` here, and pays it back. -/
abbrev Pays (t : Tally) (b d : ℤ) (p : Run α) : Prop :=
  p.Repays t.weight b (fun _ => True) d

theorem pays_done (hd : d ≤ 0) (a : α) : t.Pays b d (done a : Run α) := ⟨hd, trivial⟩

theorem pays_count {k : Counter} {p : Unit → Run α} (hd : d ≤ b)
    (h : t.Pays b (d + t.counts k) (p ())) : t.Pays b d ((Run.count k).bind p) :=
  ⟨hd, fun _ => h⟩

/-! ### Plugins -/

theorem Closed.pays_single (h : t.Closed b) (f : Forward) (ctx : QueryContext) (q : Message)
    (up : Upstream) : t.Pays b 0 (f.single ctx q up) := by
  refine ⟨le_rfl, h.bound, fun r => ?_⟩
  have hask := h.asked
  have hok := h.usable
  have herr := h.unusable
  obtain ⟨i, r⟩ := r
  simp only [weight, zero_add]
  cases r with
  | error e => exact pays_count hask (pays_done herr _)
  | ok msg =>
    dsimp only
    split_ifs
    · exact pays_count hask (pays_done hok _)
    · exact pays_count hask (pays_done herr _)

theorem Closed.pays_race (h : t.Closed b) (f : Forward) (ctx : QueryContext) (q : Message) (n : ℕ)
    (pending : List Upstream) (last : Option Message) :
    t.Pays b 0 (f.race ctx q n pending last) := by
  have hask := h.asked
  have hok := h.usable
  have herr := h.unusable
  induction n generalizing pending last with
  | zero => exact pays_done le_rfl _
  | succ n ih =>
    cases pending with
    | nil => exact pays_done le_rfl _
    | cons up pending =>
      refine ⟨le_rfl, h.bound, fun r => ?_⟩
      obtain ⟨i, r⟩ := r
      simp only [weight, zero_add]
      cases r with
      | error e => exact pays_count hask ((ih _ _).anti herr)
      | ok msg =>
        dsimp only
        split_ifs
        · exact pays_count hask (pays_done hok _)
        · exact pays_count hask ((ih _ _).anti herr)

theorem Closed.pays_forward (h : t.Closed b) (f : Forward) (ctx : QueryContext) :
    t.Pays b 0 (f.exec ctx) := by
  simp only [Forward.exec]
  split_ifs
  · exact h.pays_single f ctx _ _
  · exact h.pays_race f ctx _ _ _ _

/-- An action that weighs nothing changes nothing. -/
theorem pays_free {e : Eff} {p : e.Answer → Run α} (he : t.weight e = 0) (hd : d ≤ b)
    (h : ∀ r, t.Pays b d (p r)) : t.Pays b d (act e p) := by
  refine ⟨hd, fun r => ?_⟩
  rw [he, add_zero]
  exact h r

theorem Closed.pays_serve (h : t.Closed b) (c : Cache) (ctx : QueryContext) (key : Text) (msg : Message)
    (hit : Hit) (now : ℕ) :
    t.Pays b (t.executions + t.lookups) (c.serve ctx key msg hit now) := by
  have hlook := h.looked
  have hlazily := h.lazily
  have hlazy := h.lazy
  unfold Cache.serve
  dsimp only
  split_ifs
  · refine pays_count hlook ?_
    have hits : t.Pays b (t.executions + t.lookups + t.counts .cacheLazyHits)
        ((Run.count .cacheHits).bind fun _ => (done (c.withHit (ctx.pushTrace c.tag "lazy_hit")
          (c.served msg hit now), .ok .Continue) : Run Outcome)) := pays_count hlazily (pays_done hlazy _)
    unfold Cache.kickRefresh
    split_ifs
    · exact hits
    · cases c.refresh with
      | none => exact hits
      | some entry => exact pays_free rfl hlazily fun _ => hits
  · exact pays_count hlook (pays_done h.fresh _)

theorem Closed.pays_cache (h : t.Closed b) (c : Cache) (ctx : QueryContext) :
    t.Pays b (t.weight (.call (.cache c) ctx)) (c.exec ctx) := by
  have hexec := h.executed
  have hlook := h.looked
  have miss {d : ℤ} (hd : d ≤ b) (hm : d + t.counts .cacheMisses ≤ 0) :
      t.Pays b d (c.miss ctx) := pays_count hd (pays_done hm _)
  have hweight : t.weight (.call (.cache c) ctx) =
      if (Cache.keyOf ctx.query c.cacheEverything).isSome then t.executions else 0 := rfl
  rw [hweight]
  unfold Cache.exec
  cases Cache.keyOf ctx.query c.cacheEverything with
  | none => exact pays_done le_rfl _
  | some key =>
    rw [Option.isSome_some, if_pos rfl]
    dsimp only
    split_ifs
    · exact miss hexec h.skipped
    · refine ⟨hexec, fun r => ?_⟩
      simp only [weight]
      cases r with
      | none => exact miss hlook h.missed
      | some hit =>
        dsimp only
        cases decode hit.wire with
        | error e => exact miss hlook h.missed
        | ok msg => exact pays_free rfl hlook fun now => h.pays_serve c ctx key msg hit now

theorem Closed.pays_storeLookup (h : t.Closed b) (c : Cache) (ctx : QueryContext) (l : CacheLookup) :
    t.Pays b 0 (c.storeLookup ctx l) := by
  have hbound := h.bound
  unfold Cache.storeLookup
  split_ifs
  · exact pays_done le_rfl _
  · cases ctx.responseForQuery l.query l.rewriteStart with
    | none => exact pays_done le_rfl _
    | some response =>
      dsimp only
      unfold Cache.store
      cases Cache.admits response with
      | none => exact pays_done le_rfl _
      | some wire =>
        exact pays_free rfl hbound fun now => pays_free rfl hbound fun _ => pays_done le_rfl _

/-! ### Sequences and fallbacks -/

section Calls

variable {reg : Registry} {call : Executable → QueryContext → Run Outcome}

theorem Closed.pays_store (h : t.Closed b) (ctx : QueryContext) (writes : List Write) :
    t.Pays b 0 (Sequence.store ctx writes) := by
  induction writes with
  | nil => exact pays_done le_rfl _
  | cons x writes ih => exact (h.pays_storeLookup x.1 ctx x.2).bind fun _ _ => ih

theorem Closed.pays_finish (h : t.Closed b) (ctx : QueryContext) (writes : List Write) (a : Action) :
    t.Pays b 0 (Sequence.finish ctx writes a) :=
  (h.pays_store ctx writes).bind fun _ _ => pays_done le_rfl _

variable (hcall : ∀ p ctx, t.Pays b 0 (call p ctx))

include hcall

/-- In both modes the branches pay for themselves, and so does the one that is dropped. -/
theorem Closed.pays_fallback (h : t.Closed b) (f : Fallback) (ctx : QueryContext) :
    t.Pays b 0 (f.exec reg call ctx) := by
  have hfree (d : ℕ) : t.weight (.timer d) = 0 := rfl
  have after (primary : Executable) :
      (f.limited (call primary ctx.fork)).Repays t.weight b (fun _ => True) 0 :=
    pays_free rfl h.bound fun _ =>
      (Repays.limit h.bound (hfree _) (hcall primary ctx.fork)).mono fun _ _ => trivial
  unfold Fallback.exec
  cases reg.getExec f.primary with
  | error e => exact pays_done le_rfl _
  | ok primary =>
    cases reg.getExec f.secondary with
    | error e => exact pays_done le_rfl _
    | ok secondary =>
      dsimp only
      split_ifs
      · refine (((after primary).select h.bound (hcall secondary ctx.fork)).hold).bind ?_
        rintro (⟨first, rest⟩ | ⟨o, rest⟩) hraced
        · dsimp only
          cases Fallback.wanted first with
          | some pctx => exact pays_done le_rfl _
          | none => exact hraced.2.hold.bind fun _ _ => pays_done le_rfl _
        · refine hraced.2.hold.bind fun first _ => ?_
          cases Fallback.wanted first with
          | some pctx => exact pays_done le_rfl _
          | none => exact pays_done le_rfl _
      · refine (after primary).hold.bind fun first _ => ?_
        cases Fallback.wanted first with
        | some pctx => exact pays_done le_rfl _
        | none =>
          dsimp only
          exact (hcall secondary _).hold.bind fun _ _ => pays_done le_rfl _

theorem pays_callTag (before ctx : QueryContext) (tag : Tag) :
    t.Pays b 0 (Sequence.callTag reg call before tag ctx) := by
  rw [Sequence.callTag]
  cases reg.getExec tag with
  | error e => exact pays_done le_rfl _
  | ok p => exact (hcall p ctx).bind fun _ _ => pays_done le_rfl _

theorem pays_perform (self : Tag) (ctx : QueryContext) (x : Exec) :
    t.Pays b 0 (Sequence.perform reg call self ctx x) := by
  cases x with
  | Builtin a => exact pays_done le_rfl _
  | Plugin tag =>
    rw [Sequence.perform]
    cases reg.getExec tag with
    | error e => exact pays_done le_rfl _
    | ok p => exact pays_callTag hcall ctx _ tag

theorem Closed.pays_loop (h : t.Closed b) (self : Tag) (steps : List Step) (writes : List Write)
    (ctx : QueryContext) : t.Pays b 0 (Sequence.loop reg call self steps writes ctx) := by
  induction steps generalizing writes ctx with
  | nil => exact h.pays_finish ctx writes _
  | cons step steps ih =>
    rw [Sequence.loop]
    split_ifs
    · refine (pays_perform hcall self ctx step.exec).bind ?_
      rintro ⟨new, ctx', result⟩ -
      cases result with
      | error e => exact pays_done le_rfl _
      | ok a =>
        cases a with
        | Continue => exact ih _ _
        | Accept => exact h.pays_finish _ _ _
        | Return => exact h.pays_finish _ _ _
        | Goto tag =>
          refine (pays_callTag hcall ctx' ctx' tag).bind ?_
          rintro ⟨last, ctx'', result⟩ -
          cases result with
          | error e => exact pays_done le_rfl _
          | ok a => exact h.pays_finish _ _ _
    · exact ih _ _

end Calls

/-! ### Requests -/

variable {reg : Registry}

theorem Closed.pays_exec (h : t.Closed b) (depth : ℕ) (p : Executable) (ctx : QueryContext) :
    t.Pays b 0 (p.exec reg depth ctx) := by
  induction depth generalizing p ctx with
  | zero => exact ⟨h.bound, fun r => r.elim⟩
  | succ depth ih =>
    refine ⟨h.bound, fun _ => ?_⟩
    rw [zero_add]
    cases p with
    | forward f => exact h.pays_forward f ctx
    | cache c => exact h.pays_cache c ctx
    | sequence s => exact h.pays_loop ih s.tag s.steps [] ctx
    | fallback f => exact h.pays_fallback ih f ctx
    | _ => exact pays_done le_rfl _

theorem Closed.pays_conclude (h : t.Closed b) (ctx : QueryContext) :
    t.Pays b 0 (Server.conclude ctx) := by
  have hbound := h.bound
  unfold Server.conclude
  dsimp only
  split_ifs
  · refine pays_count hbound ?_
    rw [zero_add]
    exact pays_count h.responding (pays_done h.responded _)
  · refine pays_count hbound ?_
    rw [zero_add]
    exact pays_count h.dropping (pays_done h.dropped _)

theorem Closed.pays_handle (h : t.Closed b) (depth : ℕ) (entry : Tag) (ctx : QueryContext) :
    t.Pays b 0 (Server.handle reg depth entry ctx) := by
  unfold Server.handle
  split
  · exact pays_done le_rfl _
  · exact h.pays_conclude _
  · dsimp only
    cases reg.getExec entry with
    | error e => exact pays_done le_rfl _
    | ok p => exact ((h.pays_exec depth p _).timeout h.bound).bind fun _ _ => h.pays_conclude _

/-- Requests and refreshes pay for themselves. -/
theorem Closed.repaying (h : t.Closed b) (depth : ℕ) :
    Pool.Repaying (Resolver.machine reg depth) t.weight b where
  bound := h.bound
  spawned := by
    intro w e r w' new hp
    cases e with
    | kick c key bg entry =>
      simp only [Resolver.machine, Resolver.perform] at hp
      split_ifs at hp
      · simp [hp.2]
      · rw [hp.2]
        simp only [List.mem_singleton, forall_eq]
        refine pays_free rfl h.bound fun (alive : Bool) => ?_
        cases alive with
        | false => exact pays_done le_rfl _
        | true => exact (h.pays_handle depth _ bg).bind fun _ _ => pays_done le_rfl _
    | lookup c key q => simp [hp.2.2]
    | now => simp [hp.2.2]
    | timer d => simp [hp.2.2]
    | upgrade => simp [hp.2.2]
    | overflow => exact hp.elim
    | _ => simp [hp.2]
  arrived := by
    intro w y hy
    cases hy with
    | listener entry q peer proto =>
      exact (h.pays_handle depth entry _).bind fun _ _ => pays_done le_rfl _
    | diagnostic entry q peer =>
      exact (h.pays_handle depth _ _).bind fun _ _ => pays_done le_rfl _

end Tally

/-! ### Counters and traces -/

/-- The event is the execution of a cache step on a request that has a key. -/
def executes : Event Eff Eff.Answer → Bool
  | ⟨.call p ctx, _⟩ => keyed p ctx
  | _ => false

/-- The event is a look-up in a cache. -/
def looks : Event Eff Eff.Answer → Bool
  | ⟨.lookup _ _ _, _⟩ => true
  | _ => false

/-- The event is an answered exchange. -/
def asks : Event Eff Eff.Answer → Bool
  | ⟨.exchange _ _, _⟩ => true
  | _ => false

/-- How often a trace counts `k` up. -/
def counted (tr : Trace) (k : Counter) : ℕ := tr.countP (Forward.counts k)

/-- What a tally makes of a trace. -/
theorem Tally.balance_eq (t : Tally) (tr : Trace) : Pool.balance t.weight tr =
    t.executions * tr.countP executes + t.lookups * tr.countP looks + t.exchanges * tr.countP asks +
      (t.counts .cacheHits * counted tr .cacheHits +
        t.counts .cacheMisses * counted tr .cacheMisses +
        t.counts .cacheLazyHits * counted tr .cacheLazyHits +
        t.counts .upstreamOk * counted tr .upstreamOk +
        t.counts .upstreamErr * counted tr .upstreamErr +
        t.counts .responses * counted tr .responses +
        t.counts .dropped * counted tr .dropped + t.counts .queries * counted tr .queries) := by
  unfold counted
  induction tr with
  | nil => simp
  | cons ev tr ih =>
    rw [← List.singleton_append, Pool.balance_append, ih, Pool.balance_singleton]
    obtain ⟨e, r⟩ := ev
    simp only [List.singleton_append, List.countP_cons]
    cases e with
    | count k =>
      cases k <;> simp [Tally.weight, Forward.counts, executes, looks, asks] <;> ring
    | call p ctx =>
      cases hk : keyed p ctx with
      | true => simp [Tally.weight, Forward.counts, executes, looks, asks, hk]; ring
      | false => simp [Tally.weight, Forward.counts, executes, looks, asks, hk]
    | lookup c key q => simp [Tally.weight, Forward.counts, executes, looks, asks]; ring
    | exchange ups q => simp [Tally.weight, Forward.counts, executes, looks, asks]; ring
    | _ => simp [Tally.weight, Forward.counts, executes, looks, asks]

section Runs

variable {reg : Registry} {depth : ℕ}

theorem counters_perform {w w' : World} {e : Eff} {r : e.Answer} {new : List Task}
    (h : Resolver.perform reg depth w e r w' new) (k : Counter) :
    w'.counters k = w.counters k + if Forward.counts k ⟨e, r⟩ then 1 else 0 := by
  cases e with
  | count k' =>
    rw [h.1]
    by_cases hk : k' = k
    · subst hk
      simp [World.bump, Forward.counts]
    · have hne : k ≠ k' := fun h => hk h.symm
      simp [World.bump, Forward.counts, hk, hne]
  | kick c key bg entry =>
    simp only [Resolver.perform] at h
    split_ifs at h <;> simp [h.1, Forward.counts, World.claim, World.setCache]
  | lookup c key q => simp [h.2.1, Forward.counts, World.setCache]
  | now => simp [h.2.1, Forward.counts]
  | timer d => simp [h.2.1, Forward.counts]
  | upgrade => simp [h.2.1, Forward.counts]
  | overflow => exact h.elim
  | _ => simp [h.1, Forward.counts, World.setCache]

/-- Counters move by being counted, and not otherwise. -/
theorem counters_run {p q : Resolver.State} {tr : Trace} (h : Resolver.Runs reg depth p tr q)
    (k : Counter) : q.world.counters k = p.world.counters k + counted tr k := by
  induction h with
  | refl p => simp [counted]
  | @step p q r ev tr hs _ ih =>
    rw [ih, counted, counted, List.countP_append, ← Nat.add_assoc]
    congr 1
    cases hs with
    | act hp => simpa [List.countP_cons] using counters_perform hp k
    | @leave w l l' t p =>
      cases t <;> simp [Resolver.machine, Resolver.release, World.free, World.setCache]
    | drift hd => cases hd <;> simp [World.setCache]
    | _ => simp

end Runs

end Weights

/-! ### The books of the resolver -/

def answered : Tally where
  executions := 0
  lookups := 0
  exchanges := 0
  counts
    | .responses | .dropped => 1
    | .queries => -1
    | _ => 0

def exchanged : Tally where
  executions := 0
  lookups := 0
  exchanges := 1
  counts
    | .upstreamOk | .upstreamErr => -1
    | _ => 0

def noted : Tally where
  executions := 1
  lookups := 0
  exchanges := 0
  counts
    | .cacheHits | .cacheMisses => -1
    | _ => 0

def lazily : Tally where
  executions := 0
  lookups := 0
  exchanges := 0
  counts
    | .cacheLazyHits => 1
    | .cacheHits => -1
    | _ => 0

/-- Each hit is one of a look-up. -/
def found : Tally where
  executions := 0
  lookups := -1
  exchanges := 0
  counts
    | .cacheHits => 1
    | _ => 0

/-- The same books with the sides changed. -/
def Tally.reversed (t : Tally) : Tally where
  executions := -t.executions
  lookups := -t.lookups
  exchanges := -t.exchanges
  counts k := -t.counts k

theorem answered_closed : answered.Closed 1 := by constructor <;> decide

theorem answered_reversed : answered.reversed.Closed 0 := by constructor <;> decide

theorem exchanged_closed : exchanged.Closed 1 := by constructor <;> decide

theorem exchanged_reversed : exchanged.reversed.Closed 0 := by constructor <;> decide

theorem noted_closed : noted.Closed 1 := by constructor <;> decide

theorem noted_reversed : noted.reversed.Closed 0 := by constructor <;> decide

theorem lazily_closed : lazily.Closed 1 := by constructor <;> decide

theorem found_closed : found.Closed 0 := by constructor <;> decide

/-- What the counters `m` show after so many executions of cache steps, look-ups and answered
exchanges, while `busy` tasks stand between two suspensions. -/
structure Accounted (m : Counter → ℕ) (executions lookups exchanges busy : ℕ) : Prop where
  concluded : m .queries ≤ m .responses + m .dropped
  counted : m .responses + m .dropped ≤ m .queries + busy
  answered : m .upstreamOk + m .upstreamErr ≤ exchanges
  recorded : exchanges ≤ m .upstreamOk + m .upstreamErr + busy
  found : m .cacheHits ≤ lookups
  noted : m .cacheHits + m .cacheMisses ≤ executions
  executed : executions ≤ m .cacheHits + m .cacheMisses + busy
  lazily : m .cacheLazyHits ≤ m .cacheHits + busy

section Resolver

variable [Crates] {reg : Registry} {depth : ℕ} {p q : Resolver.State} {tr : Trace}

/-- Wherever tasks are dropped, no record is made before its cause. -/
theorem never_ahead (h : Resolver.Runs reg depth p tr q) (hp : p.tasks = []) :
    counted tr .queries ≤ counted tr .responses + counted tr .dropped ∧
      counted tr .upstreamOk + counted tr .upstreamErr ≤ tr.countP asks ∧
      counted tr .cacheHits ≤ tr.countP looks ∧
      counted tr .cacheHits + counted tr .cacheMisses ≤ tr.countP executes := by
  have owed {t : Tally} (ht : t.Closed 0) := h.balance (ht.repaying depth) hp
  have hans := owed answered_reversed
  have hex := owed exchanged_reversed
  have hfound := owed found_closed
  have hnoted := owed noted_reversed
  rw [Tally.balance_eq] at hans hex hfound hnoted
  simp only [answered, exchanged, Metrics.found, noted, Tally.reversed] at hans hex hfound hnoted
  exact ⟨by omega, by omega, by omega, by omega⟩

/-- The counters of a resolver that started from zero, at any moment of any run in which tasks
are dropped only where they suspend or end. -/
theorem accounted (h : Pool.Orderly (Resolver.machine reg depth) p tr q) (hp : p.tasks = [])
    (hzero : ∀ k, p.world.counters k = 0) :
    Accounted q.world.counters (tr.countP executes) (tr.countP looks) (tr.countP asks) q.busy := by
  have hm (k : Counter) : q.world.counters k = Metrics.counted tr k := by
    rw [counters_run h.run, hzero, zero_add]
  have owed {t : Tally} (ht : t.Closed 1) := h.balance (ht.repaying depth) hp
  obtain ⟨hconcluded, hanswered, hfound, hnoted⟩ := never_ahead h.run hp
  have hans := owed answered_closed
  have hex := owed exchanged_closed
  have hexec := owed noted_closed
  have hlazy := owed lazily_closed
  rw [Tally.balance_eq] at hans hex hexec hlazy
  simp only [answered, exchanged, noted, Metrics.lazily] at hans hex hexec hlazy
  constructor <;> simp only [hm] <;> omega

end Resolver

/-- One request, played to its end from an empty cache. -/
theorem accounted_request : ∃ tr w, Sample.played Sample.answer Sample.world = some (tr, (), w, []) ∧
    Accounted w.counters (tr.countP (@executes Sample.codec)) (tr.countP looks) (tr.countP asks)
      0 := by
  let := Sample.codec
  obtain ⟨tr, w, hplayed, -, -⟩ := Sample.first_stores
  have harrive : Pool.Orderly (Resolver.machine Sample.resolver 4) ⟨Sample.world, []⟩ []
      ⟨Sample.world, [] ++ (none, Sample.request) :: []⟩ :=
    Pool.Orderly.refl.step (.arrive (Resolver.Arrives.listener "main" Sample.query _ .Udp)) (by simp)
  have hrun := Pool.play_orderly
    (Resolver.machine_allows Sample.resolver 4 (Sample.answering Sample.answer)) hplayed harrive
  exact ⟨tr, w, hplayed, accounted hrun rfl fun _ => rfl⟩

end Metrics

end FerrumDns
