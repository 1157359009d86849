import FerrumDns.Prog.Rename
import FerrumDns.Server

/-! What a request carries along without anything depending on it. A veil covers the transport
and the client's address of a context, and its trace if it hides that. Where no plugin looks
behind the veil, handling a request and covering what comes of it is handling the covered
request: what is behind the veil makes no difference to the rest. -/

namespace FerrumDns

open Prog Dnsutil

/-- What transports and addresses are covered with, and whether traces stay. -/
structure Veil where
  protocol : ClientProto → ClientProto
  clientAddr : Option IpAddr → Option IpAddr
  traced : Bool

namespace Veil

def context (v : Veil) (ctx : QueryContext) : QueryContext :=
  { ctx with
    protocol := v.protocol ctx.protocol
    clientAddr := v.clientAddr ctx.clientAddr
    trace := if v.traced then ctx.trace else []
    traceEnabled := v.traced && ctx.traceEnabled }

def eff (v : Veil) : Eff → Eff
  | .call p ctx => .call p (v.context ctx)
  | .kick c key bg entry => .kick c key (v.context bg) entry
  | e => e

def answer (v : Veil) : (e : Eff) → e.Answer ≃ (v.eff e).Answer
  | .call _ _ | .insert _ _ _ _ | .kick _ _ _ _ | .count _ => .refl Unit
  | .lookup _ _ _ => .refl _
  | .now => .refl _
  | .timer _ => .refl _
  | .exchange _ _ => .refl _
  | .upgrade => .refl _
  | .overflow => .refl _

def blanking (v : Veil) : Renaming QueryContext Eff Eff.Answer QueryContext Eff Eff.Answer where
  state := v.context
  eff := v.eff
  answer := v.answer

def outcome {α : Type} (v : Veil) (o : QueryContext × α) : QueryContext × α := (v.context o.1, o.2)

/-- The program behind the veil. -/
abbrev program {α : Type} (v : Veil) (f : α → α) (p : Run α) : Run α := p.rename v.blanking f

/-- Plugins that do not look behind the veil. -/
def Blind [Crates] (v : Veil) : Executable → Prop
  | .ecs e => ∀ ctx, e.pick (v.context ctx) = e.pick ctx
  | .sequence s =>
    ∀ step ∈ s.steps, ∀ m ∈ step.matchers, ∀ ctx, m.matches (v.context ctx) = m.matches ctx
  | _ => True

variable {v : Veil}

/-- Only the client's address is looked at. -/
theorem blind_of_kept [Crates] (h : v.clientAddr = id) (p : Executable) : v.Blind p := by
  have haddr (ctx : QueryContext) : (v.context ctx).clientAddr = ctx.clientAddr := by
    rw [context, h]
    rfl
  have hmatch (m : Matcher) (ctx : QueryContext) : m.matches (v.context ctx) = m.matches ctx := by
    induction m with
    | ClientIp set => simp only [Matcher.matches, haddr]
    | Neg inner ih => simp only [Matcher.matches, ih]
    | _ => rfl
  cases p with
  | ecs e =>
    intro ctx
    have htype : (v.context ctx).qtype = ctx.qtype := rfl
    simp only [Ecs.pick, haddr, htype]
  | sequence s => exact fun _ _ m _ ctx => hmatch m ctx
  | _ => trivial

/-! ### Contexts -/

@[simp] theorem context_pushTrace (ctx : QueryContext) (plugin event : String) :
    v.context (ctx.pushTrace plugin event) = (v.context ctx).pushTrace plugin event := by
  have henabled : (v.context ctx).traceEnabled = (v.traced && ctx.traceEnabled) := rfl
  simp only [QueryContext.pushTrace, henabled, Bool.and_eq_true]
  cases h : v.traced with
  | true => by_cases hctx : ctx.traceEnabled <;> simp [context, h, hctx]
  | false => by_cases hctx : ctx.traceEnabled <;> simp [context, h, hctx]

/-- A fresh trace is one behind the veil too. -/
theorem trace_nil : (if v.traced then [] else []) = ([] : List TraceEvent) := ite_self _

theorem context_new (q : Message) (addr : Option IpAddr) (proto : ClientProto) :
    v.context (.new q addr proto) = .new q (v.clientAddr addr) (v.protocol proto) := by
  simp only [context, QueryContext.new, trace_nil, Bool.and_false]

theorem context_fork (ctx : QueryContext) : v.context ctx.fork = (v.context ctx).fork := by
  simp only [context, QueryContext.fork, trace_nil]

theorem context_absorb (ctx other : QueryContext) :
    v.context (ctx.absorb other) = (v.context ctx).absorb (v.context other) := by
  cases h : v.traced with
  | true => simp [context, QueryContext.absorb, h]
  | false => simp [context, QueryContext.absorb, h]

theorem context_rewriteName (ctx : QueryContext) (name : Name) :
    v.context (ctx.rewriteName name) = (v.context ctx).rewriteName name := by
  have hquery : (v.context ctx).query = ctx.query := rfl
  simp only [QueryContext.rewriteName, hquery]
  split
  · rfl
  · split_ifs <;> rfl

theorem context_beginPipeline (ctx : QueryContext) (entry : Tag) :
    v.context (ctx.beginPipeline entry) = (v.context ctx).beginPipeline entry := by
  have hstate : (v.context ctx).entryState = ctx.entryState := rfl
  simp only [QueryContext.beginPipeline, hstate]
  split_ifs <;> rfl

theorem context_cloneForLazy (ctx : QueryContext) :
    v.context ctx.cloneForLazy = (v.context ctx).cloneForLazy := by
  have hstate : (v.context ctx).entryState = ctx.entryState := rfl
  simp only [QueryContext.cloneForLazy, hstate]
  cases ctx.entryState <;> simp [context, QueryContext.new]

theorem context_finalized (ctx : QueryContext) :
    v.context (Server.finalized ctx) = Server.finalized (v.context ctx) := by
  have hstrip : (v.context ctx).finalizeResponse.stripEcsOnReply =
      ctx.finalizeResponse.stripEcsOnReply := rfl
  simp only [Server.finalized, hstrip]
  split_ifs <;> rfl

/-- Sequencing, given what becomes of both parts. -/
theorem program_bind {α β : Type} {f : α → α} {g : β → β} {p p' : Run α} {k k' : α → Run β}
    (hp : v.program f p = p') (hk : ∀ a, v.program g (k a) = k' (f a)) :
    v.program g (p.bind k) = p'.bind k' :=
  hp ▸ rename_bind v.blanking p hk

theorem count_bind {α : Type} {f : α → α} (k : Counter) {p p' : Unit → Run α}
    (h : v.program f (p ()) = p' ()) : v.program f ((Run.count k).bind p) = (Run.count k).bind p' :=
  program_bind (f := id) rfl fun _ => h

variable [Crates]

/-! ### Leaves -/

omit [Crates] in
theorem outcome_apply (b : Builtin) (ctx : QueryContext) :
    v.outcome (b.apply ctx) = b.apply (v.context ctx) := by
  cases b with
  | Ttl low high =>
    simp only [Builtin.apply]
    split_ifs <;> rfl
  | _ => rfl

theorem context_redirect (r : Redirect) (ctx : QueryContext) :
    v.context (r.exec ctx) = r.exec (v.context ctx) := by
  have htarget : r.target (v.context ctx) = r.target ctx := rfl
  simp only [Redirect.exec, htarget]
  cases r.target ctx with
  | none => rfl
  | some name => rw [context_pushTrace, context_rewriteName]

theorem context_ecs {e : Ecs} (hpick : ∀ ctx, e.pick (v.context ctx) = e.pick ctx)
    (ctx : QueryContext) : v.context (e.exec ctx) = e.exec (v.context ctx) := by
  have hquery : (v.context ctx).query = ctx.query := rfl
  simp only [Ecs.exec, hquery, hpick]
  split_ifs
  · exact context_pushTrace _ _ _
  · cases e.pick ctx with
    | none => exact context_pushTrace _ _ _
    | some p => exact context_pushTrace _ _ _
  · cases e.pick ctx with
    | none => exact context_pushTrace _ _ _
    | some p => exact context_pushTrace _ _ _

theorem context_hosts (h : Hosts) (ctx : QueryContext) :
    v.context (h.exec ctx) = h.exec (v.context ctx) := by
  have hname : (v.context ctx).qnameStr = ctx.qnameStr := rfl
  have htype : (v.context ctx).qtype = ctx.qtype := rfl
  have responded (event : String) (records : List Record) :
      v.context ((ctx.pushTrace h.tag event).setResponse (.hosts h.tag)
        (buildHostsResponse (ctx.pushTrace h.tag event).query records)) =
      ((v.context ctx).pushTrace h.tag event).setResponse (.hosts h.tag)
        (buildHostsResponse ((v.context ctx).pushTrace h.tag event).query records) := by
    rw [← context_pushTrace]
    rfl
  simp only [Hosts.exec, hname, htype]
  split_ifs
  · exact responded _ _
  · exact responded _ _
  · rfl

/-! ### Forwarding -/

section Forward

omit [Crates]

variable (f : Forward)

theorem context_took (ctx : QueryContext) (msg : Message) :
    v.context (f.took ctx msg) = f.took (v.context ctx) msg := rfl

/-- What a forward step ends in when it takes a response. -/
def ending (ctx : QueryContext) (event : String) (msg : Message) : Run Outcome :=
  done (f.took (ctx.pushTrace f.tag event) msg, .ok .Continue)

theorem program_ending (k : Counter) (ctx : QueryContext) (event : String) (msg : Message) :
    v.program v.outcome ((Run.count k).bind fun _ => ending f ctx event msg) =
      (Run.count k).bind fun _ => ending f (v.context ctx) event msg := by
  refine count_bind k (congrArg done (Prod.ext ?_ rfl))
  rw [← context_pushTrace]
  exact context_took f _ _

theorem program_single (ctx : QueryContext) (q : Message) (up : Upstream) :
    v.program v.outcome (f.single ctx q up) = f.single (v.context ctx) q up := by
  refine congrArg (await (v.context ctx)) (congrArg (act (Eff.exchange [up] q)) (funext fun r => ?_))
  obtain ⟨i, r⟩ := r
  cases r with
  | error e => exact count_bind _ (congrArg done (Prod.ext (context_pushTrace _ _ _) rfl))
  | ok msg =>
    change v.program v.outcome (ite _ _ _) = ite _ _ _
    split_ifs
    · exact program_ending f _ _ _ _
    · exact program_ending f _ _ _ _

theorem program_race (ctx : QueryContext) (q : Message) (n : ℕ) (pending : List Upstream)
    (last : Option Message) :
    v.program v.outcome (f.race ctx q n pending last) = f.race (v.context ctx) q n pending last := by
  have stop (last : Option Message) :
      v.context (((last.map (f.took ctx)).getD ctx).pushTrace f.tag "err") =
        ((last.map (f.took (v.context ctx))).getD (v.context ctx)).pushTrace f.tag "err" := by
    rw [context_pushTrace]
    cases last <;> rfl
  induction n generalizing pending last with
  | zero => exact congrArg done (Prod.ext (stop last) rfl)
  | succ n ih =>
    cases pending with
    | nil => exact congrArg done (Prod.ext (stop last) rfl)
    | cons up pending =>
      refine congrArg (await (v.context ctx))
        (congrArg (act (Eff.exchange (up :: pending) q)) (funext fun r => ?_))
      obtain ⟨i, r⟩ := r
      cases r with
      | error e => exact count_bind _ (ih _ _)
      | ok msg =>
        change v.program v.outcome (ite _ _ _) = ite _ _ _
        split_ifs
        · exact program_ending f _ _ _ _
        · exact count_bind _ (ih _ _)

theorem program_forward (ctx : QueryContext) :
    v.program v.outcome (f.exec ctx) = f.exec (v.context ctx) := by
  simp only [Forward.exec]
  split_ifs
  · exact program_single f ctx _ _
  · exact program_race f ctx _ _ _ _

end Forward

/-! ### Caches -/

section Cache

variable (c : Cache)

theorem program_store (lookup : CacheLookup) (source : Option Source) (resp : Message) :
    v.program id (c.store lookup source resp) = c.store lookup source resp := by
  simp only [Cache.store]
  cases Cache.admits resp <;> rfl

theorem program_storeLookup (ctx : QueryContext) (lookup : CacheLookup) :
    v.program id (c.storeLookup ctx lookup) = c.storeLookup (v.context ctx) lookup := by
  have hserved : (v.context ctx).servedFromCache = ctx.servedFromCache := rfl
  have hresponse : (v.context ctx).response = ctx.response := rfl
  have hbound : (v.context ctx).responseForQuery lookup.query lookup.rewriteStart =
      ctx.responseForQuery lookup.query lookup.rewriteStart := rfl
  simp only [Cache.storeLookup, hserved, hresponse, hbound]
  split_ifs
  · rfl
  · cases ctx.responseForQuery lookup.query lookup.rewriteStart with
    | none => rfl
    | some response => exact program_store c _ _ _

omit [Crates] in
theorem program_kickRefresh (ctx : QueryContext) (key : Text) :
    v.program id (c.kickRefresh ctx key) = c.kickRefresh (v.context ctx) key := by
  have hskip : (v.context ctx).skipCache = ctx.skipCache := rfl
  simp only [Cache.kickRefresh, hskip]
  split_ifs
  · rfl
  · cases c.refresh with
    | none => rfl
    | some entry =>
      rw [← context_cloneForLazy]
      rfl

omit [Crates] in
theorem context_withHit (ctx : QueryContext) (event : String) (msg : Message) :
    v.context (c.withHit (ctx.pushTrace c.tag event) msg) =
      c.withHit ((v.context ctx).pushTrace c.tag event) msg := by
  rw [← context_pushTrace]
  rfl

omit [Crates] in
theorem program_serve (ctx : QueryContext) (key : Text) (msg : Message) (hit : Hit) (now : ℕ) :
    v.program v.outcome (c.serve ctx key msg hit now) = c.serve (v.context ctx) key msg hit now := by
  simp only [Cache.serve]
  split_ifs
  · have hkick := program_kickRefresh (v := v) c (ctx.pushTrace c.tag "lazy_hit") key
    rw [context_pushTrace] at hkick
    refine count_bind _ (program_bind hkick fun _ => ?_)
    exact count_bind _ (congrArg done (Prod.ext (context_withHit c _ _ _) rfl))
  · exact count_bind _ (congrArg done (Prod.ext (context_withHit c _ _ _) rfl))

omit [Crates] in
theorem program_miss (ctx : QueryContext) :
    v.program v.outcome (c.miss ctx) = c.miss (v.context ctx) :=
  count_bind _ (congrArg done (Prod.ext (context_pushTrace _ _ _) rfl))

theorem program_cache (ctx : QueryContext) :
    v.program v.outcome (c.exec ctx) = c.exec (v.context ctx) := by
  have hquery : (v.context ctx).query = ctx.query := rfl
  have hskip : (v.context ctx).skipCache = ctx.skipCache := rfl
  simp only [Cache.exec, hquery, hskip]
  cases Cache.keyOf ctx.query c.cacheEverything with
  | none => rfl
  | some key =>
    dsimp only
    split_ifs
    · exact program_miss c ctx
    · refine congrArg (act (Eff.lookup c key ctx.query)) (funext fun hit => ?_)
      change Option Hit at hit
      cases hit with
      | none => exact program_miss c ctx
      | some hit =>
        have hanswer : (v.blanking.answer (Eff.lookup c key ctx.query)).symm (some hit) = some hit :=
          rfl
        simp only [hanswer]
        cases decode hit.wire with
        | error e => exact program_miss c ctx
        | ok msg =>
          exact congrArg (act Eff.now)
            (funext fun (now : ℕ) => program_serve c ctx key msg hit now)

end Cache

/-! ### Sequences -/

section Calls

variable (reg : Registry) {call : Executable → QueryContext → Run Outcome}

theorem program_storeAll (ctx : QueryContext) (writes : List Write) :
    v.program id (Sequence.store ctx writes) = Sequence.store (v.context ctx) writes := by
  induction writes with
  | nil => rfl
  | cons w writes ih => exact program_bind (program_storeLookup w.1 ctx w.2) fun _ => ih

theorem program_finish (ctx : QueryContext) (writes : List Write) (a : Action) :
    v.program v.outcome (Sequence.finish ctx writes a) =
      Sequence.finish (v.context ctx) writes a :=
  program_bind (program_storeAll ctx writes) fun _ => rfl

/-- The noted writes with what a step ended in. -/
def noted (v : Veil) (o : List Write × Outcome) : List Write × Outcome := (o.1, v.outcome o.2)

theorem noteCache_context (tag : Tag) (ctx : QueryContext) :
    Sequence.noteCache reg tag (v.context ctx) = Sequence.noteCache reg tag ctx := rfl

variable (hreg : ∀ tag p, reg.getExec tag = .ok p → v.Blind p)
  (hcall : ∀ p, v.Blind p → ∀ ctx, v.program v.outcome (call p ctx) = call p (v.context ctx))

include hcall

section Steps

include hreg

theorem program_callTag (before : QueryContext) (tag : Tag) (ctx : QueryContext) :
    v.program v.noted (Sequence.callTag reg call before tag ctx) =
      Sequence.callTag reg call (v.context before) tag (v.context ctx) := by
  simp only [Sequence.callTag]
  cases hp : reg.getExec tag with
  | error e => rfl
  | ok p =>
    exact program_bind (hcall p (hreg tag p hp) ctx) fun _ =>
      congrArg done (Prod.ext (noteCache_context reg tag before).symm rfl)

theorem program_perform (self : Tag) (ctx : QueryContext) (x : Exec) :
    v.program v.noted (Sequence.perform reg call self ctx x) =
      Sequence.perform reg call self (v.context ctx) x := by
  cases x with
  | Builtin b =>
    refine congrArg done (Prod.ext rfl ?_)
    rw [← context_pushTrace]
    exact outcome_apply b _
  | Plugin tag =>
    simp only [Sequence.perform]
    cases reg.getExec tag with
    | error e => rfl
    | ok p =>
      have htag := program_callTag reg hreg hcall ctx tag (ctx.pushTrace self "exec")
      rwa [context_pushTrace] at htag

theorem program_loop (self : Tag) (steps : List Step)
    (hsteps : ∀ step ∈ steps, ∀ m ∈ step.matchers, ∀ ctx,
      m.matches (v.context ctx) = m.matches ctx) (writes : List Write) (ctx : QueryContext) :
    v.program v.outcome (Sequence.loop reg call self steps writes ctx) =
      Sequence.loop reg call self steps writes (v.context ctx) := by
  induction steps generalizing writes ctx with
  | nil => exact program_finish ctx writes .Continue
  | cons step steps ih =>
    obtain ⟨hstep, hsteps⟩ := List.forall_mem_cons.1 hsteps
    have hall : step.matchers.all (·.matches (v.context ctx)) =
        step.matchers.all (·.matches ctx) := by
      rw [Bool.eq_iff_iff, List.all_eq_true, List.all_eq_true]
      exact forall₂_congr fun m hm => by rw [hstep m hm ctx]
    simp only [Sequence.loop, hall]
    split_ifs
    · refine program_bind (program_perform reg hreg hcall self ctx step.exec)
        fun (new, ctx, result) => ?_
      match result with
      | .error e => rfl
      | .ok .Continue => exact ih hsteps _ _
      | .ok .Accept => exact program_finish _ _ _
      | .ok .Return => exact program_finish _ _ _
      | .ok (.Goto tag) =>
        refine program_bind (program_callTag reg hreg hcall ctx tag ctx)
          fun (last, ctx, result) => ?_
        cases result with
        | error e => rfl
        | ok a => exact program_finish _ _ _
    · exact ih hsteps _ _

end Steps

/-! ### Fallbacks -/

variable (f : Fallback)

omit [Crates] hcall in
theorem wanted_rename (first : Except QueryContext Outcome) :
    Fallback.wanted (renameTimed v.blanking v.outcome first) =
      (Fallback.wanted first).map v.context := by
  match first with
  | .error s => rfl
  | .ok (p, .error e) => rfl
  | .ok (p, .ok a) =>
    have hans : (v.context p).hasWantedAns = p.hasWantedAns := rfl
    simp only [renameTimed, outcome, Fallback.wanted, hans]
    split_ifs <;> rfl

omit [Crates] hcall in
theorem outcome_usePrimary (ctx pctx : QueryContext) :
    v.outcome (f.usePrimary ctx pctx) = f.usePrimary (v.context ctx) (v.context pctx) := by
  refine Prod.ext ?_ rfl
  simp only [Fallback.usePrimary, outcome, context_absorb, context_pushTrace]

omit [Crates] hcall in
theorem outcome_useSecondary (ctx : QueryContext) (o : Outcome) :
    v.outcome (f.useSecondary ctx o) = f.useSecondary (v.context ctx) (v.outcome o) := by
  refine Prod.ext ?_ rfl
  simp only [Fallback.useSecondary, outcome, context_absorb, context_pushTrace]

theorem program_forked {p : Executable} (hp : v.Blind p) (ctx : QueryContext) :
    v.program v.outcome (call p ctx.fork) = call p (v.context ctx).fork := by
  rw [hcall p hp, context_fork]

theorem program_primary {p : Executable} (hp : v.Blind p) (ctx : QueryContext) :
    v.program (renameTimed v.blanking v.outcome) (f.limited (call p ctx.fork)) =
      f.limited (call p (v.context ctx).fork) := by
  have limited (d : ℕ) (q : Run Outcome) : v.program (renameTimed v.blanking v.outcome)
      (q.limit (.timer d) fun (t : ℕ) => d ≤ t) =
        (v.program v.outcome q).limit (.timer d) fun (t : ℕ) => d ≤ t := by
    refine rename_limit v.blanking ?_ _ _
    exact fun _ => rfl
  rw [← program_forked hcall hp]
  exact congrArg (act Eff.now) (funext fun (start : ℕ) => limited _ _)

theorem program_reserve (ctx : QueryContext) {p s : Executable} (hp : v.Blind p) (hs : v.Blind s) :
    v.program v.outcome (Fallback.reserve call f ctx p s) =
      Fallback.reserve call f (v.context ctx) p s := by
  refine program_bind (f := renameTimed v.blanking v.outcome) ?_ fun first => ?_
  · rw [program, rename_hold]
    exact congrArg (hold (v.context ctx)) (program_primary hcall f hp ctx)
  · rw [wanted_rename]
    cases Fallback.wanted first with
    | some pctx => exact congrArg done (outcome_usePrimary f ctx pctx)
    | none =>
      refine program_bind (f := v.outcome) ?_ fun o => congrArg done (outcome_useSecondary f ctx o)
      rw [program, rename_hold]
      refine congrArg₂ hold (context_pushTrace _ _ _) ?_
      rw [← context_pushTrace]
      exact program_forked hcall hs _

theorem program_standby (ctx : QueryContext) {p s : Executable} (hp : v.Blind p) (hs : v.Blind s) :
    v.program v.outcome (Fallback.standby call f ctx p s) =
      Fallback.standby call f (v.context ctx) p s := by
  refine program_bind (f := renameRaced v.blanking (renameTimed v.blanking v.outcome) v.outcome)
    ?_ fun winner => ?_
  · rw [program, rename_hold, rename_select]
    exact congrArg (hold (v.context ctx))
      (congrArg₂ select (program_primary hcall f hp ctx) (program_forked hcall hs ctx))
  · match winner with
    | .inl (first, rest) =>
      simp only [renameRaced, wanted_rename]
      cases Fallback.wanted first with
      | some pctx => exact congrArg done (outcome_usePrimary f ctx pctx)
      | none =>
        exact program_bind (rename_hold v.blanking v.outcome ctx rest) fun o =>
          congrArg done (outcome_useSecondary f ctx o)
    | .inr (o, rest) =>
      simp only [renameRaced]
      refine program_bind (rename_hold v.blanking (renameTimed v.blanking v.outcome) ctx rest)
        fun first => ?_
      rw [wanted_rename]
      cases Fallback.wanted first with
      | some pctx => exact congrArg done (outcome_usePrimary f ctx pctx)
      | none => exact congrArg done (outcome_useSecondary f ctx o)

include hreg in
theorem program_fallback (ctx : QueryContext) :
    v.program v.outcome (f.exec reg call ctx) = f.exec reg call (v.context ctx) := by
  simp only [Fallback.exec]
  cases hp : reg.getExec f.primary with
  | error e => rfl
  | ok p =>
    cases hs : reg.getExec f.secondary with
    | error e => rfl
    | ok s =>
      dsimp only
      split_ifs
      · exact program_standby hcall f ctx (hreg _ p hp) (hreg _ s hs)
      · exact program_reserve hcall f ctx (hreg _ p hp) (hreg _ s hs)

end Calls

/-! ### Whole pipelines -/

section Pipelines

variable {reg : Registry} (hreg : ∀ tag p, reg.getExec tag = .ok p → v.Blind p)

include hreg

/-- Executing a plugin behind the veil is executing it, behind the veil. -/
theorem program_exec (depth : ℕ) (p : Executable) (hp : v.Blind p) (ctx : QueryContext) :
    v.program v.outcome (p.exec reg depth ctx) = p.exec reg depth (v.context ctx) := by
  induction depth generalizing p ctx with
  | zero => exact congrArg (act Eff.overflow) (funext fun r => r.elim)
  | succ depth ih =>
    refine congrArg (act (Eff.call p (v.context ctx))) (funext fun _ => ?_)
    cases p with
    | blackhole b => rfl
    | redirect r => exact congrArg done (Prod.ext (context_redirect r ctx) rfl)
    | ecs e => exact congrArg done (Prod.ext (context_ecs hp ctx) rfl)
    | noEcs n => exact congrArg done (Prod.ext (context_pushTrace _ _ _) rfl)
    | hosts h => exact congrArg done (Prod.ext (context_hosts h ctx) rfl)
    | forward f => exact program_forward f ctx
    | cache c => exact program_cache c ctx
    | sequence s => exact program_loop reg hreg ih s.tag s.steps hp [] ctx
    | fallback f => exact program_fallback reg hreg ih f ctx

omit [Crates] hreg in
theorem program_conclude (ctx : QueryContext) :
    v.program v.outcome (Server.conclude ctx) = Server.conclude (v.context ctx) := by
  have hresp : (v.context (Server.finalized ctx)).hasResp = (Server.finalized ctx).hasResp := rfl
  simp only [Server.conclude, ← context_finalized, hresp]
  exact count_bind _ (count_bind _ rfl)

omit [Crates] hreg in
theorem context_recover (r : Except QueryContext Outcome) :
    v.context (Server.recover r) = Server.recover (renameTimed v.blanking v.outcome r) := by
  match r with
  | .ok (ctx, .ok a) => rfl
  | .ok (ctx, .error e) =>
    have hresp : (v.context ctx).hasResp = ctx.hasResp := rfl
    simp only [renameTimed, outcome, Server.recover, hresp]
    split_ifs <;> rfl
  | .error ctx => rfl

/-- Handling a request behind the veil is handling it, behind the veil. -/
theorem program_handle (depth : ℕ) (entry : Tag) (ctx : QueryContext) :
    v.program v.outcome (Server.handle reg depth entry ctx) =
      Server.handle reg depth entry (v.context ctx) := by
  have hquery : (v.context ctx).query = ctx.query := rfl
  simp only [Server.handle, hquery, ← context_beginPipeline]
  cases classifyIncoming ctx.query with
  | Drop => rfl
  | NotImp => exact program_conclude _
  | Ok =>
    dsimp only
    cases hp : reg.getExec entry with
    | error e => rfl
    | ok p =>
      refine program_bind (f := renameTimed v.blanking v.outcome) ?_ fun r => ?_
      · rw [program, rename_timeout, ← program_exec hreg depth p (hreg entry p hp)]
      · rw [← context_recover]
        exact program_conclude _

end Pipelines

omit [Crates] in
/-- What ends alike behind the veil ends with one response. -/
theorem response_eq_of_outcome_eq {α : Type} {o o' : QueryContext × α}
    (h : v.outcome o' = v.outcome o) : o'.1.response = o.1.response ∧ o'.2 = o.2 := by
  obtain ⟨hctx, hrest⟩ := Prod.mk.inj h
  exact ⟨(QueryContext.mk.inj hctx).2.2.2.2.1, hrest⟩

/-! ### What is seen -/

/-- The actions on shared state with their answers, apart from the counters and from what is
behind the veil. -/
def seen (v : Veil) (tr : Trace) : Trace :=
  (tr.map (event v.blanking)).filter fun ev => match ev.1 with
    | .count _ => false
    | _ => true

/-- The program can end like this while the outside shows itself like this. -/
def Shows {α : Type} (v : Veil) (p : Run α) (outside : Trace) (a : α) : Prop :=
  ∃ tr, Ends p tr a ∧ v.seen tr = outside

omit [Crates] in
theorem shows_bind_done {α β : Type} {p : Run α} {f : α → β} {outside : Trace} {b : β} :
    v.Shows (p.bind fun a => done (f a)) outside b ↔ ∃ a, v.Shows p outside a ∧ f a = b := by
  constructor
  · rintro ⟨tr, hends, hseen⟩
    obtain ⟨tr₁, tr₂, a, rfl, hp, hdone⟩ := ends_bind hends
    obtain ⟨rfl, rfl⟩ := ends_done hdone
    rw [List.append_nil] at hseen
    exact ⟨a, ⟨tr₁, hp, hseen⟩, rfl⟩
  · rintro ⟨a, ⟨tr, hp, hseen⟩, rfl⟩
    refine ⟨tr, ?_, hseen⟩
    rw [← List.append_nil tr]
    exact hp.bind (.refl _)

/-- Requests that differ behind the veil only can do the same, and end alike but for that. -/
theorem Shows.of_context_eq {reg : Registry} (hreg : ∀ tag p, reg.getExec tag = .ok p → v.Blind p)
    {depth : ℕ} {entry : Tag} {ctx ctx' : QueryContext} (hctx : v.context ctx = v.context ctx')
    {outside : Trace} {o : QueryContext × Except Error Unit}
    (h : v.Shows (Server.handle reg depth entry ctx) outside o) :
    ∃ o', v.Shows (Server.handle reg depth entry ctx') outside o' ∧ v.outcome o' = v.outcome o := by
  obtain ⟨tr, hends, rfl⟩ := h
  have hsame : v.program v.outcome (Server.handle reg depth entry ctx) =
      v.program v.outcome (Server.handle reg depth entry ctx') := by
    rw [program_handle hreg, program_handle hreg, hctx]
  obtain ⟨tr', o', hends', htr, ho⟩ := hends.of_rename_eq v.blanking hsame
  refine ⟨o', ⟨tr', hends', ?_⟩, ho⟩
  rw [seen, seen, htr]

end Veil

end FerrumDns
