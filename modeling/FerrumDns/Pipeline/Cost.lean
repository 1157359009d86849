import FerrumDns.Forward.Race
import FerrumDns.Prog.Budget
import FerrumDns.Refresh.Bypass
import FerrumDns.Runtime.Nesting
import FerrumDns.Sample

/-! How much work one request can cause upstream. The configured plugins bound it: a
forwarder asks a fixed number of servers, a sequence at most what its steps and jumps
cost, a fallback what both its branches do, and a cache step at most one background
refresh of the same entry, which passes caches by and so starts no further one. Whatever
is answered, dropped or raced, the servers asked for any number of requests stay within
the sum of what the entries of these requests cost. -/

namespace FerrumDns

open Prog Dnsutil

namespace Cost

/-! ### What the configuration allows -/

section Configured

variable (reg : Registry) (ask : Forward → ℕ) (kick : ℕ)

/-- What a plugin costs that calls no other one. -/
def ofLeaf : Executable → ℕ
  | .forward f => ask f
  | .cache c => if c.refresh.isSome then kick else 0
  | _ => 0

def ofTag (cost : Executable → ℕ) (tag : Tag) : ℕ :=
  match reg.getExec tag with
  | .ok p => cost p
  | .error _ => 0

def ofStep (cost : Executable → ℕ) (step : Step) : ℕ :=
  match step.exec with
  | .Plugin tag | .Builtin (.Goto tag) => ofTag reg cost tag
  | .Builtin _ => 0

/-- What executing a plugin costs with so many nested calls. -/
def ofPlugin : ℕ → Executable → ℕ
  | 0, _ => 0
  | depth + 1, .sequence s => (s.steps.map (ofStep reg (ofPlugin depth))).sum
  | depth + 1, .fallback f => ofTag reg (ofPlugin depth) f.primary +
      ofTag reg (ofPlugin depth) f.secondary
  | _ + 1, p => ofLeaf ask kick p

/-- The servers an entry asks, without what its refreshes ask. -/
def asks (depth : ℕ) (entry : Tag) : ℕ := ofTag reg (ofPlugin reg Forward.raced 0 depth) entry

/-- The servers asked for one request and for the refreshes it starts. -/
def request (depth : ℕ) (entry : Tag) : ℕ :=
  ofTag reg (ofPlugin reg Forward.raced (asks reg depth (Server.entryTag entry)) depth) entry

end Configured

/-- What an action costs: a forwarder when it is called, and a refresh when it is started. -/
def weight (ask : Forward → ℕ) (kick : Tag → ℕ) : Eff → ℕ
  | .call (.forward f) _ => ask f
  | .kick _ _ _ entry => kick entry
  | _ => 0

/-- Only what is charged for refreshes differs. -/
theorem weight_le {ask : Forward → ℕ} {kick kick' : Tag → ℕ} {e : Eff}
    (h : ∀ c key bg entry, e = .kick c key bg entry → kick entry ≤ kick' entry) :
    weight ask kick e ≤ weight ask kick' e := by
  cases e with
  | kick c key bg entry => exact h c key bg entry rfl
  | call p ctx => cases p <;> exact Nat.le_refl _
  | _ => exact Nat.le_refl _

/-! ### What plugins spend -/

variable {ask : Forward → ℕ} {kick : ℕ} {α : Type}

/-- A piece of request handling that costs no more than `n`. -/
abbrev Within (ask : Forward → ℕ) (kick n : ℕ) (p : Run α) : Prop :=
  p.Spends (weight ask fun _ => kick) n

theorem within_done (n : ℕ) (a : α) : Within ask kick n (done a : Run α) := trivial

/-- An action that is free. -/
theorem within_act {n : ℕ} {e : Eff} {p : e.Answer → Run α}
    (he : weight ask (fun _ => kick) e = 0) (h : ∀ r, Within ask kick n (p r)) :
    Within ask kick n (act e p) := by
  refine ⟨by omega, fun r => ?_⟩
  rw [he, Nat.sub_zero]
  exact h r

theorem within_count {n : ℕ} {k : Counter} {p : Unit → Run α} (h : Within ask kick n (p ())) :
    Within ask kick n ((Run.count k).bind p) :=
  within_act rfl fun _ => h

theorem within_single (f : Forward) (ctx : QueryContext) (q : Message) (up : Upstream) :
    Within ask kick 0 (f.single ctx q up) := by
  refine within_act rfl fun r => ?_
  obtain ⟨i, r⟩ := r
  cases r with
  | error e => exact within_count (within_done 0 _)
  | ok msg =>
    dsimp only
    split_ifs
    · exact within_count (within_done 0 _)
    · exact within_count (within_done 0 _)

theorem within_race (f : Forward) (ctx : QueryContext) (q : Message) (n : ℕ)
    (pending : List Upstream) (last : Option Message) :
    Within ask kick 0 (f.race ctx q n pending last) := by
  induction n generalizing pending last with
  | zero => exact within_done 0 _
  | succ n ih =>
    cases pending with
    | nil => exact within_done 0 _
    | cons up pending =>
      refine within_act rfl fun r => ?_
      obtain ⟨i, r⟩ := r
      cases r with
      | error e => exact within_count (ih _ _)
      | ok msg =>
        dsimp only
        split_ifs
        · exact within_count (within_done 0 _)
        · exact within_count (ih _ _)

theorem within_forward (f : Forward) (ctx : QueryContext) :
    Within ask kick 0 (f.exec ctx) := by
  simp only [Forward.exec]
  split_ifs
  · exact within_single f ctx _ _
  · exact within_race f ctx _ _ _ _

theorem within_kickRefresh (c : Cache) (ctx : QueryContext) (key : Text) :
    Within ask kick (if c.refresh.isSome then kick else 0) (c.kickRefresh ctx key) := by
  unfold Cache.kickRefresh
  by_cases hs : ctx.skipCache = true
  · rw [if_pos hs]
    exact within_done _ _
  · rw [if_neg hs]
    cases c.refresh with
    | none => exact within_done _ _
    | some entry => exact ⟨le_rfl, fun _ => within_done _ _⟩

theorem within_serve (c : Cache) (ctx : QueryContext) (key : Text) (msg : Message) (hit : Hit)
    (now : ℕ) :
    Within ask kick (if c.refresh.isSome then kick else 0) (c.serve ctx key msg hit now) := by
  unfold Cache.serve
  dsimp only
  by_cases hpast : hit.past = true
  · rw [if_pos hpast]
    refine within_count ((within_kickRefresh c _ key).andThen fun _ => ?_)
    exact within_count (within_done 0 _)
  · rw [if_neg hpast]
    exact within_count (within_done _ _)

variable [Crates]

/-- A cache step starts one refresh at most, and none if none is configured. -/
theorem within_cache (c : Cache) (ctx : QueryContext) :
    Within ask kick (if c.refresh.isSome then kick else 0) (c.exec ctx) := by
  have miss {n : ℕ} : Within ask kick n (c.miss ctx) := within_count (within_done n _)
  unfold Cache.exec
  cases Cache.keyOf ctx.query c.cacheEverything with
  | none => exact within_done _ _
  | some key =>
    dsimp only
    by_cases hs : ctx.skipCache = true
    · rw [if_pos hs]
      exact miss
    · rw [if_neg hs]
      refine within_act rfl fun r => ?_
      cases r with
      | none => exact miss
      | some hit =>
        dsimp only
        cases decode hit.wire with
        | error e => exact miss
        | ok msg => exact within_act rfl fun now => within_serve c ctx key msg hit now

theorem within_storeLookup (c : Cache) (ctx : QueryContext) (l : CacheLookup) :
    Within ask kick 0 (c.storeLookup ctx l) := by
  unfold Cache.storeLookup
  split_ifs
  · exact within_done 0 _
  · cases ctx.responseForQuery l.query l.rewriteStart with
    | none => exact within_done 0 _
    | some response =>
      dsimp only
      unfold Cache.store
      cases Cache.admits response with
      | none => exact within_done 0 _
      | some wire => exact within_act rfl fun now => within_act rfl fun _ => within_done 0 _

section Calls

variable {reg : Registry} {call : Executable → QueryContext → Run Outcome}
  {cost : Executable → ℕ}

theorem within_finish (ctx : QueryContext) (writes : List Write) (a : Action) :
    Within ask kick 0 (Sequence.finish ctx writes a) := by
  have store : Within ask kick 0 (Sequence.store ctx writes) := by
    induction writes with
    | nil => exact within_done 0 _
    | cons x writes ih => exact (within_storeLookup x.1 ctx x.2).bind fun _ => ih
  exact store.andThen fun _ => within_done 0 _

/-- What a result asks for on top: a jump costs what its target does. -/
def ofResult (reg : Registry) (cost : Executable → ℕ) : Except Error Action → ℕ
  | .ok (.Goto tag) => ofTag reg cost tag
  | _ => 0

omit [Crates] in
theorem ofResult_apply (b : Builtin) (ctx : QueryContext) :
    ofResult reg cost (b.apply ctx).2 ≤ ofStep reg cost ⟨[], .Builtin b⟩ := by
  cases b with
  | Ttl low high =>
    rw [Builtin.apply]
    split_ifs <;> exact Nat.zero_le _
  | Goto tag => exact le_rfl
  | _ => exact Nat.zero_le _

variable (hcall : ∀ p ctx, Within ask kick (cost p) (call p ctx))
  (hstay : ∀ p ctx tr o, Ends (call p ctx) tr o → ofResult reg cost o.2 = 0)

include hcall

omit [Crates] in
theorem within_fallback (f : Fallback) (ctx : QueryContext) :
    Within ask kick (ofTag reg cost f.primary + ofTag reg cost f.secondary)
      (f.exec reg call ctx) := by
  unfold Fallback.exec ofTag
  cases reg.getExec f.primary with
  | error e => exact within_done _ _
  | ok primary =>
    cases reg.getExec f.secondary with
    | error e => exact within_done _ _
    | ok secondary =>
      have first : Within ask kick (cost primary) (f.limited (call primary ctx.fork)) :=
        within_act rfl fun _ => (hcall primary ctx.fork).limit rfl
      dsimp only
      split_ifs
      · refine first.select (c := 0) ⟨fun first rest n hrest => ?_, fun o rest n hrest => ?_⟩
          (hcall secondary ctx.fork)
        · dsimp only
          cases Fallback.wanted first with
          | some pctx => exact within_done _ _
          | none => exact hrest.hold.bind fun _ => within_done 0 _
        · refine hrest.hold.bind fun first => ?_
          cases Fallback.wanted first with
          | some pctx => exact within_done _ _
          | none => exact within_done _ _
      · refine first.hold.bind fun first => ?_
        cases Fallback.wanted first with
        | some pctx => exact within_done _ _
        | none => exact (hcall secondary _).hold.andThen fun _ => within_done 0 _

theorem within_callTag (before ctx : QueryContext) (tag : Tag) :
    Within ask kick (ofTag reg cost tag) (Sequence.callTag reg call before tag ctx) := by
  unfold Sequence.callTag ofTag
  cases reg.getExec tag with
  | error e => exact within_done _ _
  | ok p => exact (hcall p ctx).andThen fun _ => within_done 0 _

include hstay

/-- One step leaves to what follows it what its result still costs. -/
theorem within_perform (self : Tag) (step : Step) (ctx : QueryContext) {n : ℕ}
    {k : List Write × Outcome → Run Outcome}
    (hk : ∀ o, Within ask kick (ofResult reg cost o.2.2 + n) (k o)) :
    Within ask kick (ofStep reg cost step + n)
      ((Sequence.perform reg call self ctx step.exec).bind k) := by
  obtain ⟨matchers, x⟩ := step
  cases x with
  | Builtin b =>
    have hle : ofResult reg cost (b.apply (ctx.pushTrace self "builtin")).2 ≤
        ofStep reg cost ⟨[], .Builtin b⟩ := ofResult_apply b _
    exact (hk ([], b.apply (ctx.pushTrace self "builtin"))).mono (Nat.add_le_add_right hle _)
  | Plugin tag =>
    rw [Sequence.perform]
    cases hp : reg.getExec tag with
    | error e => exact (hk _).mono (Nat.add_le_add_right (Nat.zero_le _) _)
    | ok p =>
      refine (within_callTag hcall ctx _ tag).bind_ends fun tr o ho => ?_
      have hzero : ofResult reg cost o.2.2 = 0 := by
        simp only [Sequence.callTag, hp] at ho
        obtain ⟨tr₁, tr₂, o', -, hcalled, hdone⟩ := ends_bind ho
        obtain ⟨-, rfl⟩ := ends_done hdone
        exact hstay _ _ _ _ hcalled
      exact (hk o).mono (by omega)

/-- The steps spend what they cost one after the other, and a jump is the last one. -/
theorem within_loop (self : Tag) (steps : List Step) (writes : List Write) (ctx : QueryContext) :
    Within ask kick (steps.map (ofStep reg cost)).sum
      (Sequence.loop reg call self steps writes ctx) := by
  induction steps generalizing writes ctx with
  | nil => exact within_finish ctx writes _
  | cons step steps ih =>
    rw [Sequence.loop, List.map_cons, List.sum_cons]
    split_ifs
    · refine within_perform hcall hstay self step ctx ?_
      rintro ⟨new, ctx', result⟩
      cases result with
      | error e => exact within_done _ _
      | ok a =>
        cases a with
        | Continue => exact (ih _ _).mono (Nat.le_add_left _ _)
        | Accept => exact (within_finish _ _ _).mono (Nat.zero_le _)
        | Return => exact (within_finish _ _ _).mono (Nat.zero_le _)
        | Goto tag =>
          refine ((within_callTag hcall ctx' ctx' tag).andThen ?_).mono (Nat.le_add_right _ _)
          rintro ⟨last, ctx'', result⟩
          cases result with
          | error e => exact within_done _ _
          | ok a => exact within_finish _ _ _
    · exact (ih _ _).mono (Nat.le_add_left _ _)

end Calls

/-! ### Whole pipelines -/

variable {reg : Registry}

/-- No plugin leaves a jump to its caller. -/
theorem exec_stays {depth : ℕ} {p : Executable} {ctx : QueryContext} {tr : Trace} {o : Outcome}
    {cost : Executable → ℕ} (h : Ends (p.exec reg depth ctx) tr o) : ofResult reg cost o.2 = 0 := by
  have nests : Nesting.Nests reg (fun _ => True) (fun _ => True) fun _ _ => True :=
    ⟨fun _ _ => trivial, fun _ => trivial, fun _ => trivial, fun _ => trivial,
      fun _ _ _ => trivial, fun _ _ _ => trivial⟩
  obtain ⟨ctx', r⟩ := o
  have hsettled := ((nests.exec_sat (n := depth) (p := p) trivial ctx).ends h fun _ _ => trivial).2
  match r with
  | .error e => rfl
  | .ok .Continue => rfl
  | .ok .Accept => rfl
  | .ok .Return => rfl
  | .ok (.Goto tag) => rcases hsettled with h | h <;> cases h

/-- Executing a plugin costs no more than its configuration allows. -/
theorem within_exec (depth : ℕ) (p : Executable) (ctx : QueryContext) :
    Within ask kick (ofPlugin reg ask kick depth p) (p.exec reg depth ctx) := by
  induction depth generalizing p ctx with
  | zero => exact ⟨le_rfl, fun r => r.elim⟩
  | succ depth ih =>
    cases p with
    | forward f => exact ⟨le_rfl, fun _ => (within_forward f ctx).mono (Nat.zero_le _)⟩
    | cache c => exact within_act rfl fun _ => within_cache c ctx
    | sequence s =>
      exact within_act rfl fun _ => within_loop ih (fun _ _ _ _ => exec_stays) s.tag s.steps [] ctx
    | fallback f => exact within_act rfl fun _ => within_fallback ih f ctx
    | _ => exact within_act rfl fun _ => within_done _ _

theorem within_handle (depth : ℕ) (entry : Tag) (ctx : QueryContext) :
    Within ask kick (ofTag reg (ofPlugin reg ask kick depth) entry)
      (Server.handle reg depth entry ctx) := by
  have conclude {n : ℕ} (ctx : QueryContext) : Within ask kick n (Server.conclude ctx) :=
    within_count (within_count (within_done n _))
  unfold Server.handle
  cases classifyIncoming ctx.query with
  | Drop => exact within_done _ _
  | NotImp => exact conclude _
  | Ok =>
    unfold ofTag
    dsimp only
    cases reg.getExec entry with
    | error e => exact within_done _ _
    | ok p => exact (within_exec depth p _).timeout.andThen fun _ => conclude _

/-! ### Requests with their refreshes -/

/-- Refreshes are started with a context that passes caches by. -/
def contract : Contract QueryContext Eff Eff.Answer where
  guar
    | .kick _ _ bg _ => bg.skipCache = true
    | _ => True
  rely _ _ := True
  held _ := True

/-- They run the entry the request came in by. -/
def own (entry : Tag) : Contract QueryContext Eff Eff.Answer where
  guar
    | .kick _ _ bg entry' => bg.skipCache = true ∧ entry' = entry
    | _ => True
  rely _ _ := True
  held ctx := ctx.pipelineEntry = some entry

theorem own_preserved (entry : Tag) :
    Preserved (own entry) (fun ctx => ctx.pipelineEntry = some entry) fun _ => True where
  held := .rfl
  call _ := trivial
  count _ := trivial
  exchange _ _ := trivial
  clock := ⟨trivial, fun _ => trivial⟩
  overflow := trivial
  edit he h := by
    cases he with
    | trace plugin event => simpa using h
    | rewrite name =>
      obtain ⟨_, _, hr⟩ := QueryContext.rewriteName_eq _ name
      rw [hr]
      exact h
    | _ => exact h
  attach _ _ h _ := h
  fork h := h
  absorb h _ := h
  cache {c ctx} h := by
    have kicked (entry' : Tag) : ctx.pipelineEntry.getD entry' = entry := by rw [h]; rfl
    have traced (plugin event : String) :
        (ctx.pushTrace plugin event).pipelineEntry = some entry := by simpa using h
    exact Cache.exec_sat (I := fun ctx => ctx.pipelineEntry = some entry) (fun _ => trivial)
      trivial (fun _ _ _ => trivial) (fun _ entry' _ => ⟨rfl, kicked entry'⟩) h traced
      fun event _ _ => traced c.tag event
  note _ _ := trivial
  store _ _ := Cache.storeLookup_sat trivial fun _ _ _ _ _ _ _ => trivial

/-- What the pipeline promises is promised of the whole request. -/
theorem handle_sat {C : Contract QueryContext Eff Eff.Answer} (hcount : ∀ k, C.guar (.count k))
    (depth : ℕ) (entry : Tag) (ctx : QueryContext)
    (hexec : ∀ p : Executable, (p.exec reg depth (ctx.beginPipeline entry)).Sat C fun _ => True) :
    (Server.handle reg depth entry ctx).Sat C fun _ => True := by
  have conclude (ctx : QueryContext) : (Server.conclude ctx).Sat C fun _ => True :=
    ⟨hcount _, fun _ _ => ⟨hcount _, fun _ _ => trivial⟩⟩
  unfold Server.handle
  cases classifyIncoming ctx.query with
  | Drop => trivial
  | NotImp => exact conclude _
  | Ok =>
    dsimp only
    cases reg.getExec entry with
    | error e => trivial
    | ok p => exact (hexec p).timeout.bind fun _ _ => conclude _

/-- A request as a listener or the diagnostic interface hands it over. -/
structure Request where
  entry : Tag
  query : Message
  peer : Option IpAddr
  proto : ClientProto
  traced : Bool

def Request.context (r : Request) : QueryContext :=
  { QueryContext.new r.query r.peer r.proto with traceEnabled := r.traced }

def Request.task (reg : Registry) (depth : ℕ) (r : Request) : Task :=
  (none, Resolver.requestTask reg depth r.entry r.context)

/-- What each action of the resolver costs, with the refresh it starts. -/
abbrev price (reg : Registry) (depth : ℕ) : Eff → ℕ :=
  weight Forward.raced fun entry => asks reg depth (Server.entryTag entry)

/-- The servers that an action asks. -/
def asked : Eff → ℕ
  | .call (.forward f) _ => f.raced
  | _ => 0

theorem request_spends (depth : ℕ) (r : Request) :
    (r.task reg depth).2.Spends (price reg depth) (request reg depth r.entry) ∧
      (r.task reg depth).2.Sat contract fun _ => True := by
  have hbegin : (r.context.beginPipeline r.entry).pipelineEntry = some r.entry := rfl
  have hown : (r.task reg depth).2.Sat (own r.entry) fun _ => True := by
    refine (handle_sat (fun _ => trivial) depth r.entry r.context fun p => ?_).bind
      fun _ _ => trivial
    exact ((own_preserved r.entry).exec_sat reg depth p _ hbegin).mono fun _ _ => trivial
  have hhandle : Within Forward.raced (asks reg depth (Server.entryTag r.entry))
      (request reg depth r.entry) (Server.handle reg depth r.entry r.context) :=
    within_handle depth r.entry r.context
  have hspends := hhandle.andThen fun _ => within_done 0 ()
  refine ⟨hspends.of_sat hown (fun _ _ => trivial) fun e he => weight_le ?_, ?_⟩
  · rintro c key bg entry rfl
    rw [he.2]
  · refine hown.weaken (fun e he => ?_) (fun _ _ h => h) fun _ _ => trivial
    cases e with
    | kick c key bg entry => exact he.1
    | _ => trivial

/-- A refresh starts no other one, so it costs what its entry asks. -/
theorem refresh_spends (depth : ℕ) {bg : QueryContext} (hbg : bg.skipCache = true) (entry : Tag) :
    (Resolver.refreshTask reg depth bg entry).Spends (price reg depth)
        (asks reg depth (Server.entryTag entry)) ∧
      (Resolver.refreshTask reg depth bg entry).Sat contract fun _ => True := by
  have hskip : (bg.beginPipeline (Server.entryTag entry)).skipCache = true := by
    unfold QueryContext.beginPipeline
    split_ifs <;> exact hbg
  let entry' := Server.entryTag entry
  let C := Bypass.contract (bg.beginPipeline entry')
  have hbypass : (Server.handle reg depth entry' bg).Sat C fun _ => True := by
    refine handle_sat (fun _ => trivial) depth entry' bg fun p => ?_
    exact ((Bypass.preserved _).exec_sat reg depth p _ ⟨hskip, id⟩).mono fun _ _ => trivial
  have hspends : (Server.handle reg depth entry' bg).Spends (price reg depth)
      (asks reg depth entry') := by
    refine (within_handle depth entry' bg).of_sat hbypass (fun _ _ => trivial) fun e he => ?_
    exact weight_le fun c key bg' e' hkick => by rw [hkick] at he; exact he.elim
  have hsat : (Server.handle reg depth entry' bg).Sat contract fun _ => True := by
    refine hbypass.weaken (fun e he => ?_) (fun _ _ h => h) fun _ _ => trivial
    cases e with
    | kick c key bg' e' => exact he.elim
    | _ => trivial
  refine ⟨⟨Nat.zero_le _, fun (alive : Bool) => ?_⟩, trivial, fun (alive : Bool) _ => ?_⟩
  · cases alive with
    | false => trivial
    | true => exact hspends.andThen fun _ => trivial
  · cases alive with
    | false => trivial
    | true => exact hsat.bind fun _ _ => trivial

/-- Starting a refresh pays for all it may spend. -/
theorem charging (depth : ℕ) :
    Pool.Charging (Resolver.machine reg depth) contract (price reg depth) asked where
  rely _ _ := trivial
  pays := by
    intro w e r w' new hg hp
    have none {e : Eff} (he : asked e ≤ price reg depth e) :
        ∃ n, asked e + n ≤ price reg depth e ∧ Pool.Funded contract (price reg depth) n
          ([] : List Task) := ⟨0, he, [], rfl, by simp, rfl⟩
    cases e with
    | kick c key bg entry =>
      simp only [Resolver.machine, Resolver.perform] at hp
      split_ifs at hp
      · rw [hp.2]
        exact none (Nat.zero_le _)
      · rw [hp.2]
        obtain ⟨hspends, hsat⟩ := refresh_spends depth hg entry
        exact ⟨_, (Nat.zero_add _).le, Pool.funded_single hspends hsat⟩
    | call p ctx =>
      rw [hp.2]
      cases p <;> exact none (Nat.le_refl _)
    | lookup c key q => rw [hp.2.2]; exact none (Nat.le_refl _)
    | now => rw [hp.2.2]; exact none (Nat.le_refl _)
    | timer d => rw [hp.2.2]; exact none (Nat.le_refl _)
    | upgrade => rw [hp.2.2]; exact none (Nat.le_refl _)
    | overflow => exact hp.elim
    | _ => rw [hp.2]; exact none (Nat.le_refl _)

theorem funded_requests (depth : ℕ) (reqs : List Request) :
    Pool.Funded contract (price reg depth) (reqs.map fun r => request reg depth r.entry).sum
      (reqs.map (Request.task reg depth)) := by
  induction reqs with
  | nil => exact ⟨[], rfl, by simp, rfl⟩
  | cons r reqs ih =>
    obtain ⟨hspends, hsat⟩ := request_spends depth r
    exact (Pool.funded_single hspends hsat).append ih

/-- However requests and the refreshes they start are scheduled, answered, raced and dropped, they
ask no more servers than the entries of these requests allow. -/
theorem asks_bounded {depth : ℕ} (w : World) (reqs : List Request) {tr : Trace}
    {q : Resolver.State} (h : Pool.Run (Pool.closed (Resolver.machine reg depth))
      ⟨w, reqs.map (Request.task reg depth)⟩ tr q) :
    Pool.cost asked tr ≤ (reqs.map fun r => request reg depth r.entry).sum :=
  (charging depth).run h (funded_requests depth reqs)

omit [Crates] in
/-- One request at a resolver with one server behind a cache, which may refresh once. -/
theorem asks_bounded_request : ∃ tr w,
    Sample.played Sample.answer Sample.world = some (tr, (), w, []) ∧ Pool.cost asked tr ≤ 2 := by
  let := Sample.codec
  obtain ⟨tr, w, hplayed, -, -⟩ := Sample.first_stores
  have hallows : Pool.Allows (Pool.closed (Resolver.machine Sample.resolver 4))
      (Resolver.oracle Sample.resolver 4 (Sample.answering Sample.answer)) :=
    Resolver.machine_allows Sample.resolver 4 (Sample.answering Sample.answer)
  have hrun := Pool.play_run hallows hplayed [] [] none
  have hcost : (([⟨"main", Sample.query, some (.v4 0x7f000001), .Udp, false⟩] : List Request).map
      fun r => request Sample.resolver 4 r.entry).sum = 2 := by rfl
  exact ⟨tr, w, hplayed, (asks_bounded Sample.world _ hrun).trans hcost.le⟩

end Cost

end FerrumDns
