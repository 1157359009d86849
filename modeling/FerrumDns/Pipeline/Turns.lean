import FerrumDns.Pipeline.Invariant

/-! What becomes of a response along a run. Caches serve one, other steps install one or
drop it, and a branch that a fallback takes over brings its own history. A history goes with
the events of a run: a turn is that of a plugin called with the context reached by then, of a
step of a sequence that was called, of an answer from upstream, or of the request's own end.
The flag of a context tells whether the last turn was a cache serving; its trace, while it is
kept, tells whether any was. -/

namespace FerrumDns

open Prog Dnsutil

/-- A turn in the history of a response. -/
inductive Turn where
  | served | installed | dropped
  deriving DecidableEq, Repr

namespace Turn

/-! ### Lost hits -/

/-- A cache served, and after the last time it did there was another turn. -/
def Lost (ts : List Turn) : Prop := ∃ l r, ts = l ++ served :: r ∧ r ≠ [] ∧ served ∉ r

/-- That some turn was a cache serving and that the last one was come apart when it is lost. -/
theorem not_lost_iff {ts : List Turn} :
    (served ∈ ts ↔ ts.getLast? = some served) ↔ ¬ Lost ts := by
  by_cases hmem : served ∈ ts
  · obtain ⟨r, l, hrev, hr⟩ := List.eq_append_cons_of_mem (List.mem_reverse.2 hmem)
    have hts : ts = l.reverse ++ served :: r.reverse := by
      rw [← ts.reverse_reverse, hrev]
      simp
    have hr' : served ∉ r.reverse := by simpa using hr
    constructor
    · rintro hlast ⟨l', r', rfl, hne, hr'⟩
      rw [List.getLast?_append_of_ne_nil _ (by simp), List.getLast?_cons_of_ne_nil hne] at hlast
      exact hr' (List.mem_of_getLast? (hlast.1 hmem))
    · intro hlost
      refine iff_of_true hmem ?_
      by_cases hne : r.reverse = []
      · rw [hts, hne, List.getLast?_concat]
      · exact absurd ⟨_, _, hts, hne, hr'⟩ hlost
  · refine iff_of_true (iff_of_false hmem fun hlast => hmem (List.mem_of_getLast? hlast)) ?_
    rintro ⟨l, r, rfl, -⟩
    simp at hmem

end Turn

/-! ### Histories -/

/-- An event that a cache leaves when it serves. -/
def TraceEvent.IsHit (reg : Registry) (e : TraceEvent) : Prop :=
  (e.event = "hit" ∨ e.event = "lazy_hit") ∧ (reg.caches e.plugin).isSome

instance (reg : Registry) (e : TraceEvent) : Decidable (e.IsHit reg) :=
  inferInstanceAs (Decidable (_ ∧ _))

/-- The response stays, but for its TTLs, its records or the question it is bound to, and nothing on
the trace looks like a hit. -/
inductive Still (reg : Registry) (ctx : QueryContext) : QueryContext → Prop
  | rest {ctx' : QueryContext} (henabled : ctx'.traceEnabled = ctx.traceEnabled)
      (hresponse : ctx'.response = ctx.response)
      (hflag : ctx'.servedFromCache = ctx.servedFromCache) (hsource : ctx'.source = ctx.source)
      (htrace : ctx'.trace = ctx.trace) : Still reg ctx ctx'
  | trace {plugin event : String} (h : ¬ TraceEvent.IsHit reg ⟨plugin, event⟩) :
      Still reg ctx (ctx.pushTrace plugin event)
  | clampTtl (low high : U32) : Still reg ctx (ctx.applyTtlClamp low high)
  | filter (keep : RecordType → Bool) : Still reg ctx (ctx.filterAnswers keep)
  | finalize : Still reg ctx (Server.finalized ctx)

/-- What a request that has come to `b` is refused for with this code. -/
inductive Refuses (tr : Trace) (b : QueryContext) : ResponseCode → Prop
  | blackhole {x : Blackhole} (hcall : ⟨.call (.blackhole x) b, ()⟩ ∈ tr) : Refuses tr b x.rcode
  | builtin {s : Sequence} {c : QueryContext} {step : Step} {code : ResponseCode}
      (hcall : ⟨.call (.sequence s) c, ()⟩ ∈ tr) (hstep : step ∈ s.steps)
      (hexec : step.exec = .Builtin (.Reject code)) : Refuses tr b code
  | server {code : ResponseCode} (h : code = .NotImp ∨ code = .ServFail) : Refuses tr b code

/-- From one context to another along the run of these events, with the turns that the response
takes. A fork starts without response, so that to take over one drops what was there. -/
inductive History [Crates] (reg : Registry) (tr : Trace) :
    QueryContext → List Turn → QueryContext → Prop
  | start (ctx) : History reg tr ctx [] ctx
  | still {a ts b c} (h : History reg tr a ts b) (hq : Still reg b c) : History reg tr a ts c
  | serve {a ts b} (h : History reg tr a ts b) {c : Cache} (hc : reg.caches c.tag = some c)
      (hcall : ⟨.call (.cache c) b, ()⟩ ∈ tr) {key : Text} {hit : Hit}
      (hlook : ⟨.lookup c key b.query, some hit⟩ ∈ tr) {msg : Message}
      (hd : decode hit.wire = .ok msg) {now : ℕ} (hnow : ⟨.now, now⟩ ∈ tr) {event : String}
      (he : event = "hit" ∨ event = "lazy_hit") :
      History reg tr a (ts ++ [.served])
        (c.withHit (b.pushTrace c.tag event) (c.served msg hit now))
  | ask {a ts b} (h : History reg tr a ts b) {f : Forward} {ups : List Upstream}
      {i : Fin ups.length} {msg : Message} (hx : ⟨.exchange ups b.query, (i, .ok msg)⟩ ∈ tr) :
      History reg tr a (ts ++ [.installed]) (f.took b msg)
  | list {a ts b} (h : History reg tr a ts b) {t : Hosts}
      (hcall : ⟨.call (.hosts t) b, ()⟩ ∈ tr) {event : String}
      (hn : ¬ TraceEvent.IsHit reg ⟨t.tag, event⟩) {records : List Record}
      (hexec : t.exec b = (b.pushTrace t.tag event).setResponse (.hosts t.tag)
        (buildHostsResponse (b.pushTrace t.tag event).query records)) :
      History reg tr a (ts ++ [.installed]) (t.exec b)
  | refuse {a ts b} (h : History reg tr a ts b) {code : ResponseCode} (hr : Refuses tr b code) :
      History reg tr a (ts ++ [.installed]) (b.reject code)
  | drop {a ts b} (h : History reg tr a ts b) {s : Sequence} {c : QueryContext} {step : Step}
      (hcall : ⟨.call (.sequence s) c, ()⟩ ∈ tr) (hstep : step ∈ s.steps)
      (hexec : step.exec = .Builtin .DropResp) : History reg tr a (ts ++ [.dropped]) b.dropResponse
  | adopt {a ts b} (h : History reg tr a ts b) {f : Fallback}
      (hcall : ⟨.call (.fallback f) b, ()⟩ ∈ tr) {event : String}
      (he : event = "primary" ∨ event = "secondary") {ts' other}
      (h' : History reg tr b.fork ts' other) :
      History reg tr a (ts ++ .dropped :: ts') ((b.pushTrace f.tag event).absorb other)

theorem pushTrace_traceEnabled (ctx : QueryContext) (plugin event : String) :
    (ctx.pushTrace plugin event).traceEnabled = ctx.traceEnabled := by
  obtain ⟨_, h⟩ := ctx.pushTrace_eq plugin event
  rw [h]

theorem pushTrace_trace {ctx : QueryContext} (h : ctx.traceEnabled = true) (plugin event : String) :
    (ctx.pushTrace plugin event).trace = ctx.trace ++ [⟨plugin, event⟩] := by
  rw [QueryContext.pushTrace, if_pos h]

/-- An event of another kind is no hit. -/
theorem not_isHit {reg : Registry} {plugin event : String} (h : event ≠ "hit" ∧ event ≠ "lazy_hit") :
    ¬ TraceEvent.IsHit reg ⟨plugin, event⟩ := fun hhit => hhit.1.elim h.1 h.2

section Still

variable {reg : Registry} {a b : QueryContext}

theorem finalized_eq (ctx : QueryContext) :
    ∃ response, Server.finalized ctx = { ctx with response := response } := by
  simp only [Server.finalized]
  split_ifs
  · exact ⟨_, rfl⟩
  · exact ⟨_, rfl⟩

theorem Still.enabled (h : Still reg a b) : b.traceEnabled = a.traceEnabled := by
  cases h with
  | rest henabled => exact henabled
  | trace => exact pushTrace_traceEnabled _ _ _
  | finalize =>
    obtain ⟨_, heq⟩ := finalized_eq a
    rw [heq]
  | _ => rfl

theorem Still.flag (h : Still reg a b) : b.servedFromCache = a.servedFromCache := by
  cases h with
  | rest _ _ hflag => exact hflag
  | trace => simp
  | finalize =>
    obtain ⟨_, heq⟩ := finalized_eq a
    rw [heq]
  | _ => rfl

theorem Still.isHit_iff (h : Still reg a b) (he : a.traceEnabled = true) :
    (∃ e ∈ b.trace, e.IsHit reg) ↔ ∃ e ∈ a.trace, e.IsHit reg := by
  cases h with
  | rest _ _ _ _ htrace => rw [htrace]
  | trace hn => simp [pushTrace_trace he, or_and_right, exists_or, hn]
  | finalize =>
    obtain ⟨_, heq⟩ := finalized_eq a
    rw [heq]
  | _ => rfl

end Still

namespace History

variable [Crates] {reg : Registry} {tr : Trace} {a b : QueryContext} {ts : List Turn}

theorem enabled (h : History reg tr a ts b) : b.traceEnabled = a.traceEnabled := by
  induction h with
  | start => rfl
  | still _ hq ih => exact hq.enabled.trans ih
  | serve _ _ _ _ _ _ _ ih => exact (pushTrace_traceEnabled _ _ _).trans ih
  | list _ _ _ hexec ih =>
    rw [hexec]
    exact (pushTrace_traceEnabled _ _ _).trans ih
  | adopt _ _ _ _ ih => exact (pushTrace_traceEnabled _ _ _).trans ih
  | ask _ _ ih => exact ih
  | refuse _ _ ih => exact ih
  | drop _ _ _ _ ih => exact ih

/-- The flag is the last turn. -/
theorem flag (h : History reg tr a ts b) (ha : a.servedFromCache = false) :
    b.servedFromCache = true ↔ ts.getLast? = some .served := by
  induction h with
  | start => simp [ha]
  | still _ hq ih => rw [hq.flag, ih ha]
  | serve => simp [Cache.withHit]
  | ask => simp [Forward.took, QueryContext.setResponse]
  | list _ _ _ hexec => simp [hexec, QueryContext.setResponse]
  | refuse => simp [QueryContext.reject, QueryContext.setResponse]
  | drop => simp [QueryContext.dropResponse]
  | @adopt _ ts _ _ _ _ _ _ ts' other _ _ ih' =>
    change other.servedFromCache = true ↔ _
    rw [ih' rfl, List.getLast?_append_of_ne_nil _ (by simp)]
    cases ts' with
    | nil => simp
    | cons t ts' => rw [List.getLast?_cons_cons]

/-- The trace has a hit just if some turn was one. -/
theorem trace (h : History reg tr a ts b) (he : a.traceEnabled = true)
    (ha : ∀ e ∈ a.trace, ¬ e.IsHit reg) : (∃ e ∈ b.trace, e.IsHit reg) ↔ .served ∈ ts := by
  induction h with
  | start => simpa using ha
  | still h hq ih => rw [hq.isHit_iff (h.enabled.trans he), ih he ha]
  | @serve _ ts b h c hc _ _ _ _ _ _ _ _ event hevent _ =>
    refine iff_of_true ⟨⟨c.tag, event⟩, ?_, hevent, by simp [hc]⟩ (by simp)
    change _ ∈ (b.pushTrace c.tag event).trace
    rw [pushTrace_trace (h.enabled.trans he)]
    simp
  | ask _ _ ih => simpa [Forward.took, QueryContext.setResponse] using ih he ha
  | @list _ ts b h t _ event hn _ hexec ih =>
    rw [hexec]
    change (∃ e ∈ (b.pushTrace t.tag event).trace, _) ↔ _
    rw [(Still.trace hn).isHit_iff (h.enabled.trans he), ih he ha]
    simp
  | refuse _ _ ih => simpa [QueryContext.reject, QueryContext.setResponse] using ih he ha
  | drop _ _ _ _ ih => simpa [QueryContext.dropResponse] using ih he ha
  | @adopt _ ts b h f _ event hevent ts' other _ ih ih' =>
    have henabled := h.enabled.trans he
    have hn : ¬ TraceEvent.IsHit reg ⟨f.tag, event⟩ :=
      not_isHit (by rcases hevent with rfl | rfl <;> decide)
    have htrace : ((b.pushTrace f.tag event).absorb other).trace =
        (b.pushTrace f.tag event).trace ++ other.trace :=
      if_pos ((pushTrace_traceEnabled _ _ _).trans henabled)
    have hstill : Still reg b (b.pushTrace f.tag event) := .trace hn
    have htraced := hstill.isHit_iff henabled
    simp only [htrace, List.mem_append, or_and_right, exists_or, htraced, ih he ha,
      ih' henabled (fun e he => by cases he), List.mem_cons]
    simp

end History

/-! ### Runs -/

/-- Some history leads from one to the other. -/
def Follows [Crates] (reg : Registry) (tr : Trace) (a b : QueryContext) : Prop :=
  ∃ ts, History reg tr a ts b

/-- In a run of these events: wherever a piece of it is dropped, its context follows the one it began
with. -/
def following [Crates] (reg : Registry) (tr : Trace) (a : QueryContext) :
    Contract QueryContext Eff Eff.Answer where
  guar _ := True
  rely e r := ⟨e, r⟩ ∈ tr
  held := Follows reg tr a

/-- The plugin bears the tag it is registered under if it is one that traces hits of its own. -/
def Registry.HostsTagged (reg : Registry) : Prop :=
  ∀ tag t, reg.execs tag = some (.hosts t) → t.tag = tag

namespace Follows

variable [Crates] {reg : Registry} {tr : Trace} {a b c : QueryContext}

theorem refl (ctx : QueryContext) : Follows reg tr ctx ctx := ⟨[], .start ctx⟩

theorem still (h : Follows reg tr a b) (hq : Still reg b c) : Follows reg tr a c :=
  h.imp fun _ h => h.still hq

/-- Nothing happens to the response. -/
theorem rest (h : Follows reg tr a b) (henabled : c.traceEnabled = b.traceEnabled)
    (hresponse : c.response = b.response) (hflag : c.servedFromCache = b.servedFromCache)
    (hsource : c.source = b.source) (htrace : c.trace = b.trace) : Follows reg tr a c :=
  h.still (.rest henabled hresponse hflag hsource htrace)

theorem traced (h : Follows reg tr a b) (plugin : String) {event : String}
    (he : event ≠ "hit" ∧ event ≠ "lazy_hit") : Follows reg tr a (b.pushTrace plugin event) :=
  h.still (.trace (not_isHit he))

theorem refused (h : Follows reg tr a b) {code : ResponseCode} (hr : Refuses tr b code) :
    Follows reg tr a (b.reject code) :=
  h.elim fun _ h => ⟨_, h.refuse hr⟩

theorem adopted (h : Follows reg tr a b) {f : Fallback} (hcall : ⟨.call (.fallback f) b, ()⟩ ∈ tr)
    {event : String} (he : event = "primary" ∨ event = "secondary") {other : QueryContext}
    (h' : Follows reg tr b.fork other) :
    Follows reg tr a ((b.pushTrace f.tag event).absorb other) := by
  obtain ⟨ts, h⟩ := h
  obtain ⟨ts', h'⟩ := h'
  exact ⟨_, h.adopt hcall he h'⟩

end Follows

/-! ### Plugins -/

section Plugins

variable [Crates] {reg : Registry} {tr : Trace} {a b : QueryContext}

theorem builtin_follows (h : Follows reg tr a b) {s : Sequence} {c : QueryContext}
    (hcall : ⟨.call (.sequence s) c, ()⟩ ∈ tr) {step : Step} (hstep : step ∈ s.steps) {x : Builtin}
    (hx : step.exec = .Builtin x) : Follows reg tr a (x.apply b).1 := by
  cases x with
  | Reject code => exact h.refused (.builtin hcall hstep hx)
  | DropResp => exact h.elim fun _ h => ⟨_, h.drop hcall hstep hx⟩
  | Ttl low high =>
    rw [Builtin.apply]
    split_ifs
    · exact h
    · exact h.still (.clampTtl _ _)
  | PreferV4 => exact h.still (.filter (· ≠ .AAAA))
  | PreferV6 => exact h.still (.filter (· ≠ .A))
  | Mark m => exact h.rest rfl rfl rfl rfl rfl
  | NoEcs => exact h.rest rfl rfl rfl rfl rfl
  | Accept => exact h
  | Return => exact h
  | Goto tag => exact h

theorem noEcs_follows (h : Follows reg tr a b) (n : NoEcs) : Follows reg tr a (n.exec b) := by
  refine Follows.traced ?_ _ (by decide)
  exact h.rest rfl rfl rfl rfl rfl

theorem redirect_follows (h : Follows reg tr a b) (r : Redirect) : Follows reg tr a (r.exec b) := by
  rw [Redirect.exec]
  split
  next name _ =>
    obtain ⟨rewrites, queries, heq⟩ := b.rewriteName_eq name
    refine Follows.traced ?_ _ (by decide)
    rw [heq]
    exact h.rest rfl rfl rfl rfl rfl
  · exact h

theorem ecs_follows (h : Follows reg tr a b) (e : Ecs) : Follows reg tr a (e.exec b) := by
  simp only [Ecs.exec]
  split_ifs with hkeep hnew
  · exact h.traced _ (by decide)
  all_goals
    cases e.pick b with
    | none => exact h.traced _ (by decide)
    | some p =>
      refine Follows.traced ?_ _ (by decide)
      exact h.rest rfl rfl rfl rfl rfl

/-- The table's own hits are told from a cache's by its tag, which no cache has. -/
theorem hosts_follows (h : Follows reg tr a b) {tag : Tag} {t : Hosts} (ht : t.tag = tag)
    (hr : reg.execs tag = some (.hosts t)) (hcall : ⟨.call (.hosts t) b, ()⟩ ∈ tr) :
    Follows reg tr a (t.exec b) := by
  have hnone : reg.caches t.tag = none := by
    cases hc : reg.caches t.tag with
    | none => rfl
    | some c =>
      have hexec := (reg.caches_execs _ c).1 hc
      rw [ht, hr] at hexec
      cases hexec
  have hnot (event : String) : ¬ TraceEvent.IsHit reg ⟨t.tag, event⟩ := by
    simp [TraceEvent.IsHit, hnone]
  obtain ⟨ts, h⟩ := h
  by_cases hrecords : t.lookup b.qnameStr b.qtype ≠ []
  · exact ⟨_, h.list hcall (hnot "hit") (if_pos hrecords)⟩
  by_cases hname : t.knownName b.qnameStr = true
  · exact ⟨_, h.list hcall (hnot "nodata") ((if_neg hrecords).trans (if_pos hname))⟩
  · have hexec : t.exec b = b := (if_neg hrecords).trans (if_neg hname)
    rw [hexec]
    exact ⟨ts, h⟩

theorem Follows.asked (h : Follows reg tr a b) {f : Forward} {ups : List Upstream}
    {i : Fin ups.length} {msg : Message} (hx : ⟨.exchange ups b.query, (i, .ok msg)⟩ ∈ tr) :
    Follows reg tr a (f.took b msg) :=
  h.elim fun _ h => ⟨_, h.ask hx⟩

theorem forward_follows (h : Follows reg tr a b) (f : Forward) :
    (f.exec b).Sat (following reg tr a) fun o => Follows reg tr a o.1 :=
  Forward.exec_sat (I := Follows reg tr a) (fun h => h) (fun _ => trivial)
    (fun h _ he => h.traced _ (by rcases he with rfl | rfl <;> decide)) (fun _ => trivial)
    (fun h hx => h.asked hx) h

theorem cache_follows (h : Follows reg tr a b) {tag : Tag} {c : Cache}
    (hr : reg.execs tag = some (.cache c)) (hcall : ⟨.call (.cache c) b, ()⟩ ∈ tr) :
    (c.exec b).Sat (following reg tr a) fun o => Follows reg tr a o.1 := by
  have hc := (reg.caches_execs tag c).2 hr
  obtain rfl := reg.caches_tag tag c hc
  refine Cache.exec_sat_of_hit (fun _ => trivial) trivial (fun _ _ _ => trivial)
    (fun _ _ _ => trivial) h (h.traced _ (by decide)) ?_
  intro event _ _ msg now he _ hlook hd hnow
  obtain ⟨ts, h⟩ := h
  exact ⟨_, h.serve hc hcall hlook hd hnow he⟩

/-- Around the plugins it calls a sequence follows on. -/
theorem sequence_follows {s : Sequence} {c : QueryContext}
    (hcall : ⟨.call (.sequence s) c, ()⟩ ∈ tr) : Sequence.Preserves reg (following reg tr a)
      (fun x => ∃ step ∈ s.steps, step.exec = .Builtin x) (Follows reg tr a) fun _ => True where
  traced h self _ he := Follows.traced h self (by rcases he with rfl | rfl <;> decide)
  builtin hx h := by
    obtain ⟨step, hstep, hexec⟩ := hx
    exact builtin_follows h hcall hstep hexec
  note _ _ _ := trivial
  store _ _ := Cache.storeLookup_sat trivial fun _ _ _ _ _ _ _ => trivial

/-- A branch begins with a fork of the request, whatever was traced meanwhile. -/
theorem fallback_follows {call : Executable → QueryContext → Run Outcome}
    (hbranch : ∀ {a b tag p}, reg.getExec tag = .ok p → Follows reg tr a b →
      (call p b).Sat (following reg tr a) fun o => Follows reg tr a o.1)
    (h : Follows reg tr a b) {f : Fallback} (hcall : ⟨.call (.fallback f) b, ()⟩ ∈ tr) :
    (f.exec reg call b).Sat (following reg tr a) fun o => Follows reg tr a o.1 := by
  have branch (p : Executable) (tag : Tag) (hp : reg.getExec tag = .ok p) :
      (call p b.fork).Sat (following reg tr a).loose fun o => Follows reg tr b.fork o.1 :=
    (hbranch hp (.refl b.fork)).loosen
  exact Fallback.exec_sat ⟨trivial, fun _ => trivial⟩
    (fun _ _ ho => h.adopted hcall (.inl rfl) ho) (fun _ ho => h.adopted hcall (.inr rfl) ho) h
    (h.traced _ (by decide)) (fun _ _ _ _ => h) fun tag p _ => branch p tag

/-! ### Whole pipelines -/

theorem exec_follows (htag : reg.HostsTagged) {depth : ℕ} {tag : Tag} {p : Executable}
    (hp : reg.getExec tag = .ok p) (h : Follows reg tr a b) :
    (p.exec reg depth b).Sat (following reg tr a) fun o => Follows reg tr a o.1 := by
  induction depth generalizing a b tag p with
  | zero => exact ⟨trivial, fun r => r.elim⟩
  | succ depth ih =>
    have hr := Registry.getExec_eq_ok.1 hp
    refine ⟨trivial, fun _ hcall => ?_⟩
    cases p with
    | blackhole x => exact h.refused (.blackhole hcall)
    | redirect r => exact redirect_follows h r
    | ecs e => exact ecs_follows h e
    | noEcs n => exact noEcs_follows h n
    | hosts t => exact hosts_follows h (htag tag t hr) hr hcall
    | forward f => exact forward_follows h f
    | cache c => exact cache_follows h hr hcall
    | sequence s =>
      exact (sequence_follows hcall).loop_sat ih s.tag (fun step hs x hx => ⟨step, hs, hx⟩) h
        (by simp)
    | fallback f => exact fallback_follows ih h hcall

theorem recover_follows {r : Except QueryContext Outcome}
    (hr : (following reg tr a).Timed (fun o => Follows reg tr a o.1) r) :
    Follows reg tr a (Server.recover r) := by
  match r with
  | .ok (ctx, .ok x) => exact hr
  | .ok (ctx, .error e) =>
    rw [Server.recover]
    split_ifs
    · exact hr
    · exact Follows.refused hr (.server (.inr rfl))
  | .error ctx => exact Follows.refused hr (.server (.inr rfl))

theorem conclude_follows (h : Follows reg tr a b) :
    (Server.conclude b).Sat (following reg tr a) fun o => Follows reg tr a o.1 :=
  have counted (k : Counter) : (Run.count k).Sat (following reg tr a) fun _ => True :=
    ⟨trivial, fun _ _ => trivial⟩
  (counted _).bind fun _ _ => (counted _).bind fun _ _ => h.still .finalize

theorem beginPipeline_follows (h : Follows reg tr a b) (entry : Tag) :
    Follows reg tr a (b.beginPipeline entry) := by
  rw [QueryContext.beginPipeline]
  split_ifs
  · exact h.rest rfl rfl rfl rfl rfl
  · exact h

/-- A request that is answered, refused, left without answer or given up ends with a context whose
history begins with the request. -/
theorem handle_follows (htag : reg.HostsTagged) (depth : ℕ) (entry : Tag) (ctx : QueryContext) :
    (Server.handle reg depth entry ctx).Sat (following reg tr ctx) fun o =>
      Follows reg tr ctx o.1 := by
  have h : Follows reg tr ctx ctx := .refl ctx
  rw [Server.handle]
  split
  · exact h
  · exact conclude_follows (h.refused (.server (.inl rfl)))
  · dsimp only
    cases hp : reg.getExec entry with
    | error e => exact beginPipeline_follows h entry
    | ok p =>
      exact (exec_follows htag hp (beginPipeline_follows h entry)).timeout.bind fun r hr =>
        conclude_follows (recover_follows hr)

end Plugins

end FerrumDns
