import FerrumDns.Pipeline.Quiet
import FerrumDns.Sample

/-! A background refresh replays the request as it came in. The state captured when the
request entered the pipeline is out of reach of everything that happens to the context
later, in whatever fork. A refresh starts from it, so it goes past the same quiet steps as
the request did and arrives at a cache step with the same key. -/

namespace FerrumDns

open Prog Dnsutil Sequence QueryContext

namespace Replay

/-- What can become of a context in a pipeline: edits, subnets, cache hits, forks and merges. -/
inductive Evolves (start : QueryContext) : QueryContext → Prop
  | start : Evolves start start
  | edit {ctx ctx'} (h : Evolves start ctx) (he : Edit ctx ctx') : Evolves start ctx'
  | attach {ctx} (h : Evolves start ctx) (cs : ClientSubnet) : Evolves start (Ecs.attach ctx cs)
  | hit {ctx} (h : Evolves start ctx) (c : Cache) (msg : Message) : Evolves start (c.withHit ctx msg)
  | fork {ctx} (h : Evolves start ctx) : Evolves start ctx.fork
  | absorb {ctx other} (h : Evolves start ctx) (ho : Evolves start other) :
      Evolves start (ctx.absorb other)

/-- Still the request that entered as `start`. -/
structure Entered (start ctx : QueryContext) : Prop where
  entryState : ctx.entryState = start.entryState
  pipelineEntry : ctx.pipelineEntry = start.pipelineEntry
  original : ctx.original = start.original
  clientAddr : ctx.clientAddr = start.clientAddr
  protocol : ctx.protocol = start.protocol

theorem Entered.edit {start ctx ctx' : QueryContext} (he : Edit ctx ctx') (h : Entered start ctx) :
    Entered start ctx' := by
  obtain ⟨h₁, h₂, h₃, h₄, h₅⟩ := h
  cases he with
  | trace plugin event =>
    obtain ⟨_, ht⟩ := ctx.pushTrace_eq plugin event
    rw [ht]
    exact ⟨h₁, h₂, h₃, h₄, h₅⟩
  | rewrite name =>
    obtain ⟨_, _, hr⟩ := ctx.rewriteName_eq name
    rw [hr]
    exact ⟨h₁, h₂, h₃, h₄, h₅⟩
  | _ => exact ⟨h₁, h₂, h₃, h₄, h₅⟩

theorem Evolves.entered {start ctx : QueryContext} (h : Evolves start ctx) : Entered start ctx := by
  induction h with
  | start => exact ⟨rfl, rfl, rfl, rfl, rfl⟩
  | edit _ he ih => exact ih.edit he
  | attach _ _ ih => exact ⟨ih.entryState, ih.pipelineEntry, ih.original, ih.clientAddr, ih.protocol⟩
  | hit _ _ _ ih => exact ⟨ih.entryState, ih.pipelineEntry, ih.original, ih.clientAddr, ih.protocol⟩
  | fork _ ih => exact ⟨ih.entryState, ih.pipelineEntry, ih.original, ih.clientAddr, ih.protocol⟩
  | absorb _ _ ih _ =>
    exact ⟨ih.entryState, ih.pipelineEntry, ih.original, ih.clientAddr, ih.protocol⟩

theorem Entered.cloneForLazy {start ctx : QueryContext} (h : Entered start ctx) :
    ctx.cloneForLazy = start.cloneForLazy := by
  simp only [QueryContext.cloneForLazy, h.entryState, h.pipelineEntry, h.original, h.clientAddr,
    h.protocol]

/-! ### The entry state -/

/-- The request as it entered, with caches passed by. -/
def reentry (ctx : QueryContext) (entry : Tag) : QueryContext :=
  { QueryContext.new ctx.original ctx.clientAddr ctx.protocol with
    query := ctx.query
    marks := ctx.marks
    stripEcsOnReply := ctx.stripEcsOnReply
    entryState := some ⟨ctx.query, ctx.marks, ctx.stripEcsOnReply⟩
    pipelineEntry := some entry
    skipCache := true }

theorem cloneForLazy_beginPipeline {ctx : QueryContext} (h : ctx.entryState = none) (entry : Tag) :
    (ctx.beginPipeline entry).cloneForLazy = reentry ctx entry := by
  simp only [beginPipeline, h, Option.isNone_none, if_true]
  rfl

/-- Entering the pipeline again captures nothing new. -/
theorem beginPipeline_reentry (ctx : QueryContext) (entry entry' : Tag) :
    (reentry ctx entry).beginPipeline entry' = reentry ctx entry := rfl

theorem alike_reentry {ctx : QueryContext} (h : ctx.entryState = none) (hresp : ctx.response = none)
    (hrw : ctx.rewrites = []) (entry : Tag) :
    Alike (ctx.beginPipeline entry) (reentry ctx entry) := by
  simp only [beginPipeline, h, Option.isNone_none, if_true, Alike, bare, reentry, new, hresp, hrw]

variable [Crates]

/-! ### Refreshes started in a pipeline -/

/-- Refreshes start from the entry state of `start`, at the entry `start` came through. -/
def contract (start : QueryContext) : Contract QueryContext Eff Eff.Answer where
  guar
    | .kick _ _ bg entry => bg = start.cloneForLazy ∧ ∀ e, start.pipelineEntry = some e → entry = e
    | _ => True
  rely _ _ := True
  held := Evolves start

theorem preserved (start : QueryContext) :
    Preserved (contract start) (Evolves start) fun _ => True where
  held := .rfl
  call _ := trivial
  count _ := trivial
  exchange _ _ := trivial
  clock := ⟨trivial, fun _ => trivial⟩
  overflow := trivial
  edit he h := h.edit he
  attach {e ctx ctx' cs} _ _ h _ := h.attach cs
  fork h := h.fork
  absorb h ho := h.absorb ho
  cache {c ctx} h := by
    refine Cache.exec_sat (fun _ => trivial) trivial (fun _ _ _ => trivial) (fun key entry _ => ?_) h
      (fun _ _ => h.edit (.trace _ _)) fun event msg _ => (h.edit (.trace _ _)).hit c msg
    refine ⟨h.entered.cloneForLazy, fun e he => ?_⟩
    rw [h.entered.pipelineEntry, he]
    rfl
  note _ _ := trivial
  store _ _ := Cache.storeLookup_sat trivial fun _ _ _ _ _ _ _ => trivial

/-! ### The replay -/

/-- A run of the steps arrives in front of `step` with all its matchers true. -/
def Reaches (reg : Registry) (depth : ℕ) (self : Tag) (pre : List Step) (step : Step)
    (ctx before : QueryContext) : Prop :=
  (∃ tr vs, Walk reg self (Executable.exec reg (depth + 1)) pre ctx tr vs before) ∧
    step.matchers.all (·.matches before)

variable {reg : Registry} {depth : ℕ} {self : Tag} {pre : List Step} {step : Step}

theorem Reaches.alike (hq : ∀ s ∈ pre, Quiet reg s.exec) {a b x : QueryContext}
    (h : Reaches reg depth self pre step a x) (hab : Alike a b) :
    ∃ y, Reaches reg depth self pre step b y := by
  obtain ⟨⟨tr, vs, hw⟩, hm⟩ := h
  obtain ⟨tr', vs', y, hw', hxy⟩ := hw.alike hq hab
  refine ⟨y, ⟨tr', vs', hw'⟩, ?_⟩
  rwa [← step.all_bare, ← hxy, step.all_bare]

/-- Whatever became of a request that entered the pipeline: a refresh restarts from the state it
entered with, also the refreshes started in it; entering again changes nothing; and from there the
refresh reaches a step behind quiet ones exactly when the request did, with the same key. -/
theorem replays (reg : Registry) (depth : ℕ) (self entry : Tag) (ctx x : QueryContext)
    (hnew : ctx.entryState = none) (hx : Evolves (ctx.beginPipeline entry) x) :
    x.cloneForLazy = reentry ctx entry ∧
    (∀ entry', x.cloneForLazy.beginPipeline entry' = x.cloneForLazy) ∧
    (∀ p tr q, Leads (Executable.exec reg depth p (ctx.beginPipeline entry)) tr q →
      ∀ c key bg entry' r, ⟨.kick c key bg entry', r⟩ ∈ tr →
        bg = reentry ctx entry ∧ entry' = entry) ∧
    (ctx.response = none → ctx.rewrites = [] → ∀ pre step, (∀ s ∈ pre, Quiet reg s.exec) →
      ((∃ b, Reaches reg depth self pre step (ctx.beginPipeline entry) b) ↔
        ∃ b, Reaches reg depth self pre step x.cloneForLazy b) ∧
      ∀ b b', Reaches reg depth self pre step (ctx.beginPipeline entry) b →
        Reaches reg depth self pre step x.cloneForLazy b' → ∀ everything,
          Cache.keyOf b.query everything = Cache.keyOf b'.query everything) := by
  have hstart := cloneForLazy_beginPipeline hnew entry
  have hclone : x.cloneForLazy = reentry ctx entry := hx.entered.cloneForLazy.trans hstart
  refine ⟨hclone, fun entry' => ?_, fun p tr q hl c key bg entry' r hev => ?_,
    fun hresp hrw pre step hq => ?_⟩
  · rw [hclone, beginPipeline_reentry]
  · have hsat := (preserved (ctx.beginPipeline entry)).exec_sat reg depth p _ .start
    obtain ⟨hbg, hentry⟩ := (hsat.leads hl fun _ _ => trivial).1 _ hev
    refine ⟨hbg.trans hstart, hentry entry ?_⟩
    simp [beginPipeline, hnew]
  · have halike : Alike (ctx.beginPipeline entry) x.cloneForLazy :=
      hclone ▸ alike_reentry hnew hresp hrw entry
    refine ⟨⟨fun ⟨b, hb⟩ => hb.alike hq halike, fun ⟨b, hb⟩ => hb.alike hq halike.symm⟩, ?_⟩
    rintro b b' ⟨⟨tr, vs, hw⟩, -⟩ ⟨⟨tr', vs', hw'⟩, -⟩ everything
    rw [(hw.unique hq hw' halike).query]

omit [Crates] in
/-- The sample request, marked after it entered. -/
theorem replays_marked : ((Sample.context.beginPipeline "main").addMark 1).cloneForLazy =
      reentry Sample.context "main" ∧
    ((∃ b, @Reaches Sample.codec Sample.resolver 3 "main" [⟨[], .Builtin (.Mark 1)⟩]
        ⟨[.Mark 1], .Plugin "cache"⟩ (Sample.context.beginPipeline "main") b) ↔
      ∃ b, @Reaches Sample.codec Sample.resolver 3 "main" [⟨[], .Builtin (.Mark 1)⟩]
        ⟨[.Mark 1], .Plugin "cache"⟩
          ((Sample.context.beginPipeline "main").addMark 1).cloneForLazy b) := by
  obtain ⟨hclone, -, -, hreach⟩ := @replays Sample.codec Sample.resolver 3 "main" "main"
    Sample.context _ rfl (.edit .start (.mark 1))
  exact ⟨hclone, (hreach rfl rfl _ _ (by simp [Quiet])).1⟩

end Replay

end FerrumDns
