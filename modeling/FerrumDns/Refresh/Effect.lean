import FerrumDns.Refresh.Bypass

/-! What a refresh brings about. Once it has written its response to a cache, every
look-up of the key finds what it wrote or something written later. But a refresh writes
only a response that can be stored: when the name is gone upstream, the entry it was to
renew stays, and is served on. -/

namespace FerrumDns

open Prog Dnsutil Sequence Resolver Bypass

namespace RefreshEffect

/-- The context a refresh task runs its pipeline on. -/
def started (ctx : QueryContext) (entry : Tag) : QueryContext := ctx.cloneForLazy.beginPipeline entry

theorem started_flags (ctx : QueryContext) (entry : Tag) :
    (started ctx entry).skipCache = true ∧ (started ctx entry).servedFromCache = false := by
  rw [started, QueryContext.beginPipeline, QueryContext.cloneForLazy]
  cases ctx.entryState <;> exact ⟨rfl, rfl⟩

variable [Crates]

/-- A refresh runs through its sequence while the resolver goes from `p` to `q`, executes the step
of a cache and ends with a response that can be stored there. Then the write is one of the actions
on the way to `q`, and a look-up of its key in any later state finds the entry it wrote, or one
written after it. -/
theorem takes_effect (reg : Registry) (depth depth' : ℕ) (seq : Sequence) (ctx : QueryContext)
    (entry : Tag) (final : QueryContext) (a : Action) (own : Trace) (p q r : State) (tr tr' : Trace)
    (hrun : Ends (seq.run reg (Executable.exec reg depth') (started ctx entry)) own (final, .ok a))
    (h : Runs reg depth p tr q) (hown : own.Sublist tr) (h' : Runs reg depth q tr' r) :
    ∃ inner out vs, own = inner ++ out ∧
      Pass reg (Executable.exec reg depth') seq.tag seq.steps (started ctx entry) inner vs
        (final, .ok a) ∧
      ∀ c before lookup response wire, (c.tag, before) ∈ vs → reg.caches c.tag = some c →
        c.snapshot before = some lookup → Admissible final lookup response wire →
        ∃ u v now, tr = u ++ ⟨.insert c lookup final.source (c.entryAt wire (minTtl response) now),
            ()⟩ :: v ∧
          ∀ clock hit, ((r.world.caches c.tag).lookup c lookup.key clock).1 = some hit →
            ∃ e, (r.world.caches c.tag).found lookup.key = some e ∧ hit.wire = e.wire ∧
              (e = c.entryAt wire (minTtl response) now ∨
                ∃ ev ∈ v ++ tr', Inserts c.tag lookup.key e ev) := by
  obtain ⟨hskip, hserved⟩ := started_flags ctx entry
  obtain ⟨inner, out, vs, rfl, hpass, hfills⟩ := fills_run hserved ⟨hskip, id⟩ hrun
  refine ⟨inner, out, vs, rfl, hpass, ?_⟩
  intro c before lookup response wire hv hc hs hadm
  obtain ⟨now, hins⟩ := hfills c.tag before c lookup response wire hv hc hs hadm
  obtain ⟨u, v, htr⟩ := List.append_of_mem (hown.subset (List.mem_append_right inner hins))
  refine ⟨u, v, now, htr, fun clock hit hl => ?_⟩
  obtain ⟨e, hfound, -, rfl⟩ := CacheState.lookup_eq_some hl
  have hall : Runs reg depth p
      (u ++ ⟨.insert c lookup final.source (c.entryAt wire (minTtl response) now), ()⟩ ::
        (v ++ tr')) r := by
    simpa [htr] using h.trans h'
  exact ⟨e, hfound, rfl, found_after hall hfound⟩

/-! ### A name that is gone -/

section Sample

omit [Crates]

open Sample

/-- There is no such name. -/
def missing : Message := replySkeleton query .NXDomain

/-- The sequence of the sample, run as a refresh that gets the answer. -/
theorem refresh_plays : ∃ own final w,
    (@Sequence.run codec resolver (@Executable.exec codec resolver 3) main
      (started context "main")).play (@oracle codec resolver 3 (answering answer)) false world =
        some (own, (final, .ok .Continue), w, []) := by
  have h : ((@Sequence.run codec resolver (@Executable.exec codec resolver 3) main
      (started context "main")).play (@oracle codec resolver 3 (answering answer)) false world).map
        (fun x => (x.2.1.2, x.2.2.2.length)) = some (.ok .Continue, 0) := by decide +kernel
  obtain ⟨⟨own, ⟨final, res⟩, w, new⟩, hp, hx⟩ := Option.map_eq_some_iff.1 h
  simp only [Prod.mk.injEq, List.length_eq_zero_iff] at hx
  obtain ⟨rfl, rfl⟩ := hx
  exact ⟨own, final, w, hp⟩

/-- That refresh has its effect. -/
theorem takes_effect_answer : ∃ tr, ∃ p q : State, @Runs codec resolver 3 p tr q ∧
    ∃ inner vs final, @Pass codec resolver (@Executable.exec codec resolver 3) "main" main.steps
      (started context "main") inner vs (final, .ok .Continue) ∧
    ∀ before lookup response wire, ("cache", before) ∈ vs →
      @Cache.snapshot codec cache before = some lookup →
      @Admissible codec final lookup response wire →
      ∀ clock hit, ((q.world.caches "cache").lookup cache lookup.key clock).1 = some hit →
        ∃ e, (q.world.caches "cache").found lookup.key = some e ∧ hit.wire = e.wire := by
  obtain ⟨own, final, w, hp⟩ := refresh_plays
  have htask := play_bind (f := fun _ => .done ()) hp rfl
  have hrun := Pool.play_run (@machine_allows codec resolver 3 (answering answer)) htask [] [] none
  obtain ⟨inner, out, vs, rfl, hpass, heffect⟩ := @takes_effect codec resolver 3 3 main context
    "main" final .Continue own _ _ _ _ [] (play_ends hp) hrun (by simp) (.refl _)
  refine ⟨_, _, _, hrun, inner, vs, final, hpass, ?_⟩
  intro before lookup response wire hv hs hadm clock hit hl
  obtain ⟨u, v, now, -, hfound⟩ := heffect cache before lookup response wire hv rfl hs hadm
  obtain ⟨e, he, hw, -⟩ := hfound clock hit hl
  exact ⟨e, he, hw⟩

/-- The exchange was answered with this message. -/
def answered (m : Message) : Event Eff Eff.Answer → Bool
  | ⟨.exchange _ _, r⟩ =>
    match r.2 with
    | .ok m' => m' = m
    | .error _ => false
  | _ => false

/-- The first request stores the answer, the second one, a minute later, starts a refresh, and the
refresh learns that the name is gone. -/
theorem refresh_fails : ∃ tr w tr' w' task tr'' w'', played answer world = some (tr, (), w, []) ∧
    w.clock ≤ secs 60 ∧
    played answer { w with clock := secs 60 } =
      some (tr', (), w', [(some ⟨"cache", key⟩, task)]) ∧
    ((w'.caches "cache").lookup cache key w'.clock).1 = some ⟨answerWire, true, 0⟩ ∧
    task.play (@oracle codec resolver 4 (answering missing)) false w' = some (tr'', (), w'', []) ∧
    tr''.any (answered missing) ∧
    (((w''.free ⟨"cache", key⟩).caches "cache").lookup cache key w''.clock).1 =
      some ⟨answerWire, true, 0⟩ := by
  have h : ((played answer world).bind fun x =>
      (played answer { x.2.2.1 with clock := secs 60 }).bind fun y => y.2.2.2.head?.bind fun t =>
        (t.2.play (@oracle codec resolver 4 (answering missing)) false y.2.2.1).map fun z =>
          (x.2.2.2.isEmpty && x.2.2.1.clock == 0 && y.2.2.2.tail.isEmpty && z.2.2.2.isEmpty &&
            z.1.any (answered missing), t.1,
            ((y.2.2.1.caches "cache").lookup cache key y.2.2.1.clock).1,
            (((z.2.2.1.free ⟨"cache", key⟩).caches "cache").lookup cache key z.2.2.1.clock).1)) =
      some (true, some ⟨"cache", key⟩, some ⟨answerWire, true, 0⟩, some ⟨answerWire, true, 0⟩) := by
    decide +kernel
  obtain ⟨⟨tr, u, w, new⟩, hp, hx⟩ := Option.bind_eq_some_iff.1 h
  obtain ⟨⟨tr', u', w', new'⟩, hp', hy⟩ := Option.bind_eq_some_iff.1 hx
  obtain ⟨⟨owner, task⟩, hhead, hz⟩ := Option.bind_eq_some_iff.1 hy
  obtain ⟨⟨tr'', u'', w'', new''⟩, hp'', hz⟩ := Option.map_eq_some_iff.1 hz
  simp only [Prod.mk.injEq, Bool.and_eq_true, List.isEmpty_iff, beq_iff_eq] at hz
  obtain ⟨⟨⟨⟨⟨rfl, hclock⟩, htail⟩, rfl⟩, hany⟩, rfl, hhit, hhit'⟩ := hz
  have hnew : new' = (some ⟨"cache", key⟩, task) :: new'.tail := List.eq_cons_of_mem_head? hhead
  rw [htail] at hnew
  subst hnew
  exact ⟨tr, w, tr', w', task, tr'', w'', hp, by omega, hp', hhit, hp'', hany, hhit'⟩

/-- A refresh that got a usable response has come to its end, and the entry it was to renew is
still served. -/
theorem kept_by_missing : isUsableResponse missing ∧ ∃ tr, ∃ q : State, ∃ task tr', ∃ r : State,
    @Runs codec resolver 4 ⟨world, []⟩ tr q ∧ q.tasks = [(some ⟨"cache", key⟩, task)] ∧
    ((q.world.caches "cache").lookup cache key q.world.clock).1 = some ⟨answerWire, true, 0⟩ ∧
    Ends task tr' () ∧ tr'.any (answered missing) ∧
    @Runs codec resolver 4 q tr' r ∧ r.tasks = [] ∧
    ((r.world.caches "cache").lookup cache key r.world.clock).1 = some ⟨answerWire, true, 0⟩ := by
  obtain ⟨tr, w, tr', w', task, tr'', w'', hp, ht, hp', hhit, hp'', hany, hhit'⟩ := refresh_fails
  have htick : @Runs codec resolver 4 ⟨w, []⟩ [] ⟨{ w with clock := secs 60 }, []⟩ :=
    .step (.drift (Drift.tick ht)) (.refl _)
  have hrun := (played_runs hp []).trans (htick.trans (played_runs hp' []))
  have hrefresh := Pool.play_run (@machine_allows codec resolver 4 (answering missing)) hp'' [] []
    (some ⟨"cache", key⟩)
  have hleave : @Runs codec resolver 4 ⟨w'', [(some ⟨"cache", key⟩, .done ())]⟩ []
      ⟨w''.free ⟨"cache", key⟩, []⟩ :=
    .step (@Pool.Step.leave _ _ _ _ _ _ _ [] [] _ _) (.refl _)
  refine ⟨rfl, _, _, task, tr'', ⟨w''.free ⟨"cache", key⟩, []⟩, hrun, rfl, hhit, play_ends hp'', hany,
    ?_, rfl, hhit'⟩
  simpa using hrefresh.trans hleave

end Sample

end RefreshEffect

end FerrumDns
