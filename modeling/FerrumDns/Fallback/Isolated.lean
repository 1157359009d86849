import FerrumDns.Prog.Weave
import FerrumDns.Sample

/-! A fallback adopts one of its branches whole. In both modes a run is woven from the
primary under its timer and a run of the secondary, each on a fork of the same request;
the request takes over the primary's fork if that finished within the threshold with a
wanted answer, and the secondary's otherwise. Whether it did can be read off the run: the
timer looks at the clock wherever the primary suspends. Until then nothing of the request
has changed. What both branches promise of their outcomes carries over by one rule for both
modes. -/

namespace FerrumDns

open Prog

namespace Fallback

/-- The context has all the results of another one. -/
structure Adopts (ctx other : QueryContext) : Prop where
  query : ctx.query = other.query
  response : ctx.response = other.response
  marks : ctx.marks = other.marks
  rewrites : ctx.rewrites = other.rewrites
  stripEcsOnReply : ctx.stripEcsOnReply = other.stripEcsOnReply
  skipCache : ctx.skipCache = other.skipCache
  servedFromCache : ctx.servedFromCache = other.servedFromCache

/-- How a primary fares under its timer. It is set at `start`, and as long as it is looked at before
the threshold has passed since, the primary goes on until it ends; the first time it is looked at
later, the primary is given up where it is suspended. -/
def Timed (f : Fallback) (p : Run Outcome) (l : Trace) (timed : Except QueryContext Outcome) :
    Prop :=
  ∃ (start : ℕ) (l' : Trace), l = ⟨.now, start⟩ :: l' ∧
    Limited (.timer (start + f.threshold)) (fun (t : ℕ) => start + f.threshold ≤ t) p l' timed

/-- The primary finished within the threshold, without error and with a wanted answer. -/
def Prevails (first : Except QueryContext Outcome) (pctx : QueryContext) : Prop :=
  ∃ a, first = .ok (pctx, .ok a) ∧ pctx.hasWantedAns = true

/-- Equal but for the trace. -/
def SameButTrace (ctx ctx' : QueryContext) : Prop := ∃ trace, ctx = { ctx' with trace }

theorem adopts_refl (ctx : QueryContext) : Adopts ctx ctx := ⟨rfl, rfl, rfl, rfl, rfl, rfl, rfl⟩

theorem pushTrace_adopts (ctx : QueryContext) (plugin event : String) :
    Adopts (ctx.pushTrace plugin event) ctx := by
  obtain ⟨_, h⟩ := ctx.pushTrace_eq plugin event
  rw [h]
  exact ⟨rfl, rfl, rfl, rfl, rfl, rfl, rfl⟩

theorem absorb_adopts (ctx other : QueryContext) : Adopts (ctx.absorb other) other :=
  ⟨rfl, rfl, rfl, rfl, rfl, rfl, rfl⟩

theorem wanted_eq_some {first : Except QueryContext Outcome} {pctx : QueryContext} :
    wanted first = some pctx ↔ Prevails first pctx := by
  constructor
  · intro h
    cases first with
    | error s => cases h
    | ok o =>
      obtain ⟨c, r⟩ := o
      cases r with
      | error e => cases h
      | ok a =>
        simp only [wanted] at h
        split_ifs at h with hw
        cases h
        exact ⟨a, rfl, hw⟩
  · rintro ⟨a, rfl, hw⟩
    exact if_pos hw

/-- Tracing does not show in a fork. -/
theorem fork_pushTrace (ctx : QueryContext) (plugin event : String) :
    (ctx.pushTrace plugin event).fork = ctx.fork := by
  obtain ⟨_, h⟩ := ctx.pushTrace_eq plugin event
  rw [h]
  rfl

variable {reg : Registry} {call : Executable → QueryContext → Run Outcome}

/-! ### One run -/

theorem limited_timed {f : Fallback} {p : Run Outcome} {l : Trace}
    {timed : Except QueryContext Outcome} (h : Ends (f.limited p) l timed) : f.Timed p l timed := by
  obtain ⟨start, l', rfl, h'⟩ := ends_act h
  exact ⟨start, l', rfl, ends_limit h'⟩

/-- An outcome in time is one of the primary. -/
theorem Timed.ends {f : Fallback} {p : Run Outcome} {l : Trace} {o : Outcome}
    (h : f.Timed p l (.ok o)) : ∃ own, Ends p own o := by
  obtain ⟨_, _, _, own, _, _, hends, _⟩ := h
  exact ⟨own, hends⟩

/-- What a run with this primary result, and this secondary run if it was needed, comes to. -/
def Comes (f : Fallback) (ctx : QueryContext) (second : Run Outcome)
    (first : Except QueryContext Outcome) (r : Trace) (o : Outcome) : Prop :=
  (∃ pctx rest, wanted first = some pctx ∧ Leads second r rest ∧ o = f.usePrimary ctx pctx) ∨
    ∃ so, wanted first = none ∧ Ends second r so ∧ o = f.useSecondary ctx so

/-- A run is woven from the primary under its timer and the secondary. -/
def Runs (f : Fallback) (ctx : QueryContext) (first second : Run Outcome) (tr : Trace)
    (o : Outcome) : Prop :=
  ∃ l r timed, Woven l r tr ∧ f.Timed first l timed ∧ Comes f ctx second timed r o

theorem reserve_runs {f : Fallback} {ctx : QueryContext} {p s : Executable} {tr : Trace}
    {o : Outcome} (h : Ends (reserve call f ctx p s) tr o) :
    Runs f ctx (call p ctx.fork) (call s ctx.fork) tr o := by
  obtain ⟨l, tr', timed, rfl, hl, h'⟩ := ends_bind h
  cases hw : wanted timed with
  | some pctx =>
    rw [hw] at h'
    obtain ⟨rfl, rfl⟩ := ends_done h'
    exact ⟨l, [], timed, .append l [], limited_timed (ends_hold hl),
      .inl ⟨pctx, _, hw, .refl _, rfl⟩⟩
  | none =>
    rw [hw] at h'
    dsimp only at h'
    obtain ⟨r, tr'', so, rfl, hr, h''⟩ := ends_bind h'
    obtain ⟨rfl, rfl⟩ := ends_done h''
    rw [fork_pushTrace] at hr
    refine ⟨l, r, timed, ?_, limited_timed (ends_hold hl), .inr ⟨so, hw, ends_hold hr, rfl⟩⟩
    rw [List.append_nil]
    exact .append l r

theorem standby_runs {f : Fallback} {ctx : QueryContext} {p s : Executable} {tr : Trace}
    {o : Outcome} (h : Ends (standby call f ctx p s) tr o) :
    Runs f ctx (call p ctx.fork) (call s ctx.fork) tr o := by
  obtain ⟨tr₁, tr₂, winner, rfl, h₁, h₂⟩ := ends_bind h
  obtain ⟨l, r, hwoven, hgot⟩ := ends_select (ends_hold h₁)
  cases winner with
  | inl x =>
    obtain ⟨timed, rest⟩ := x
    obtain ⟨hl, hr⟩ := hgot
    dsimp only at h₂
    cases hw : wanted timed with
    | some pctx =>
      rw [hw] at h₂
      obtain ⟨rfl, rfl⟩ := ends_done h₂
      rw [List.append_nil]
      exact ⟨l, r, timed, hwoven, limited_timed hl, .inl ⟨pctx, rest, hw, hr, rfl⟩⟩
    | none =>
      rw [hw] at h₂
      obtain ⟨r', tr₃, so, rfl, hr', h₃⟩ := ends_bind h₂
      obtain ⟨rfl, rfl⟩ := ends_done h₃
      refine ⟨l, r ++ r', timed, ?_, limited_timed hl, .inr ⟨so, hw, hr.trans (ends_hold hr'), rfl⟩⟩
      simpa using hwoven.concat_right r'
  | inr x =>
    obtain ⟨so, rest⟩ := x
    obtain ⟨hl, hr⟩ := hgot
    obtain ⟨l', tr₃, timed, rfl, hl', h₃⟩ := ends_bind h₂
    have hwoven' := hwoven.concat_left l'
    have hl := limited_timed (hl.trans (ends_hold hl'))
    cases hw : wanted timed with
    | some pctx =>
      rw [hw] at h₃
      obtain ⟨rfl, rfl⟩ := ends_done h₃
      rw [List.append_nil]
      exact ⟨l ++ l', r, timed, hwoven', hl, .inl ⟨pctx, _, hw, hr, rfl⟩⟩
    | none =>
      rw [hw] at h₃
      obtain ⟨rfl, rfl⟩ := ends_done h₃
      rw [List.append_nil]
      exact ⟨l ++ l', r, timed, hwoven', hl, .inr ⟨so, hw, hr, rfl⟩⟩

/-- The branches are found or the call fails at once, in both modes alike. -/
theorem exec_runs {f : Fallback} {ctx : QueryContext} {tr : Trace} {o : Outcome}
    (h : Ends (f.exec reg call ctx) tr o) :
    (∃ e, (reg.getExec f.primary = .error e ∨ reg.getExec f.secondary = .error e) ∧ tr = [] ∧
      o = (ctx, .error e)) ∨
    ∃ p s, reg.getExec f.primary = .ok p ∧ reg.getExec f.secondary = .ok s ∧
      Runs f ctx (call p ctx.fork) (call s ctx.fork) tr o := by
  rw [exec] at h
  cases hp : reg.getExec f.primary with
  | error e =>
    rw [hp] at h
    obtain ⟨rfl, rfl⟩ := ends_done h
    exact .inl ⟨e, .inl rfl, rfl, rfl⟩
  | ok p =>
    rw [hp] at h
    cases hs : reg.getExec f.secondary with
    | error e =>
      rw [hs] at h
      obtain ⟨rfl, rfl⟩ := ends_done h
      exact .inl ⟨e, .inr rfl, rfl, rfl⟩
    | ok s =>
      rw [hs] at h
      dsimp only at h
      split_ifs at h
      · exact .inr ⟨p, s, rfl, rfl, standby_runs h⟩
      · exact .inr ⟨p, s, rfl, rfl, reserve_runs h⟩

/-! ### Contracts -/

section Contracts

variable {C : Contract QueryContext Eff Eff.Answer} {P Q : Outcome → Prop} {f : Fallback}
  {ctx : QueryContext}

/-- What holds of the primary's outcome holds of it if it is taken over. -/
theorem of_wanted {first : Except QueryContext Outcome} (h : C.Timed P first) {pctx : QueryContext}
    (hw : wanted first = some pctx) : ∃ a, P (pctx, .ok a) := by
  obtain ⟨a, rfl, -⟩ := wanted_eq_some.1 hw
  exact ⟨a, h⟩

variable (hclock : C.guar .now ∧ ∀ d, C.guar (.timer d))

include hclock in
theorem limited_sat {p : Run Outcome} (hp : p.Sat C.loose P) :
    (f.limited p).Sat C.loose (C.loose.Timed P) :=
  ⟨hclock.1, fun _ _ => Sat.limit (hclock.2 _) hp⟩

variable (hfirst : ∀ pctx a, P (pctx, .ok a) → Q (f.usePrimary ctx pctx))
  (hsecond : ∀ o, P o → Q (f.useSecondary ctx o))

include hclock hfirst hsecond

theorem reserve_sat {p s : Executable} (hheld : C.held ctx)
    (htraced : C.held (ctx.pushTrace f.tag "secondary")) (hp : (call p ctx.fork).Sat C.loose P)
    (hs : (call s ctx.fork).Sat C.loose P) : (reserve call f ctx p s).Sat C Q := by
  refine ((limited_sat hclock hp).hold hheld).bind fun timed htimed => ?_
  cases hw : wanted timed with
  | some pctx =>
    obtain ⟨a, ha⟩ := of_wanted htimed hw
    exact hfirst pctx a ha
  | none =>
    dsimp only
    rw [fork_pushTrace]
    exact (hs.hold htraced).bind fun o ho => hsecond o ho

theorem standby_sat {p s : Executable} (hheld : C.held ctx) (hp : (call p ctx.fork).Sat C.loose P)
    (hs : (call s ctx.fork).Sat C.loose P) : (standby call f ctx p s).Sat C Q := by
  refine (((limited_sat hclock hp).select hs).hold hheld).bind fun winner hwin => ?_
  cases winner with
  | inl x =>
    obtain ⟨timed, rest⟩ := x
    obtain ⟨htimed, hrest⟩ := hwin
    cases hw : wanted timed with
    | some pctx =>
      obtain ⟨a, ha⟩ := of_wanted htimed hw
      simp only [hw]
      exact hfirst pctx a ha
    | none =>
      simp only [hw]
      exact (Sat.hold hrest hheld).bind fun o ho => hsecond o ho
  | inr x =>
    obtain ⟨o, rest⟩ := x
    obtain ⟨ho, hrest⟩ := hwin
    refine (Sat.hold hrest hheld).bind fun timed htimed => ?_
    cases hw : wanted timed with
    | some pctx =>
      obtain ⟨a, ha⟩ := of_wanted htimed hw
      exact hfirst pctx a ha
    | none => exact hsecond o ho

/-- The rule for a fallback, which may look at the clock: each branch meets `P` on a fork of the
request, whatever it shows while the request is suspended, and what is taken over meets `Q`. -/
theorem exec_sat (hheld : C.held ctx) (htraced : C.held (ctx.pushTrace f.tag "secondary"))
    (hmissing : ∀ tag e, tag = f.primary ∨ tag = f.secondary → reg.getExec tag = .error e →
      Q (ctx, .error e))
    (hbranch : ∀ tag p, tag = f.primary ∨ tag = f.secondary → reg.getExec tag = .ok p →
      (call p ctx.fork).Sat C.loose P) : (f.exec reg call ctx).Sat C Q := by
  rw [exec]
  cases hp : reg.getExec f.primary with
  | error e => exact hmissing _ e (.inl rfl) hp
  | ok p =>
    cases hs : reg.getExec f.secondary with
    | error e => exact hmissing _ e (.inr rfl) hs
    | ok s =>
      have hprimary := hbranch _ p (.inl rfl) hp
      have hsecondary := hbranch _ s (.inr rfl) hs
      dsimp only
      split_ifs
      · exact standby_sat hclock hfirst hsecond hheld hprimary hsecondary
      · exact reserve_sat hclock hfirst hsecond hheld htraced hprimary hsecondary

end Contracts

/-! ### Cancellation -/

/-- While suspended the request has all its own results. -/
def untouched (ctx : QueryContext) : Contract QueryContext Eff Eff.Answer where
  guar := fun _ => True
  rely := fun _ _ => True
  held := fun s => Adopts s ctx

theorem held_untouched {ctx s : QueryContext} (hs : Adopts s ctx) {α : Type} (p : Run α) :
    (p.hold s).Sat (untouched ctx) fun _ => True :=
  Sat.hold (Sat.unconditional p fun _ => trivial) hs

theorem exec_untouched (f : Fallback) (ctx : QueryContext) :
    (f.exec reg call ctx).Sat (untouched ctx) fun _ => True := by
  have secondary (s : Executable) : ((call s (ctx.pushTrace f.tag "secondary").fork).hold
      (ctx.pushTrace f.tag "secondary")).Sat (untouched ctx) fun _ => True :=
    held_untouched (pushTrace_adopts ctx f.tag "secondary") _
  rw [exec]
  cases reg.getExec f.primary with
  | error e => trivial
  | ok p =>
    cases reg.getExec f.secondary with
    | error e => trivial
    | ok s =>
      dsimp only
      split_ifs
      · refine (held_untouched (adopts_refl ctx) _).bind fun winner _ => ?_
        cases winner with
        | inl x =>
          dsimp only
          cases wanted x.1 with
          | some pctx => trivial
          | none => exact (held_untouched (adopts_refl ctx) _).bind fun _ _ => trivial
        | inr x =>
          refine (held_untouched (adopts_refl ctx) _).bind fun first _ => ?_
          cases wanted first with
          | some pctx => trivial
          | none => trivial
      · refine (held_untouched (adopts_refl ctx) _).bind fun first _ => ?_
        cases wanted first with
        | some pctx => trivial
        | none => exact (secondary s).bind fun _ _ => trivial

/-! ### Both modes -/

/-- What the request is left with, the trace apart, when both results are known. -/
def settled (ctx : QueryContext) (first : Except QueryContext Outcome) (so : Outcome) : Outcome :=
  match wanted first with
  | some pctx => (ctx.absorb pctx, .ok .Continue)
  | none => (ctx.absorb so.1, so.2.map fun _ => .Continue)

theorem absorb_pushTrace (ctx other : QueryContext) (plugin event : String) :
    SameButTrace ((ctx.pushTrace plugin event).absorb other) (ctx.absorb other) := by
  obtain ⟨_, h⟩ := ctx.pushTrace_eq plugin event
  rw [h]
  exact ⟨_, rfl⟩

/-- A run is left with what its two results come to. -/
theorem Comes.settled {f : Fallback} {ctx : QueryContext} {second : Run Outcome}
    {first : Except QueryContext Outcome} {r : Trace} {o so : Outcome}
    (h : Comes f ctx second first r o) (hso : ∀ tr o, Ends second tr o → o = so) :
    SameButTrace o.1 (settled ctx first so).1 ∧ o.2 = (settled ctx first so).2 := by
  rw [Fallback.settled]
  rcases h with ⟨pctx, rest, hwant, -, rfl⟩ | ⟨so', hwant, hr, rfl⟩
  · rw [hwant]
    exact ⟨absorb_pushTrace _ _ _ _, rfl⟩
  · rw [hwant, hso r so' hr]
    exact ⟨absorb_pushTrace _ _ _ _, rfl⟩

/-- A primary with one outcome has it in time, or is late. -/
theorem Timed.settled {f : Fallback} {p : Run Outcome} {l : Trace}
    {timed : Except QueryContext Outcome} {po : Outcome} (h : f.Timed p l timed)
    (hpo : ∀ tr o, Ends p tr o → o = po) (ctx : QueryContext) (so : Outcome) :
    Fallback.settled ctx timed so = if timed.isOk then Fallback.settled ctx (.ok po) so
      else Fallback.settled ctx (.error ctx) so := by
  cases timed with
  | error c => rfl
  | ok o =>
    obtain ⟨own, hends⟩ := h.ends
    rw [hpo own o hends]
    rfl

/-- A fallback takes over the results of one branch, the primary's if it finished within the threshold
with a wanted answer and the secondary's otherwise; both branches start from a fork of the request as
it was. Wherever it is suspended the request still has all its own results. If each branch has only one
outcome, then both modes leave the same request for a primary in time, and the same for a late one. -/
theorem exec_isolated (reg : Registry) (call : Executable → QueryContext → Run Outcome) (f : Fallback)
    (ctx : QueryContext) :
    (∀ tr o, Ends (f.exec reg call ctx) tr o →
      (∃ e, (reg.getExec f.primary = .error e ∨ reg.getExec f.secondary = .error e) ∧ tr = [] ∧
        o = (ctx, .error e)) ∨
      ∃ p s l r timed, reg.getExec f.primary = .ok p ∧ reg.getExec f.secondary = .ok s ∧
        Woven l r tr ∧ f.Timed (call p ctx.fork) l timed ∧
        (∃ rest, Leads (call s ctx.fork) r rest) ∧
        ((∃ pctx, Prevails timed pctx ∧ Adopts o.1 pctx ∧ o.2 = .ok .Continue) ∨
          ((∀ pctx, ¬ Prevails timed pctx) ∧ ∃ so, Ends (call s ctx.fork) r so ∧
            Adopts o.1 so.1 ∧ o.2 = so.2.map fun _ => .Continue))) ∧
    (∀ tr s k, Leads (f.exec reg call ctx) tr (.await s k) → Adopts s ctx) ∧
    (∀ p s po so, reg.getExec f.primary = .ok p → reg.getExec f.secondary = .ok s →
      (∀ tr o, Ends (call p ctx.fork) tr o → o = po) →
      (∀ tr o, Ends (call s ctx.fork) tr o → o = so) →
      ∃ inTime late : Outcome, ∀ alwaysStandby tr o,
        Ends ({ f with alwaysStandby }.exec reg call ctx) tr o →
        ∃ l r timed, Woven l r tr ∧ f.Timed (call p ctx.fork) l timed ∧
          SameButTrace o.1 (if timed.isOk then inTime else late).1 ∧
          o.2 = (if timed.isOk then inTime else late).2) := by
  refine ⟨fun tr o h => ?_, fun tr s k h => ?_, fun p s po so hp hs hpo hso => ?_⟩
  · refine (exec_runs h).imp_right ?_
    rintro ⟨p, s, hp, hs, l, r, timed, hw, hl, hcomes⟩
    refine ⟨p, s, l, r, timed, hp, hs, hw, hl, ?_⟩
    rcases hcomes with ⟨pctx, rest, hwant, hr, rfl⟩ | ⟨so, hwant, hr, rfl⟩
    · exact ⟨⟨rest, hr⟩, .inl ⟨pctx, wanted_eq_some.1 hwant, absorb_adopts _ _, rfl⟩⟩
    · refine ⟨⟨_, hr⟩, .inr ⟨fun pctx hpre => ?_, so, hr, absorb_adopts _ _, rfl⟩⟩
      rw [wanted_eq_some.2 hpre] at hwant
      cases hwant
  · exact (((exec_untouched f ctx).leads h fun _ _ => trivial).2).1
  · refine ⟨settled ctx (.ok po) so, settled ctx (.error ctx) so, fun alwaysStandby tr o h => ?_⟩
    rcases exec_runs h with ⟨e, he, -⟩ | ⟨p', s', hp', hs', l, r, timed, hw, hl, hcomes⟩
    · rcases he with he | he
      · cases hp.symm.trans he
      · cases hs.symm.trans he
    · obtain rfl := Except.ok.inj (hp.symm.trans hp')
      obtain rfl := Except.ok.inj (hs.symm.trans hs')
      refine ⟨l, r, timed, hw, hl, ?_⟩
      rw [← hl.settled hpo]
      exact hcomes.settled hso

/-! ### A server that answers, and one that does not -/

section Sample

open Sample

/-- A server to ask, and a refusal in reserve. -/
def duo : Registry := registry [("up", .forward forward), ("no", .blackhole ⟨.NXDomain⟩)] rfl

def backed (alwaysStandby : Bool) : Fallback where
  tag := "backed"
  primary := "up"
  secondary := "no"
  threshold := millis 500
  alwaysStandby

/-- Half a second passes whenever a timer is looked at. -/
def passing [Crates] : Oracle World Owner QueryContext Eff Eff.Answer
  | w, .timer _ => some (w.clock, { w with clock := w.clock + millis 500 }, [])
  | w, e => Resolver.oracle duo 1 (answering answer) w e

/-- Run with `ready` primaries, or with primaries that are not. -/
def timedRun (alwaysStandby ready : Bool) : Option (Trace × Outcome × World × List Task) :=
  ((backed alwaysStandby).exec duo (@Executable.exec codec duo 1) context).play (@passing codec) ready
    world

/-- The only outcome of the refusal. -/
theorem refusal_outcome {ctx : QueryContext} {tr : Trace} {o : Outcome}
    (h : Ends (@Executable.exec codec duo 1 (.blackhole ⟨.NXDomain⟩) ctx) tr o) :
    o = (ctx.reject .NXDomain, .ok .Continue) := by
  obtain ⟨_, _, -, h⟩ := ends_act h
  exact (ends_done h).2.symm

/-- Alone, the server answers in time and its answer is taken over. Next to the refusal, it is given
up half a second later and the refusal is taken over. -/
theorem exec_isolated_modes :
    (∃ tr o l timed pctx, Ends ((backed false).exec duo (@Executable.exec codec duo 1) context) tr o ∧
      (backed false).Timed (@Executable.exec codec duo 1 (.forward forward) context.fork) l timed ∧
      Prevails timed pctx ∧ Adopts o.1 pctx ∧ o.1.response = some answer) ∧
    ∃ tr o l timed, Ends ((backed true).exec duo (@Executable.exec codec duo 1) context) tr o ∧
      (backed true).Timed (@Executable.exec codec duo 1 (.forward forward) context.fork) l timed ∧
      (∀ pctx, ¬ Prevails timed pctx) ∧ Adopts o.1 (context.fork.reject .NXDomain) := by
  have hin : (timedRun false true).map (fun x => x.2.1.1.response) = some (some answer) := by
    decide +kernel
  have hlate : (timedRun true false).map (fun x => x.2.1.1.response) =
      some (some (Dnsutil.replySkeleton query .NXDomain)) := by decide +kernel
  obtain ⟨⟨tr, o, w, new⟩, hplay, hresp⟩ := Option.map_eq_some_iff.1 hin
  obtain ⟨⟨tr', o', w', new'⟩, hplay', hresp'⟩ := Option.map_eq_some_iff.1 hlate
  have hends := play_ends hplay
  have hends' := play_ends hplay'
  refine ⟨?_, ?_⟩
  · rcases (exec_isolated _ _ _ _).1 tr o hends with ⟨e, he, -⟩ |
      ⟨p, s, l, r, timed, hp, hs, -, hl, -, ⟨pctx, hpre, hadopts, -⟩ | ⟨-, so, hso, hadopts, -⟩⟩
    · exact absurd he (by rintro (h | h) <;> cases h)
    · cases hp
      exact ⟨tr, o, l, timed, pctx, hends, hl, hpre, hadopts, hresp⟩
    · cases hs
      rw [refusal_outcome hso] at hadopts
      have hother := hadopts.response.symm.trans hresp
      exact absurd hother (by decide +kernel)
  · rcases (exec_isolated _ _ _ _).1 tr' o' hends' with ⟨e, he, -⟩ |
      ⟨p, s, l, r, timed, hp, hs, -, hl, -,
        ⟨pctx, ⟨a, -, hwanted⟩, hadopts, -⟩ | ⟨hno, so, hso, hadopts, -⟩⟩
    · exact absurd he (by rintro (h | h) <;> cases h)
    · rw [QueryContext.hasWantedAns, ← hadopts.response, hresp'] at hwanted
      cases hwanted
    · cases hp
      cases hs
      rw [refusal_outcome hso] at hadopts
      exact ⟨tr', o', l, timed, hends', hl, hno, hadopts⟩

end Sample

end Fallback

end FerrumDns
