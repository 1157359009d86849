import FerrumDns.Plugin.Forward
import Mathlib.Data.List.Perm.Basic
import Mathlib.Data.List.Range

/-! The race of upstream servers. Each raced exchange has a result of its own, and the
exchanges end in some order; the loop sees that order up to the first usable response.
What it leaves in the context is a function of the results in that order, and which of
the three kinds of verdict it is depends on the results alone. -/

namespace FerrumDns

open Dnsutil Prog

namespace Forward

/-! ### The verdict -/

/-- What a race comes to. -/
inductive Verdict where
  | usable (msg : Message)
  | unusable (msg : Message)
  | unchanged

/-- A verdict without its message. -/
inductive Kind where
  | usable | unusable | unchanged
  deriving DecidableEq

def Verdict.kind : Verdict → Kind
  | usable _ => .usable
  | unusable _ => .unusable
  | unchanged => .unchanged

def usable? : Except Error Message → Option Message
  | .ok msg => if isUsableResponse msg then some msg else none
  | .error _ => none

def unusable? : Except Error Message → Option Message
  | .ok msg => if isUsableResponse msg then none else some msg
  | .error _ => none

/-- The first usable response, else the last unusable one, else nothing. -/
def verdict (results : List (Except Error Message)) : Verdict :=
  match results.findSome? usable? with
  | some msg => .usable msg
  | none =>
    match results.reverse.findSome? unusable? with
    | some msg => .unusable msg
    | none => .unchanged

/-- The context a verdict leaves. -/
def install (f : Forward) (ctx : QueryContext) : Verdict → QueryContext
  | .usable msg => f.took (ctx.pushTrace f.tag "ok") msg
  | .unusable msg => (f.took ctx msg).pushTrace f.tag "err"
  | .unchanged => ctx.pushTrace f.tag "err"

/-- The verdict when an unusable response may have been kept before. -/
def verdictFrom (last : Option Message) (results : List (Except Error Message)) : Verdict :=
  match results.findSome? usable? with
  | some msg => .usable msg
  | none =>
    match (results.reverse.findSome? unusable?).or last with
    | some msg => .unusable msg
    | none => .unchanged

theorem verdictFrom_none (results : List (Except Error Message)) :
    verdictFrom none results = verdict results := by
  rw [verdictFrom, verdict, Option.or_none]

theorem verdictFrom_usable {msg : Message} (h : isUsableResponse msg = true) (last : Option Message)
    (results : List (Except Error Message)) :
    verdictFrom last (.ok msg :: results) = .usable msg := by
  simp [verdictFrom, usable?, h]

theorem verdictFrom_unusable {msg : Message} (h : isUsableResponse msg = false)
    (last : Option Message) (results : List (Except Error Message)) :
    verdictFrom last (.ok msg :: results) = verdictFrom (some msg) results := by
  simp [verdictFrom, List.findSome?_append, usable?, unusable?, h]

theorem verdictFrom_error (e : Error) (last : Option Message)
    (results : List (Except Error Message)) :
    verdictFrom last (.error e :: results) = verdictFrom last results := by
  simp [verdictFrom, List.findSome?_cons, List.findSome?_append, usable?, unusable?]

theorem isSome_findSome (p : Except Error Message → Option Message)
    (results : List (Except Error Message)) :
    (results.findSome? p).isSome = results.any fun r => (p r).isSome := by
  induction results with
  | nil => rfl
  | cons r results ih =>
    rw [List.findSome?_cons, List.any_cons, ← ih]
    cases p r <;> rfl

theorem kind_verdict (results : List (Except Error Message)) : (verdict results).kind =
    if results.any fun r => (usable? r).isSome then .usable
    else if results.any fun r => (unusable? r).isSome then .unusable
    else .unchanged := by
  rw [verdict, ← List.any_reverse (l := results) (f := fun r => (unusable? r).isSome),
    ← isSome_findSome, ← isSome_findSome]
  cases results.findSome? usable? with
  | some msg => rfl
  | none =>
    cases results.reverse.findSome? unusable? with
    | some msg => rfl
    | none => rfl

/-- Which kind of verdict it is does not depend on the order of the results. -/
theorem kind_perm {results results' : List (Except Error Message)} (h : results.Perm results') :
    (verdict results).kind = (verdict results').kind := by
  rw [kind_verdict, kind_verdict, h.any_eq, h.any_eq]

/-! ### One program for any number of upstreams -/

/-- The number of upstreams that are asked. -/
def raced (f : Forward) : ℕ := max (min f.concurrent f.upstreams.length) 1

/-- Asking one upstream is the race of that one. -/
theorem single_eq_race (f : Forward) (ctx : QueryContext) (q : Message) (up : Upstream) :
    f.single ctx q up = f.race ctx q 1 [up] none := by
  have commute (msg : Message) :
      (f.took ctx msg).pushTrace f.tag "err" = f.took (ctx.pushTrace f.tag "err") msg := by
    cases ht : ctx.traceEnabled with
    | false => simp [QueryContext.pushTrace, took, QueryContext.setResponse, ht]
    | true => simp [QueryContext.pushTrace, took, QueryContext.setResponse, ht]
  unfold single race
  refine congrArg (await ctx) (congrArg (act (Eff.exchange [up] q)) (funext fun r => ?_))
  obtain ⟨i, r⟩ := r
  cases r with
  | error e => rfl
  | ok msg =>
    dsimp only
    split_ifs
    · rfl
    · exact congrArg _ (funext fun _ => congrArg done (Prod.ext (commute msg).symm rfl))

theorem exec_eq_race (f : Forward) (ctx : QueryContext) :
    f.exec ctx = f.race ctx ctx.query f.raced (f.upstreams.take f.raced) none := by
  simp only [exec, raced]
  split_ifs with hn
  · obtain ⟨up, rest, hups⟩ := List.exists_cons_of_ne_nil f.nonempty
    rw [hn, single_eq_race]
    simp [hups]
  · rfl

/-! ### Runs of the race -/

/-- The exchanges numbered `pending` are in flight; the trace answers them with their results, in
this order. -/
inductive Yields (result : ℕ → Except Error Message) : List ℕ → Trace → List ℕ → Prop
  | stop (pending) : Yields result pending [] []
  | count {pending tr order k u} (h : Yields result pending tr order) :
      Yields result pending (⟨.count k, u⟩ :: tr) order
  | next {pending ups q tr order n} (i : Fin ups.length) (hn : pending[i.val]? = some n)
      (h : Yields result (pending.eraseIdx i) tr order) :
      Yields result pending (⟨.exchange ups q, (i, result n)⟩ :: tr) (n :: order)

/-- The event is an exchange that ends without a usable response. -/
def failed : Event Eff Eff.Answer → Bool
  | ⟨.exchange _ _, r⟩ => (usable? r.2).isNone
  | _ => false

/-- The event counts `k` up. -/
def counts (k : Counter) : Event Eff Eff.Answer → Bool
  | ⟨.count k', _⟩ => k' = k
  | _ => false

/-- What one finished race shows: the verdict of the results in their order, and the counters. -/
structure Settled (f : Forward) (ctx : QueryContext) (v : Verdict) (tr : Trace) (o : Outcome) :
    Prop where
  outcome : o = (f.install ctx v, .ok .Continue)
  upstreamOk : tr.countP (counts .upstreamOk) = if v.kind = .usable then 1 else 0
  upstreamErr : tr.countP (counts .upstreamErr) = tr.countP failed

theorem ends_counted {k : Counter} {p : Run Outcome} {tr : Trace} {o : Outcome}
    (h : Ends ((Run.count k).bind fun _ => p) tr o) :
    ∃ tr', tr = ⟨.count k, ()⟩ :: tr' ∧ Ends p tr' o := by
  obtain ⟨u, tr', rfl, h'⟩ := ends_act h
  exact ⟨tr', rfl, h'⟩

theorem Yields.of_count {result : ℕ → Except Error Message} {pending order : List ℕ} {k : Counter}
    {u : Unit} {tr : Trace} (h : Yields result pending (⟨.count k, u⟩ :: tr) order) :
    Yields result pending tr order := by
  cases h with
  | count h => exact h

/-- An exchange that fails is counted, and the race goes on. -/
theorem Settled.failing {f : Forward} {ctx : QueryContext} {v : Verdict} {tr : Trace} {o : Outcome}
    (h : Settled f ctx v tr o) {ups : List Upstream} {q : Message} {i : Fin ups.length}
    {r : Except Error Message} (hr : usable? r = none) :
    Settled f ctx v (⟨.exchange ups q, (i, r)⟩ :: ⟨.count .upstreamErr, ()⟩ :: tr) o := by
  refine ⟨h.outcome, ?_, ?_⟩
  · rw [List.countP_cons_of_neg (by simp [counts]), List.countP_cons_of_neg (by simp [counts])]
    exact h.upstreamOk
  · rw [List.countP_cons_of_neg (by simp [counts]), List.countP_cons_of_pos (by simp [counts]),
      List.countP_cons_of_pos (by simp [failed, hr]), List.countP_cons_of_neg (by simp [failed]),
      h.upstreamErr]

theorem length_rest {α : Type} {l : List α} {n i : ℕ} (h : l.length = n + 1) (hi : i < l.length) :
    (l.eraseIdx i).length = n := by
  rw [List.length_eraseIdx_of_lt hi, h, Nat.add_sub_cancel]

theorem Yields.perm_tail {pending full : List ℕ} {n : ℕ} {i : ℕ}
    (hn : pending[i]? = some n) (hp : (n :: full).Perm pending) :
    full.Perm (pending.eraseIdx i) := by
  obtain ⟨hi, rfl⟩ := List.getElem?_eq_some_iff.1 hn
  exact List.perm_cons _ |>.1 (hp.trans (List.getElem_cons_eraseIdx_perm hi).symm)

/-- The race over exchanges that end in the order `full`. -/
theorem race_settled (f : Forward) (ctx : QueryContext) (q : Message)
    {result : ℕ → Except Error Message} {n : ℕ} {ups : List Upstream} {last : Option Message}
    {pending full order : List ℕ} {tr : Trace} {o : Outcome} (hups : ups.length = n)
    (hlen : pending.length = n) (hp : full.Perm pending) (ho : order <+: full)
    (ha : Yields result pending tr order) (h : Ends (f.race ctx q n ups last) tr o) :
    Settled f ctx (verdictFrom last (full.map result)) tr o := by
  induction n generalizing ups last pending full order tr with
  | zero =>
    obtain ⟨rfl, rfl⟩ := ends_done h
    obtain rfl : full = [] := List.eq_nil_of_length_eq_zero (by rw [hp.length_eq, hlen])
    refine ⟨?_, ?_, rfl⟩
    · cases last <;> rfl
    · cases last <;> rfl
  | succ n ih =>
    cases ups with
    | nil => simp at hups
    | cons up ups =>
      obtain ⟨r, tr₁, rfl, h₁⟩ := ends_act (ends_await h)
      obtain ⟨i, r⟩ := r
      cases ha with
      | @next _ _ _ _ order' m _ hm ha' =>
        obtain ⟨rest, rfl⟩ := ho
        have hlt : i.val < pending.length := (List.getElem?_eq_some_iff.1 hm).1
        have hups' : ((up :: ups).eraseIdx i).length = n := length_rest hups i.isLt
        have hlen' : (pending.eraseIdx i).length = n := length_rest hlen hlt
        have rest {last : Option Message} {tr' : Trace}
            (h' : Ends (f.race ctx q n ((up :: ups).eraseIdx i) last) tr' o)
            (ht : tr₁ = ⟨.count .upstreamErr, ()⟩ :: tr') :=
          ih hups' hlen' (Yields.perm_tail hm hp) ⟨rest, rfl⟩ (Yields.of_count (ht ▸ ha')) h'
        rw [List.cons_append, List.map_cons]
        cases hr : result m with
        | error e =>
          rw [hr] at h₁
          obtain ⟨tr', ht, h'⟩ := ends_counted h₁
          rw [verdictFrom_error, ht]
          exact (rest h' ht).failing rfl
        | ok msg =>
          rw [hr] at h₁
          dsimp only at h₁
          split_ifs at h₁ with hu
          · obtain ⟨tr', ht, h'⟩ := ends_counted h₁
            obtain ⟨rfl, rfl⟩ := ends_done h'
            rw [verdictFrom_usable hu, ht]
            exact ⟨rfl, by simp [counts, Verdict.kind], by simp [counts, failed, usable?, hu]⟩
          · obtain ⟨tr', ht, h'⟩ := ends_counted h₁
            rw [Bool.not_eq_true] at hu
            rw [verdictFrom_unusable hu, ht]
            exact (rest h' ht).failing (by simp [usable?, hu])

theorem Yields.congr {result result' : ℕ → Except Error Message} {pending order : List ℕ}
    {tr : Trace} (h : Yields result pending tr order)
    (heq : ∀ n ∈ pending, result n = result' n) : Yields result' pending tr order := by
  induction h with
  | stop pending => exact .stop pending
  | count _ ih => exact .count (ih heq)
  | next i hn _ ih =>
    rw [heq _ (List.mem_of_getElem? hn)]
    exact .next i hn (ih fun n hm => heq n (List.mem_of_mem_eraseIdx hm))

/-- Every run of a race answers its exchanges with some results in some order. -/
theorem race_answers (f : Forward) (ctx : QueryContext) (q : Message) {n : ℕ} {ups : List Upstream}
    {last : Option Message} {pending : List ℕ} {tr : Trace} {o : Outcome} (hups : ups.length = n)
    (hlen : pending.length = n) (hnd : pending.Nodup) (h : Ends (f.race ctx q n ups last) tr o) :
    ∃ result full order, full.Perm pending ∧ order <+: full ∧ Yields result pending tr order := by
  induction n generalizing ups last pending tr with
  | zero =>
    obtain ⟨rfl, -⟩ := ends_done h
    exact ⟨fun _ => .error (.io ""), pending, [], .refl _, List.nil_prefix, .stop _⟩
  | succ n ih =>
    cases ups with
    | nil => simp at hups
    | cons up ups =>
      obtain ⟨⟨i, r⟩, tr₁, rfl, h₁⟩ := ends_act (ends_await h)
      have hlt : i.val < pending.length := by rw [hlen, ← hups]; exact i.isLt
      have hm : pending[i.val]? = some pending[i.val] := List.getElem?_eq_getElem hlt
      have hperm := List.getElem_cons_eraseIdx_perm hlt
      have hups' : ((up :: ups).eraseIdx i).length = n := length_rest hups i.isLt
      have hlen' : (pending.eraseIdx i).length = n := length_rest hlen hlt
      have hnot : pending[i.val] ∉ pending.eraseIdx i := (List.nodup_cons.1 (hperm.nodup_iff.2 hnd)).1
      have rest {last : Option Message} {tr' : Trace}
          (h' : Ends (f.race ctx q n ((up :: ups).eraseIdx i) last) tr' o) :
          ∃ result full order, full.Perm pending ∧ order <+: full ∧ Yields result pending
            (⟨.exchange (up :: ups) q, (i, r)⟩ :: ⟨.count .upstreamErr, ()⟩ :: tr') order := by
        obtain ⟨result, full, order, hp, ho, ha⟩ :=
          ih hups' hlen' ((hnd.sublist (List.eraseIdx_sublist _ _))) h'
        have hself : Function.update result pending[i.val] r pending[i.val] = r :=
          Function.update_self _ _ _
        refine ⟨Function.update result pending[i.val] r, _, _ :: order, (hp.cons _).trans hperm,
          List.cons_prefix_cons.2 ⟨rfl, ho⟩, ?_⟩
        have hlater :
            Yields (Function.update result pending[i.val] r) (pending.eraseIdx i) tr' order := by
          refine ha.congr fun m hmem => (Function.update_of_ne ?_ _ _).symm
          rintro rfl
          exact hnot hmem
        have hnext : Yields (Function.update result pending[i.val] r) pending
            (⟨.exchange (up :: ups) q, (i, Function.update result pending[i.val] r pending[i.val])⟩ ::
              ⟨.count .upstreamErr, ()⟩ :: tr') (pending[i.val] :: order) := .next i hm (.count hlater)
        rwa [hself] at hnext
      cases r with
      | error e =>
        obtain ⟨tr', rfl, h'⟩ := ends_counted h₁
        exact rest h'
      | ok msg =>
        dsimp only at h₁
        split_ifs at h₁
        · obtain ⟨tr', rfl, h'⟩ := ends_counted h₁
          obtain ⟨rfl, -⟩ := ends_done h'
          exact ⟨fun _ => .ok msg, _, [pending[i.val]], hperm,
            List.cons_prefix_cons.2 ⟨rfl, List.nil_prefix⟩, .next i hm (.count (.stop _))⟩
        · obtain ⟨tr', rfl, h'⟩ := ends_counted h₁
          exact rest h'

/-- Exchanges with any results may end in any order. -/
theorem race_goes (f : Forward) (ctx : QueryContext) (q : Message)
    (result : ℕ → Except Error Message) {n : ℕ} {ups : List Upstream} (last : Option Message)
    {pending full : List ℕ} (hups : ups.length = n) (hlen : pending.length = n)
    (hp : full.Perm pending) : ∃ tr o order, Ends (f.race ctx q n ups last) tr o ∧
      order <+: full ∧ Yields result pending tr order := by
  induction n generalizing ups last pending full with
  | zero =>
    exact ⟨[], _, [], .refl _, List.nil_prefix, .stop _⟩
  | succ n ih =>
    cases ups with
    | nil => simp at hups
    | cons up ups =>
      cases full with
      | nil =>
        have := hp.length_eq
        simp [hlen] at this
      | cons m full =>
        obtain ⟨i, hi, hm⟩ := List.mem_iff_getElem.1 (hp.mem_iff.1 List.mem_cons_self)
        have hm' : pending[i]? = some m := List.getElem?_eq_some_iff.2 ⟨hi, hm⟩
        have hiu : i < (up :: ups).length := by rw [hups, ← hlen]; exact hi
        have hups' : ((up :: ups).eraseIdx i).length = n := length_rest hups hiu
        have hlen' : (pending.eraseIdx i).length = n := length_rest hlen hi
        let ev : Event Eff Eff.Answer := ⟨.exchange (up :: ups) q, (⟨i, hiu⟩, result m)⟩
        have rest (last : Option Message) := ih last hups' hlen' (Yields.perm_tail hm' hp)
        cases hr : result m with
        | error e =>
          obtain ⟨tr, o, order, h, ho, ha⟩ := rest last
          refine ⟨ev :: ⟨.count .upstreamErr, ()⟩ :: tr, o, m :: order, .await (.act _ ?_),
            List.cons_prefix_cons.2 ⟨rfl, ho⟩, .next ⟨i, hiu⟩ hm' (.count ha)⟩
          rw [hr]
          exact (Run.ends_count _).bind h
        | ok msg =>
          by_cases hu : isUsableResponse msg = true
          · refine ⟨ev :: [⟨.count .upstreamOk, ()⟩],
              (f.took (ctx.pushTrace f.tag "ok") msg, .ok .Continue), [m], .await (.act _ ?_),
              List.cons_prefix_cons.2 ⟨rfl, List.nil_prefix⟩, .next ⟨i, hiu⟩ hm' (.count (.stop _))⟩
            · rw [hr]
              dsimp only
              rw [if_pos hu]
              exact (Run.ends_count _).bind (.refl _)
          · obtain ⟨tr, o, order, h, ho, ha⟩ := rest (some msg)
            refine ⟨ev :: ⟨.count .upstreamErr, ()⟩ :: tr, o, m :: order, .await (.act _ ?_),
              List.cons_prefix_cons.2 ⟨rfl, ho⟩, .next ⟨i, hiu⟩ hm' (.count ha)⟩
            rw [hr]
            dsimp only
            rw [if_neg hu]
            exact (Run.ends_count _).bind h

/-- The raced exchanges, numbered by their upstreams' places, have these results and end in the
order `full`, as far as the run `tr` sees it. -/
def Completes (f : Forward) (result : ℕ → Except Error Message) (full : List ℕ) (tr : Trace) : Prop :=
  full.Perm (List.range f.raced) ∧
    ∃ order, order <+: full ∧ Yields result (List.range f.raced) tr order

theorem length_raced (f : Forward) : (f.upstreams.take f.raced).length = f.raced := by
  have hpos := List.length_pos_of_ne_nil f.nonempty
  rw [List.length_take, raced]
  omega

/-- For any results in any order of completion there is a run, and every run is of that kind. It
leaves the first usable response, else the last unusable one, else the response that was there;
which of the three it is depends on the results alone; one usable response and all failures seen are
counted; and a single upstream is raced like any other number. -/
theorem race_order (f : Forward) (ctx : QueryContext) :
    (∀ tr o, Ends (f.exec ctx) tr o → ∃ result full, f.Completes result full tr) ∧
    (∀ result full, full.Perm (List.range f.raced) →
      ∃ tr o, Ends (f.exec ctx) tr o ∧ f.Completes result full tr) ∧
    (∀ result full tr o, Ends (f.exec ctx) tr o → f.Completes result full tr →
      Settled f ctx (verdict (full.map result)) tr o) ∧
    (∀ result (full full' : List ℕ), full.Perm (List.range f.raced) → full'.Perm (List.range f.raced) →
      (verdict (full.map result)).kind = (verdict (full'.map result)).kind) ∧
    (∀ q up, f.single ctx q up = f.race ctx q 1 [up] none) := by
  rw [exec_eq_race]
  refine ⟨fun tr o h => ?_, fun result full hp => ?_, fun result full tr o h hc => ?_,
    fun result full full' hp hp' => ?_, f.single_eq_race ctx⟩
  · obtain ⟨result, full, order, hp, ho, ha⟩ :=
      f.race_answers ctx _ f.length_raced List.length_range List.nodup_range h
    exact ⟨result, full, hp, order, ho, ha⟩
  · obtain ⟨tr, o, order, h, ho, ha⟩ :=
      f.race_goes ctx ctx.query result none f.length_raced List.length_range hp
    exact ⟨tr, o, h, hp, order, ho, ha⟩
  · obtain ⟨hp, order, ho, ha⟩ := hc
    rw [← verdictFrom_none]
    exact f.race_settled ctx _ f.length_raced List.length_range hp ho ha h
  · exact kind_perm ((hp.trans hp'.symm).map result)

end Forward

end FerrumDns
