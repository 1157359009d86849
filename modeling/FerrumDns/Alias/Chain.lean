import FerrumDns.Pipeline.Invariant
import FerrumDns.Sample
import FerrumDns.Transparency.Aging

/-! The rewrites of a request form a chain from the name asked for to the name it works
on, through any forks and merges. Binding a response to the message received puts an
alias for each link before the answers, unless the response has it already. -/

namespace FerrumDns

open Prog Dnsutil QueryContext

namespace Alias

/-! ### Chains -/

/-- Links that lead from one end to another, each starting where the one before it ended. -/
def Path {α : Type} : α → List (α × α) → α → Prop
  | a, [], b => a = b
  | a, (x, y) :: links, b => x = a ∧ Path y links b

theorem Path.snoc {α : Type} {links : List (α × α)} {a b : α} (h : Path a links b) (c : α) :
    Path a (links ++ [(b, c)]) c := by
  induction links generalizing a with
  | nil => exact ⟨h.symm, rfl⟩
  | cons link links ih => exact ⟨h.1, ih h.2⟩

/-- The same for ends that need not be there: without a first end there are no links. -/
def Between {α : Type} : Option α → List (α × α) → Option α → Prop
  | some a, links, some b => Path a links b
  | none, links, none => links = []
  | _, _, _ => False

/-- The name a message asks for. -/
def asked (q : Message) : Option Name := q.queries.head?.map Query.name

/-- The rewrites lead from the name asked for in `q` to the current one. -/
structure Chained (q : Message) (ctx : QueryContext) : Prop where
  original : ctx.original = q
  chain : Between (asked q) ctx.rewrites (asked ctx.query)

theorem Chained.rewrite {q : Message} {ctx : QueryContext} (h : Chained q ctx) (name : Name) :
    Chained q (ctx.rewriteName name) := by
  cases hq : ctx.query.queries with
  | nil =>
    have hsame : ctx.rewriteName name = ctx := by simp only [rewriteName, hq]
    rwa [hsame]
  | cons question rest =>
    simp only [rewriteName, hq]
    split_ifs
    · exact h
    · refine ⟨h.original, ?_⟩
      have hcur : asked ctx.query = some question.name := by simp [asked, hq]
      have hchain := h.chain
      rw [hcur] at hchain
      cases ho : asked q with
      | none =>
        rw [ho] at hchain
        exact hchain.elim
      | some a =>
        rw [ho] at hchain
        exact Path.snoc hchain _

theorem Chained.edit {q : Message} {ctx ctx' : QueryContext} (he : Edit ctx ctx')
    (h : Chained q ctx) : Chained q ctx' := by
  cases he with
  | trace plugin event =>
    obtain ⟨_, ht⟩ := ctx.pushTrace_eq plugin event
    rw [ht]
    exact ⟨h.original, h.chain⟩
  | rewrite name => exact h.rewrite name
  | _ => exact ⟨h.original, h.chain⟩

/-- What can become of a request for `q`: everything a pipeline does to its context, in any order,
with forks that are merged back. -/
inductive Reachable (q : Message) : QueryContext → Prop
  | new (peer : Option IpAddr) (proto : ClientProto) (traced : Bool) :
      Reachable q { QueryContext.new q peer proto with traceEnabled := traced }
  | enter {ctx} (h : Reachable q ctx) (entry : Tag) : Reachable q (ctx.beginPipeline entry)
  | edit {ctx ctx'} (h : Reachable q ctx) (he : Edit ctx ctx') : Reachable q ctx'
  | attach {ctx} (h : Reachable q ctx) (cs : ClientSubnet) : Reachable q (Ecs.attach ctx cs)
  | hit {ctx} (h : Reachable q ctx) (c : Cache) (msg : Message) : Reachable q (c.withHit ctx msg)
  | fork {ctx} (h : Reachable q ctx) : Reachable q ctx.fork
  | absorb {ctx other} (h : Reachable q ctx) (ho : Reachable q other) :
      Reachable q (ctx.absorb other)

theorem Reachable.chained {q : Message} {ctx : QueryContext} (h : Reachable q ctx) :
    Chained q ctx := by
  induction h with
  | new peer proto traced =>
    refine ⟨rfl, ?_⟩
    change Between (asked q) [] (asked q)
    cases asked q <;> rfl
  | @enter ctx _ entry ih =>
    simp only [beginPipeline]
    split_ifs
    · exact ⟨ih.original, ih.chain⟩
    · exact ih
  | edit _ he ih => exact ih.edit he
  | attach _ _ ih => exact ⟨ih.original, ih.chain⟩
  | hit _ _ _ ih => exact ⟨ih.original, ih.chain⟩
  | fork _ ih => exact ⟨ih.original, ih.chain⟩
  | absorb _ _ ih iho => exact ⟨ih.original, iho.chain⟩

section Runs

variable [Crates]

theorem reachable_kept (q : Message) : Kept (fun _ _ => True) (Reachable q) where
  amend he hi := hi.edit he.edit
  redirect {r ctx} _ hi := (r.exec_edits ctx).keep (fun he h => h.edit he) hi
  attach _ _ hi _ _ := hi.attach _
  fork hi := hi.fork
  absorb hi ho := hi.absorb ho
  hit hi := hi.hit _ _

/-- Every request that is not dropped ends in the reply made from a reachable context. -/
theorem finalized_reachable {reg : Registry} {depth : ℕ} {entry : Tag} {q : Message}
    {peer : Option IpAddr} {proto : ClientProto} {tr : Trace} {ctx : QueryContext}
    (hq : classifyIncoming q ≠ .Drop)
    (h : Ends (Server.handle reg depth entry (QueryContext.new q peer proto)) tr (ctx, .ok ())) :
    ∃ c, Reachable q c ∧ ctx = Server.finalized c :=
  (reachable_kept q).reply (.new peer proto false) ((Reachable.new peer proto false).enter entry) h
    (fun _ _ => trivial) hq

end Runs

/-! ### The records of a chain -/

/-- The record says what the link says. -/
def isAlias (hop : Name × Name) (record : Record) : Bool := hasAlias [record] hop

theorem hasAlias_eq_any (l : List Record) (hop : Name × Name) :
    hasAlias l hop = l.any (isAlias hop) := by
  rw [hasAlias]
  congr 1
  funext record
  simp only [isAlias, hasAlias, List.any_cons, List.any_nil, Bool.or_false]

/-- The link a record is for. -/
def linkOf (record : Record) : Option (Name × Name) :=
  match record.rdata with
  | .CNAME target => some (record.name, target)
  | _ => none

/-- `after` has the answers of `before` with aliases for the rewrites in front of them. A rewrite has
exactly one alias if no name is left twice and it had at most one. -/
structure Stitched (rewrites : List (Name × Name)) (before after : Message) : Prop where
  suffix : ∃ aliases : List Record, ∃ hops : List (Name × Name),
    after.answers = aliases ++ before.answers ∧ hops.Sublist rewrites ∧
      aliases.map linkOf = hops.map some
  complete : ∀ hop ∈ rewrites, hasAlias after.answers hop = true
  once : (rewrites.map Prod.fst).Pairwise (fun a b => ¬ a.Same b) → ∀ hop ∈ rewrites,
    before.answers.countP (isAlias hop) ≤ 1 → after.answers.countP (isAlias hop) = 1
  authenticData : rewrites ≠ [] → after.authenticData = false

/-- One element of a list has a property that no two of its elements share. -/
theorem countP_eq_one {α : Type} {p : α → Bool} {l : List α}
    (hl : l.Pairwise fun a b => ¬ (p a = true ∧ p b = true)) {a : α} (ha : a ∈ l) (hp : p a = true) :
    l.countP p = 1 := by
  induction l with
  | nil => cases ha
  | cons b l ih =>
    obtain ⟨hb, hl⟩ := List.pairwise_cons.1 hl
    rw [List.countP_cons]
    rcases List.mem_cons.1 ha with rfl | ha
    · have hnone : l.countP p = 0 := List.countP_eq_zero.2 fun c hc hpc => hb c hc ⟨hp, hpc⟩
      rw [hnone, if_pos hp]
    · have hfalse : ¬ p b = true := fun hpb => hb a ha ⟨hpb, hp⟩
      rw [ih hl ha, if_neg hfalse]

section Aliases

variable {m q : Message} {as : List (Name × Name)} {hop hop' : Name × Name}

theorem isAlias_aliasRecord (ttl : U32) : isAlias hop (aliasRecord q ttl hop') = true ↔
    hop'.1.Same hop.1 ∧ hop'.2.Same hop.2 := by
  simp [isAlias, hasAlias, aliasRecord_eq]

/-- Links that differ in ASCII case only are found alike. -/
theorem hasAlias_congr (h₁ : hop'.1.Same hop.1) (h₂ : hop'.2.Same hop.2) (l : List Record) :
    hasAlias l hop' = hasAlias l hop := by
  have hsame (n : Name) : (n.Same hop'.1 ↔ n.Same hop.1) ∧ (n.Same hop'.2 ↔ n.Same hop.2) :=
    ⟨same_congr (.refl n) h₁, same_congr (.refl n) h₂⟩
  simp only [hasAlias, (hsame _).1, (hsame _).2]

theorem linkOf_aliasRecords :
    (aliasRecords m q as).map linkOf = (as.filter fun hop => !hasAlias m.answers hop).map some := by
  rw [aliasRecords, List.map_map]
  refine List.map_congr_left fun hop _ => ?_
  simp only [Function.comp_apply, aliasRecord_eq, linkOf]

/-- A link is an alias afterwards: one made for it, or the one found. -/
theorem hasAlias_made (h : hop ∈ as) :
    hasAlias (aliasRecords m q as ++ m.answers) hop = true := by
  rw [hasAlias_append, Bool.or_eq_true]
  by_cases hfound : hasAlias m.answers hop = true
  · exact .inr hfound
  · refine .inl ?_
    rw [hasAlias_eq_any, List.any_eq_true]
    refine ⟨aliasRecord q (minTtl m) hop, List.mem_map.2 ⟨hop, List.mem_filter.2 ⟨h, ?_⟩, rfl⟩, ?_⟩
    · simpa using hfound
    · exact (isAlias_aliasRecord _).2 ⟨.refl _, .refl _⟩

/-- Where no name is left twice, a link has one alias afterwards if it had at most one. -/
theorem countP_made (hnew : (as.map Prod.fst).Pairwise fun a b => ¬ a.Same b) (h : hop ∈ as)
    (hle : m.answers.countP (isAlias hop) ≤ 1) :
    (aliasRecords m q as ++ m.answers).countP (isAlias hop) = 1 := by
  have hmade : (aliasRecords m q as).countP (isAlias hop) =
      as.countP fun hop' => isAlias hop (aliasRecord q (minTtl m) hop') &&
        !hasAlias m.answers hop' := by
    rw [aliasRecords, List.countP_map, List.countP_filter]
    rfl
  rw [List.countP_append, hmade]
  by_cases hfound : hasAlias m.answers hop = true
  · have hone : m.answers.countP (isAlias hop) = 1 := by
      have hpos : 0 < m.answers.countP (isAlias hop) := by
        rw [List.countP_pos_iff]
        simpa [hasAlias_eq_any] using hfound
      omega
    have hzero : as.countP (fun hop' => isAlias hop (aliasRecord q (minTtl m) hop') &&
        !hasAlias m.answers hop') = 0 := by
      rw [List.countP_eq_zero]
      intro hop' _ hboth
      rw [Bool.and_eq_true, isAlias_aliasRecord, Bool.not_eq_true'] at hboth
      obtain ⟨⟨h₁, h₂⟩, hnone⟩ := hboth
      rw [hasAlias_congr h₁ h₂, hfound] at hnone
      cases hnone
    rw [hone, hzero]
  · have hzero : m.answers.countP (isAlias hop) = 0 := by
      rw [List.countP_eq_zero]
      intro r hr hal
      exact hfound (by rw [hasAlias_eq_any, List.any_eq_true]; exact ⟨r, hr, hal⟩)
    rw [hzero]
    refine countP_eq_one (a := hop) ((List.pairwise_map.1 hnew).imp fun {a b} hab hboth => ?_) h ?_
    · simp only [Bool.and_eq_true, isAlias_aliasRecord] at hboth
      exact hab (hboth.1.1.1.trans hboth.2.1.1.symm)
    · simp only [Bool.and_eq_true, isAlias_aliasRecord, Bool.not_eq_true']
      exact ⟨⟨.refl _, .refl _⟩, by simpa using hfound⟩

theorem stitched (hcode : m.responseCode = .NoError ∨ m.responseCode = .NXDomain) :
    Stitched as m (bindResponse m q as) := by
  rw [bindResponse_eq hcode]
  refine ⟨⟨_, _, rfl, List.filter_sublist, linkOf_aliasRecords⟩, fun hop h => hasAlias_made h,
    fun hnew hop h hle => countP_made hnew h hle, fun hne => ?_⟩
  cases as with
  | nil => exact absurd rfl hne
  | cons a as => exact Bool.and_false _

/-- Binding again adds nothing. -/
theorem bindResponse_idem (hcode : m.responseCode = .NoError ∨ m.responseCode = .NXDomain) :
    bindResponse (bindResponse m q as) q as = bindResponse m q as := by
  have hnone : aliasRecords (bindResponse m q as) q as = [] := by
    rw [aliasRecords, List.map_eq_nil_iff, List.filter_eq_nil_iff]
    intro hop h
    rw [bindResponse_eq hcode]
    simpa using hasAlias_made h
  have hcode' : (bindResponse m q as).responseCode = .NoError ∨
      (bindResponse m q as).responseCode = .NXDomain := by rwa [responseCode_bindResponse]
  rw [bindResponse_eq hcode', hnone, bindResponse_eq hcode]
  simp only [rebindResponse, rebindEdns_rebindEdns, List.nil_append, Bool.and_assoc, Bool.and_self]

end Aliases

/-! ### Replies -/

/-- Every request works on the name at the end of the chain of its rewrites, and its reply has the
chain stitched to the front of the response once. -/
theorem chain_stitched (q : Message) (ctx : QueryContext) (h : Reachable q ctx) :
    ctx.original = q ∧ Between (asked q) ctx.rewrites (asked ctx.query) ∧
      ∀ r, ctx.response = some r → r.responseCode = .NoError ∨ r.responseCode = .NXDomain →
        (∃ r', ctx.finalizeResponse.response = some r' ∧ Stitched ctx.rewrites r r') ∧
        ctx.finalizeResponse.finalizeResponse = ctx.finalizeResponse := by
  obtain ⟨horig, hchain⟩ := h.chained
  refine ⟨horig, hchain, fun r hr hcode =>
    ⟨⟨bindResponse r ctx.original ctx.rewrites, ?_, stitched hcode⟩, ?_⟩⟩
  · simp only [finalizeResponse, responseForQuery, hr, List.drop_zero, Option.map_some]
  · simp only [finalizeResponse, responseForQuery, hr, List.drop_zero, Option.map_some,
      bindResponse_idem hcode]

/-! ### One rewrite -/

section Sample

open Sample

/-- `a.test` rewritten to `ns.test` and answered. -/
def rewritten : QueryContext := (context.rewriteName nsTest).setResponse (.forward "up") answer

theorem rewritten_reachable : Reachable query rewritten :=
  ((Reachable.new (some (.v4 0x7f000001)) .Udp false).edit (.rewrite nsTest)).edit
    (.respond (.forward "up") answer rfl)

theorem chain_stitched_rewritten : ∃ r r', rewritten.response = some r ∧
    rewritten.finalizeResponse.response = some r' ∧ Stitched [(aTest, nsTest)] r r' := by
  obtain ⟨-, -, hstitched⟩ := chain_stitched query rewritten rewritten_reachable
  obtain ⟨⟨r', hr', hs⟩, -⟩ := hstitched _ rfl (.inl rfl)
  exact ⟨_, r', rfl, hr', hs⟩

end Sample

end Alias

end FerrumDns
