import FerrumDns.Cache.WriteBack
import FerrumDns.Reply.Identity
import FerrumDns.Transparency.Follow

/-! A response does not say which question it answers. A redirect behind the step that
installed it adds a rewrite all the same, and binding then puts an alias before an
answer that is not for its target. As long as no redirect renames the question of a
context that holds a response, every alias is for a rewrite made before. -/

namespace FerrumDns

open Prog Dnsutil QueryContext

namespace Late

/-- The rewrites made after the response was installed. -/
def late (ctx : QueryContext) : List (Name × Name) := ctx.rewrites.drop ctx.rewritesAnswered

/-- A context that holds a response was not rewritten since. -/
def Timely (ctx : QueryContext) : Prop := ctx.response.isSome → late ctx = []

/-- Whatever question the response of `ctx` is bound to, only rewrites made before it was installed
get an alias. -/
def AliasedInTime (ctx : QueryContext) : Prop :=
  ∀ r, ctx.response = some r → ∀ q start, ∃ made,
    (bindResponse r q (ctx.rewrites.drop start)).answers = made ++ r.answers ∧
      ∀ record ∈ made, ∃ hop ∈ ctx.rewrites.take ctx.rewritesAnswered,
        record.name = hop.1 ∧ record.rdata = .CNAME hop.2

theorem Timely.aliasedInTime {ctx : QueryContext} (h : Timely ctx) : AliasedInTime ctx := by
  intro r hr q start
  obtain ⟨made, hmade, haliases⟩ := WriteBack.answers_bindResponse r q (ctx.rewrites.drop start)
  refine ⟨made, hmade, fun record hrecord => ?_⟩
  obtain ⟨hop, hhop, hrec⟩ := haliases record hrecord
  refine ⟨hop, ?_, hrec⟩
  have hlate : late ctx = [] := h (by rw [hr]; rfl)
  have hall : ctx.rewrites.take ctx.rewritesAnswered = ctx.rewrites := by
    have happend := List.take_append_drop ctx.rewritesAnswered ctx.rewrites
    rwa [show ctx.rewrites.drop ctx.rewritesAnswered = [] from hlate, List.append_nil] at happend
  rw [hall]
  exact List.mem_of_mem_drop hhop

theorem timely_of_none {ctx : QueryContext} (h : ctx.response = none) : Timely ctx := by
  intro hr
  rw [h] at hr
  cases hr

/-- A response installed just now is timely. -/
theorem late_eq_nil {ctx : QueryContext} (h : ctx.rewritesAnswered = ctx.rewrites.length) :
    late ctx = [] := by
  rw [late, h, List.drop_length]

theorem Timely.amend {ctx ctx' : QueryContext} (he : Amend ctx ctx') (h : Timely ctx) :
    Timely ctx' := by
  obtain ⟨he, hrewrites⟩ := he
  cases he with
  | trace plugin event =>
    obtain ⟨_, ht⟩ := ctx.pushTrace_eq plugin event
    rw [ht]
    exact h
  | respond source msg hsource => exact fun _ => late_eq_nil rfl
  | dropResponse => exact timely_of_none rfl
  | clampTtl low high => exact fun hr => h (by simpa [applyTtlClamp] using hr)
  | filter keep => exact fun hr => h (by simpa [filterAnswers] using hr)
  | rewrite name =>
    obtain ⟨rewrites, queries, hr⟩ := ctx.rewriteName_eq name
    rw [hr] at hrewrites ⊢
    dsimp only at hrewrites
    subst hrewrites
    exact h
  | _ => exact h

variable [Crates]

/-- A redirect is about to rename the question of a context that holds a response. -/
def renamesAnswered : Eff → Bool
  | .call (.redirect r) ctx => ctx.hasResp && (r.hop ctx.query.queries).isSome
  | _ => false

theorem Timely.redirect {r : Redirect} {ctx : QueryContext}
    (hr : renamesAnswered (.call (.redirect r) ctx) = false) (h : Timely ctx) :
    Timely (r.exec ctx) := by
  obtain ⟨trace, hexec⟩ := r.exec_traced ctx
  rw [hexec]
  cases hresp : ctx.response with
  | none => exact timely_of_none hresp
  | some resp =>
    have hnone : r.hop ctx.query.queries = none := by
      simpa [renamesAnswered, hasResp, hresp] using hr
    rw [follow_none hnone]
    have hstay : ctx.moved (follow [] ctx.query.queries) = ctx := by simp [moved, follow]
    rw [hstay]
    exact h

theorem kept : Kept (fun e _ => renamesAnswered e = false) Timely where
  amend he h := h.amend he
  redirect hr h := h.redirect hr
  attach _ _ h _ _ := h
  fork _ := timely_of_none rfl
  absorb _ ho := ho
  hit _ := fun _ => late_eq_nil rfl

omit [Crates] in
theorem timely_finalized {c : QueryContext} (h : Timely c) : Timely (Server.finalized c) := by
  have hlate : late (Server.finalized c) = late c := by
    simp only [Server.finalized]
    split_ifs <;> rfl
  have hresp : (Server.finalized c).response.isSome = c.response.isSome := by
    simp only [Server.finalized]
    split_ifs <;> simp [finalizeResponse, responseForQuery]
  intro hr
  rw [hlate]
  exact h (hresp ▸ hr)

/-- In a run of a request whose redirects rename no question that has been answered, every plugin
starts with a context whose aliases are in time, and the reply is made from such a context. A run of
a sequence like that ends by storing from one. -/
theorem aliased_in_time (reg : Registry) (depth : ℕ) (entry : Tag) (q : Message)
    (peer : Option IpAddr) (proto : ClientProto) (traced : Bool) (tr : Trace) (ctx : QueryContext)
    (h : Ends (Server.handle reg depth entry (Reply.request q peer proto traced)) tr (ctx, .ok ()))
    (hs : ∀ ev ∈ tr, renamesAnswered ev.1 = false) :
    (∀ p c, ⟨.call p c, ()⟩ ∈ tr → Timely c) ∧
    (ctx.response.isSome → late ctx = [] ∧ ∃ c, ctx = Server.finalized c ∧ AliasedInTime c) ∧
    ∀ depth' seq c tr' o, Timely c →
      Ends (Sequence.run reg (Executable.exec reg depth') seq c) tr' o →
      (∀ ev ∈ tr', renamesAnswered ev.1 = false) →
        ∃ inner own vs, tr' = inner ++ own ∧
          Ends (Sequence.flushed (Sequence.notes reg vs) o) own () ∧ AliasedInTime o.1 := by
  have hstart : Timely (Reply.request q peer proto traced) := timely_of_none rfl
  have hentered : Timely ((Reply.request q peer proto traced).beginPipeline entry) :=
    timely_of_none rfl
  refine ⟨fun p c hc => kept.called hstart hentered h hs hc, fun hr => ?_, ?_⟩
  · by_cases hd : classifyIncoming q = .Drop
    · simp only [Server.handle, QueryContext.new, hd] at h
      cases (ends_done h).2
      cases hr
    · obtain ⟨c, hc, rfl⟩ := kept.reply hstart hentered h hs hd
      exact ⟨timely_finalized hc hr, c, rfl, hc.aliasedInTime⟩
  · intro depth' seq c tr' o hc hrun hs'
    obtain ⟨inner, own, vs, htr, -, hown⟩ := Sequence.run_pass hrun
    exact ⟨inner, own, vs, htr, hown, (kept.run hc hrun hs').aliasedInTime⟩

/-! ### A redirect behind an answer -/

section Sample

omit [Crates]

open Sample

/-- Both names are in the table. -/
def table : Hosts where
  tag := "hosts"
  table := [("a.test".toList, [.v4 (Ipv4Addr.ofOctets 192 0 2 1)]),
    ("ns.test".toList, [.v4 (Ipv4Addr.ofOctets 192 0 2 53)])]
  ttl := 60

/-- `main` answers from the table before it redirects, `other` afterwards. -/
def redirecting : Registry :=
  registry [("hosts", .hosts table), ("to_ns", .redirect ⟨[("a.test".toList, nsTest)]⟩),
    ("main", .sequence ⟨"main", [⟨[], .Plugin "hosts"⟩, ⟨[], .Plugin "to_ns"⟩]⟩),
    ("other", .sequence ⟨"other", [⟨[], .Plugin "to_ns"⟩, ⟨[], .Plugin "hosts"⟩]⟩)] rfl

@[reducible] def codec : Crates := crates []

def handled (entry : Tag) : Option (Trace × (QueryContext × Except Error Unit) × World × List Task) :=
  (@Server.handle codec redirecting 3 entry (Reply.request query none .Udp false)).play
    (@Resolver.oracle codec redirecting 3 fun _ _ => none) false world

/-- The query is renamed first, and the answer for `ns.test` gets the alias that led to it. -/
theorem aliased_in_time_renamed : ∃ ctx : QueryContext,
    ctx.response.map Message.answers =
      some [recordCname aTest 60 nsTest, recordA nsTest 60 (Ipv4Addr.ofOctets 192 0 2 53)] ∧
    late ctx = [] ∧ ∃ c, ctx = Server.finalized c ∧ AliasedInTime c := by
  have h : (handled "other").map (fun x => (x.2.1.2.toOption, x.2.1.1.response.map Message.answers,
      x.1.all fun ev => !@renamesAnswered codec ev.1)) = some (some (),
        some [recordCname aTest 60 nsTest, recordA nsTest 60 (Ipv4Addr.ofOctets 192 0 2 53)],
        true) := by
    decide +kernel
  obtain ⟨⟨tr, ⟨ctx, res⟩, w, new⟩, hp, hx⟩ := Option.map_eq_some_iff.1 h
  simp only [Prod.mk.injEq, List.all_eq_true, Bool.not_eq_true'] at hx
  obtain ⟨hres, hanswers, hs⟩ := hx
  cases res with
  | error e => cases hres
  | ok u =>
    have hresp : ctx.response.isSome := by
      obtain ⟨r, hr, -⟩ := Option.map_eq_some_iff.1 hanswers
      rw [hr]
      rfl
    obtain ⟨-, hreply, -⟩ := @aliased_in_time codec redirecting 3 "other" query none .Udp false tr
      ctx (play_ends hp) hs
    exact ⟨ctx, hanswers, hreply hresp⟩

/-- The answer from the table for `a.test` gets an alias to `ns.test` next to it, for a rewrite made
after the answer. -/
theorem aliased_late : ∃ tr ctx, Ends
      (@Server.handle codec redirecting 3 "main" (Reply.request query none .Udp false)) tr
        (ctx, .ok ()) ∧
      ctx.source = some (.hosts "hosts") ∧ late ctx = [(aTest, nsTest)] ∧
      ctx.response.map Message.answers =
        some [recordCname aTest 60 nsTest, recordA aTest 60 (Ipv4Addr.ofOctets 192 0 2 1)] := by
  have h : (handled "main").map (fun x => ((x.2.1.2.toOption, x.2.1.1.source),
      late x.2.1.1, x.2.1.1.response.map Message.answers)) = some ((some (), some (.hosts "hosts")),
        [(aTest, nsTest)],
        some [recordCname aTest 60 nsTest, recordA aTest 60 (Ipv4Addr.ofOctets 192 0 2 1)]) := by
    decide +kernel
  obtain ⟨⟨tr, ⟨ctx, res⟩, w, new⟩, hp, hx⟩ := Option.map_eq_some_iff.1 h
  simp only [Prod.mk.injEq] at hx
  obtain ⟨⟨hres, hsource⟩, hlate, hans⟩ := hx
  cases res with
  | error e => cases hres
  | ok u => exact ⟨tr, ctx, play_ends hp, hsource, hlate, hans⟩

end Sample

end Late

end FerrumDns
