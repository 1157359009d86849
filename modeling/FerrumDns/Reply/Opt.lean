import FerrumDns.Reply.Identity

/-! The OPT record of a reply. Binding a response to a message without OPT record takes
its own away, but binding it to a message with one adds none. A request with an OPT
record keeps it through the pipeline, and every response made from the request has one
too; so a reply lacks it only for a response that came from an upstream server or a
cache without. -/

namespace FerrumDns

open Prog Dnsutil

namespace Opt

/-- With an OPT record in the message received, the query and the response have one. -/
structure Carried (q : Message) (ctx : QueryContext) : Prop where
  original : ctx.original = q
  query : q.edns.isSome → ctx.query.edns.isSome
  response : q.edns.isSome → ∀ r, ctx.response = some r → r.edns.isSome

/-- The response taken from an upstream server or a cache, if it is one, has an OPT record. -/
def Carries [Crates] : (e : Eff) → e.Answer → Prop
  | .exchange _ _, r => ∀ msg, r.2 = .ok msg → msg.edns.isSome
  | .lookup _ _ _, r => ∀ hit msg, r = some hit → decode hit.wire = .ok msg → msg.edns.isSome
  | _, _ => True

/-! ### Binding -/

theorem isSome_rebindEdns (r q : Option Edns) :
    (QueryContext.rebindEdns r q).isSome = (r.isSome && q.isSome) := by
  cases q with
  | none => simp [QueryContext.rebindEdns]
  | some e => cases r <;> rfl

theorem isSome_bindResponse (r q : Message) (aliases : List (Name × Name)) :
    (QueryContext.bindResponse r q aliases).edns.isSome = (r.edns.isSome && q.edns.isSome) := by
  rw [← isSome_rebindEdns]
  simp only [QueryContext.bindResponse]
  split_ifs <;> rfl

/-- A finished reply has an OPT record if both the response and the message received have one. -/
theorem finalized {c : QueryContext} {resp : Message}
    (h : (Server.finalized c).response = some resp) :
    ∃ r, c.response = some r ∧ resp.edns.isSome = (r.edns.isSome && c.original.edns.isSome) := by
  simp only [Server.finalized] at h
  split_ifs at h
  · simp only [QueryContext.finalizeResponse, QueryContext.responseForQuery, Option.map_map,
      Option.map_eq_some_iff] at h
    obtain ⟨r, hr, rfl⟩ := h
    exact ⟨r, hr, by rw [Function.comp_apply, edns_removeEcs_isSome, isSome_bindResponse]⟩
  · obtain ⟨r, hr, rfl⟩ := Option.map_eq_some_iff.1 h
    exact ⟨r, hr, isSome_bindResponse r _ _⟩

/-! ### What a pipeline keeps -/

namespace Carried

variable {q : Message} {ctx : QueryContext}

theorem traced (h : Carried q ctx) (plugin event : String) :
    Carried q (ctx.pushTrace plugin event) := by
  obtain ⟨_, ht⟩ := ctx.pushTrace_eq plugin event
  rw [ht]
  exact ⟨h.original, h.query, h.response⟩

/-- A response with the query's OPT record, or another one. -/
theorem respond (h : Carried q ctx) (source : Source) {msg : Message}
    (hm : q.edns.isSome → msg.edns.isSome) : Carried q (ctx.setResponse source msg) := by
  refine ⟨h.original, h.query, fun hq r hr => ?_⟩
  cases hr
  exact hm hq

theorem reject (h : Carried q ctx) (rcode : ResponseCode) : Carried q (ctx.reject rcode) :=
  h.respond .reject h.query

/-- Editing the records of the response leaves its OPT record alone. -/
theorem edited (h : Carried q ctx) {f : Message → Message} (hf : ∀ m, (f m).edns = m.edns) :
    Carried q { ctx with response := ctx.response.map f } := by
  refine ⟨h.original, h.query, fun hq r hr => ?_⟩
  obtain ⟨r', hr', rfl⟩ := Option.map_eq_some_iff.1 hr
  rw [hf]
  exact h.response hq r' hr'

theorem builtin (h : Carried q ctx) (b : Builtin) : Carried q (b.apply ctx).1 := by
  cases b with
  | Reject c => exact h.reject c
  | DropResp => exact ⟨h.original, h.query, fun _ _ hr => by cases hr⟩
  | Ttl low high =>
    rw [Builtin.apply]
    split_ifs
    · exact h
    · exact h.edited fun _ => rfl
  | PreferV4 => exact h.edited fun _ => rfl
  | PreferV6 => exact h.edited fun _ => rfl
  | Mark m => exact ⟨h.original, h.query, h.response⟩
  | NoEcs =>
    refine ⟨h.original, fun hq => ?_, h.response⟩
    rw [Builtin.apply, edns_removeEcs_isSome]
    exact h.query hq
  | _ => exact h

variable [Crates]

theorem redirect (h : Carried q ctx) (r : Redirect) : Carried q (r.exec ctx) := by
  rw [Redirect.exec]
  cases r.target ctx with
  | none => exact h
  | some name =>
    obtain ⟨_, _, hr⟩ := ctx.rewriteName_eq name
    refine traced ?_ _ _
    rw [hr]
    exact ⟨h.original, h.query, h.response⟩

theorem ecs (h : Carried q ctx) (e : Ecs) : Carried q (e.exec ctx) := by
  simp only [Ecs.exec]
  split_ifs
  · exact h.traced _ _
  · cases e.pick ctx with
    | none => exact h.traced _ _
    | some p =>
      dsimp only
      refine traced ?_ _ _
      exact ⟨h.original, fun _ => rfl, h.response⟩
  · cases e.pick ctx with
    | none => exact h.traced _ _
    | some p =>
      dsimp only
      refine traced ?_ _ _
      exact ⟨h.original, fun _ => rfl, h.response⟩

theorem hosts (h : Carried q ctx) (t : Hosts) : Carried q (t.exec ctx) := by
  have answered (event : String) (recs : List Record) :
      Carried q ((ctx.pushTrace t.tag event).setResponse (.hosts t.tag)
        (buildHostsResponse (ctx.pushTrace t.tag event).query recs)) :=
    (h.traced t.tag event).respond _ (h.traced t.tag event).query
  simp only [Hosts.exec]
  split_ifs
  · exact answered "hit" _
  · exact answered "nodata" _
  · exact h

omit [Crates] in
theorem edns_served (c : Cache) (msg : Message) (hit : Hit) (now : ℕ) :
    (c.served msg hit now).edns = msg.edns := by
  rw [Cache.served]
  split_ifs <;> rfl

end Carried

variable [Crates]

/-- The promises of a request whose message received is `q`: none, but upstream answers and served
entries are relied on to have an OPT record if that message has one. -/
@[reducible] def contract (q : Message) : Contract QueryContext Eff Eff.Answer where
  guar := fun _ => True
  rely := fun e r => q.edns.isSome → Carries e r
  held := Carried q

theorem leaves (reg : Registry) (q : Message) : Leaves reg (contract q) (Carried q) fun _ => True where
  held := .rfl
  call _ := trivial
  count _ := trivial
  clock := ⟨trivial, fun _ => trivial⟩
  overflow := trivial
  traced h := h.traced
  reject h := h.reject _
  builtin h := h.builtin _
  redirect _ h := h.redirect _
  ecs _ h := h.ecs _
  noEcs h := (h.builtin .NoEcs).traced _ _
  hosts h := h.hosts _
  forward h := by
    refine Forward.exec_sat id (fun _ => trivial) (fun h event _ => Carried.traced h _ event)
      (fun _ => trivial) ?_ h
    exact fun h hr => h.respond _ fun hq => hr hq _ rfl
  fork h := ⟨h.original, h.query, fun _ _ hr => by cases hr⟩
  absorb h ho := ⟨h.original, ho.query, ho.response⟩
  cache {c ctx} h := by
    refine Cache.exec_sat_of_hit (fun _ => trivial) trivial (fun _ _ _ => trivial)
      (fun _ _ _ => trivial) h (h.traced _ _) fun event key hit msg now _ _ hr hd _ => ?_
    have ht := h.traced c.tag event
    have hmsg (hq : q.edns.isSome) : (QueryContext.rebindResponse (c.served msg hit now)
        (ctx.pushTrace c.tag event).query).edns.isSome := by
      have hserved : (c.served msg hit now).edns.isSome := by
        rw [Carried.edns_served]
        exact hr hq hit msg rfl hd
      simp only [QueryContext.rebindResponse, isSome_rebindEdns, hserved, ht.query hq, Bool.and_self]
    have hset := ht.respond (.cacheHit c.tag) hmsg
    exact ⟨hset.original, hset.query, hset.response⟩
  note _ _ _ := trivial
  store _ _ := Cache.storeLookup_sat trivial fun _ _ _ _ _ _ _ => trivial

end Opt

namespace Reply

variable [Crates]

/-- A reply has an OPT record exactly if the message received does, provided that the response being
finished has one; which it does if the upstream answers and the served entries of the run have. A
reply to a message without OPT record never has one. -/
theorem opt_presence (reg : Registry) (depth : ℕ) (entry : Tag) (q : Message)
    (peer : Option IpAddr) (proto : ClientProto) (traced : Bool) (tr : Trace) (ctx : QueryContext)
    (h : Ends (Server.handle reg depth entry (request q peer proto traced)) tr (ctx, .ok ()))
    (resp : Message) (hresp : ctx.response = some resp) :
    ((q.edns.isSome → ∀ ev ∈ tr, Opt.Carries ev.1 ev.2) → resp.edns.isSome = q.edns.isSome) ∧
    ∃ c r, ctx = Server.finalized c ∧ c.response = some r ∧
      (resp.edns.isSome = q.edns.isSome ↔ (q.edns.isSome → r.edns.isSome)) := by
  by_cases hd : classifyIncoming q = .Drop
  · simp only [Server.handle, QueryContext.new, hd] at h
    cases (ends_done h).2
    cases hresp
  · have hstart : Opt.Carried q (request q peer proto traced) :=
      ⟨rfl, id, fun _ _ hr => by cases hr⟩
    have hentered : Opt.Carried q ((request q peer proto traced).beginPipeline entry) :=
      ⟨rfl, id, fun _ _ hr => by cases hr⟩
    refine ⟨fun hs => ?_, ?_⟩
    · have hsat := (Opt.leaves reg q).handle_sat depth entry _ hstart hentered
      obtain ⟨c, hc, rfl⟩ := (hsat.ends h fun ev hev hq => hs hq ev hev).2 rfl hd
      obtain ⟨r, hr, hopt⟩ := Opt.finalized hresp
      rw [hopt, hc.original]
      cases hq : q.edns.isSome with
      | false => exact Bool.and_false _
      | true => rw [hc.response hq r hr, Bool.and_true]
    · have hreceived : ((request q peer proto traced).beginPipeline entry).original = q := rfl
      obtain ⟨c, hc, rfl⟩ := (Received.kept q).reply rfl hreceived h (fun _ _ => trivial) hd
      obtain ⟨r, hr, hopt⟩ := Opt.finalized hresp
      refine ⟨c, r, rfl, hr, ?_⟩
      rw [hopt, hc]
      cases q.edns.isSome with
      | false => simp
      | true => simp

section Sample

omit [Crates]

open Sample

/-- An upstream answer with OPT record, or nothing found in a cache. -/
def carries : Event Eff Eff.Answer → Bool
  | ⟨.exchange _ _, r⟩ => r.2.toOption.all fun m => m.edns.isSome
  | ⟨.lookup _ _ _, r⟩ => r.isNone
  | _ => true

theorem carries_of (e : Eff) (r : e.Answer) (h : carries ⟨e, r⟩ = true) :
    @Opt.Carries codec e r := by
  cases e with
  | exchange ups query =>
    intro msg hmsg
    simpa [carries, hmsg, Except.toOption] using h
  | lookup c key query =>
    intro hit msg hr
    simp [carries, hr] at h
  | _ => trivial

/-- The reply to the query for `A.TEST.` has an OPT record, as the upstream answer does. -/
theorem opt_presence_capitals : ∃ resp : Message, resp.edns.isSome = capitals.edns.isSome ∧
    resp.answers.length = 2 := by
  have h : ((@Server.handle codec redirecting 3 "main" (request capitals none .Tcp false)).play
      (@Resolver.oracle codec redirecting 3 (answering upstream)) false world).map
        (fun x => (x.1.all carries, x.2.1.2.toOption,
          x.2.1.1.response.map fun r => r.answers.length)) =
      some (true, some (), some 2) := by decide +kernel
  obtain ⟨⟨tr, ⟨ctx, res⟩, w, new⟩, hp, hx⟩ := Option.map_eq_some_iff.1 h
  simp only [Prod.mk.injEq, Option.map_eq_some_iff] at hx
  obtain ⟨hcarry, hres, resp, hresp, hlen⟩ := hx
  cases res with
  | error e => cases hres
  | ok u =>
    exact ⟨resp, (@opt_presence codec redirecting 3 "main" capitals none .Tcp false tr ctx
      (play_ends hp) resp hresp).1
        (fun _ ev hev => carries_of ev.1 ev.2 (List.all_eq_true.1 hcarry ev hev)), hlen⟩

/-- Upstream answers without OPT record, and so does the server, to a query with one. -/
theorem opt_missing : ∃ (tr : Trace) (ctx : QueryContext) (resp : Message),
    Ends (@Server.handle codec redirecting 3 "main" (request capitals none .Tcp false)) tr
      (ctx, .ok ()) ∧
    ctx.response = some resp ∧ capitals.edns.isSome = true ∧ resp.edns.isSome = false := by
  have h : ((@Server.handle codec redirecting 3 "main" (request capitals none .Tcp false)).play
      (@Resolver.oracle codec redirecting 3 (answering { upstream with edns := none }))
        false world).map
        (fun x => (x.2.1.2.toOption, x.2.1.1.response.map fun r => r.edns.isSome)) =
      some (some (), some false) := by decide +kernel
  obtain ⟨⟨tr, ⟨ctx, res⟩, w, new⟩, hp, hx⟩ := Option.map_eq_some_iff.1 h
  simp only [Prod.mk.injEq, Option.map_eq_some_iff] at hx
  obtain ⟨hres, resp, hresp, hopt⟩ := hx
  cases res with
  | error e => cases hres
  | ok u => exact ⟨tr, ctx, resp, play_ends hp, hresp, rfl, hopt⟩

end Sample

end Reply

end FerrumDns
