import FerrumDns.Cache.Isolation

/-! What the entries of a cache hold. Admission is spread over the key, the snapshot,
the write-back and the store; together they let in only whole NOERROR responses to the
question of the key, whose EDNS options are all subnets. The check before rebinding is
on the response as it came from upstream, since plugins edit records only, so options
that rebinding takes out are not missed. -/

namespace FerrumDns

open Prog Dnsutil Resolver

namespace Contents

/-! ### Where a response comes from -/

/-- What plugins make of an upstream answer: its id and type are set, its records edited. -/
inductive Retouched (origin : Message) : Message → Prop
  | taken (id : UInt16) : Retouched origin { origin with id, messageType := .Response }
  | edited {m : Message} (h : Retouched origin m) (answers nameServers : List Record) :
      Retouched origin { m with answers, nameServers }

theorem Retouched.edns {origin m : Message} (h : Retouched origin m) : m.edns = origin.edns := by
  induction h with
  | taken id => rfl
  | edited _ answers nameServers ih => exact ih

/-- A response with this source was made here, or from an answer that upstream was asked for. -/
def Comes (said : Message → Prop) (source : Option Source) (r : Message) : Prop :=
  (∃ tag origin, source = some (.forward tag) ∧ said origin ∧ Retouched origin r) ∨
    source = some .reject ∨ ∃ tag, source = some (.hosts tag)

/-- The response of this context, unless it was served from a cache, comes from there. -/
def Told (said : Message → Prop) (ctx : QueryContext) : Prop :=
  ctx.servedFromCache = false → ∀ r, ctx.response = some r → Comes said ctx.source r

namespace Told

variable {said : Message → Prop} {ctx : QueryContext}

theorem traced (h : Told said ctx) (plugin event : String) :
    Told said (ctx.pushTrace plugin event) := by
  obtain ⟨_, ht⟩ := ctx.pushTrace_eq plugin event
  rw [ht]
  exact h

theorem reject (rcode : ResponseCode) : Told said (ctx.reject rcode) :=
  fun _ _ _ => .inr (.inl rfl)

theorem unanswered (h : ctx.response = none) : Told said ctx :=
  fun _ r hr => by rw [h] at hr; cases hr

theorem cloneForLazy (ctx : QueryContext) : Told said ctx.cloneForLazy := by
  rw [QueryContext.cloneForLazy]
  cases ctx.entryState <;> exact unanswered rfl

theorem edited (h : Told said ctx) (answers nameServers : Message → List Record) :
    Told said { ctx with response := ctx.response.map fun m =>
      { m with answers := answers m, nameServers := nameServers m } } := by
  intro hs r hr
  obtain ⟨m, hm, rfl⟩ := Option.map_eq_some_iff.1 hr
  rcases h hs m hm with ⟨tag, origin, hsource, hsaid, ht⟩ | hlocal
  · exact .inl ⟨tag, origin, hsource, hsaid, ht.edited _ _⟩
  · exact .inr hlocal

theorem builtin (h : Told said ctx) (b : Builtin) : Told said (b.apply ctx).1 := by
  cases b with
  | Reject c => exact reject c
  | DropResp => exact unanswered rfl
  | Ttl low high =>
    rw [Builtin.apply]
    split_ifs
    · exact h
    · exact h.edited _ _
  | PreferV4 => exact h.edited _ Message.nameServers
  | PreferV6 => exact h.edited _ Message.nameServers
  | _ => exact h

variable [Crates]

theorem redirect (h : Told said ctx) (r : Redirect) : Told said (r.exec ctx) := by
  rw [Redirect.exec]
  cases r.target ctx with
  | none => exact h
  | some name =>
    obtain ⟨_, _, hr⟩ := ctx.rewriteName_eq name
    refine traced ?_ _ _
    rw [hr]
    exact h

theorem ecs (h : Told said ctx) (e : Ecs) : Told said (e.exec ctx) := by
  simp only [Ecs.exec]
  split_ifs
  · exact h.traced _ _
  · cases e.pick ctx with
    | none => exact h.traced _ _
    | some p =>
      dsimp only
      refine traced ?_ _ _
      exact h
  · cases e.pick ctx with
    | none => exact h.traced _ _
    | some p =>
      dsimp only
      refine traced ?_ _ _
      exact h

theorem hosts (h : Told said ctx) (t : Hosts) : Told said (t.exec ctx) := by
  simp only [Hosts.exec]
  split_ifs
  · exact fun _ _ _ => .inr (.inr ⟨t.tag, rfl⟩)
  · exact fun _ _ _ => .inr (.inr ⟨t.tag, rfl⟩)
  · exact h

end Told

/-! ### What is promised -/

variable [Crates]

/-- The insertion is the write-back of a response that passed every check, by the cache registered
under its tag, for a query with that key. -/
def Written (reg : Registry) (said : Message → Prop) (c : Cache) (lookup : CacheLookup)
    (source : Option Source) (e : Entry) : Prop :=
  reg.caches c.tag = some c ∧ Cache.keyOf lookup.query c.cacheEverything = some lookup.key ∧
    ∃ r aliases response wire now, Comes said source r ∧ Cache.cacheableEdns r = true ∧
      response = QueryContext.bindResponse r lookup.query aliases ∧
      Cache.admits response = some wire ∧ e = c.entryAt wire (minTtl response) now

/-- Upstream servers are relied on to say only what is in `said`. -/
@[reducible] def contract (reg : Registry) (said : Message → Prop) :
    Contract QueryContext Eff Eff.Answer where
  guar
    | .insert c lookup source e => Written reg said c lookup source e
    | .lookup c key query => Cache.keyOf query c.cacheEverything = some key
    | .kick _ _ bg _ => Told said bg
    | _ => True
  rely
    | .exchange _ _, r => ∀ msg, r.2 = .ok msg → said msg
    | _, _ => True
  held := Told said

theorem leaves (reg : Registry) (said : Message → Prop) :
    Leaves reg (contract reg said) (Told said) fun w => reg.caches w.1.tag = some w.1 ∧
      Cache.keyOf w.2.query w.1.cacheEverything = some w.2.key where
  held := .rfl
  call _ := trivial
  count _ := trivial
  clock := ⟨trivial, fun _ => trivial⟩
  overflow := trivial
  traced h := h.traced
  reject _ := Told.reject _
  builtin h := h.builtin _
  redirect _ h := h.redirect _
  ecs _ h := h.ecs _
  noEcs h := (h.builtin .NoEcs).traced _ _
  hosts h := h.hosts _
  forward h := by
    refine Forward.exec_sat id (fun _ => trivial) (fun h event _ => Told.traced h _ event)
      (fun _ => trivial) ?_ h
    intro ctx ups i msg _ hr _ r hresp
    cases hresp
    exact .inl ⟨_, msg, rfl, hr msg rfl, .taken _⟩
  fork _ := Told.unanswered rfl
  absorb _ ho := ho
  cache {c ctx} h :=
    Cache.exec_sat (fun _ => trivial) trivial (fun _ hk _ => hk)
      (fun _ _ _ => Told.cloneForLazy ctx) h h.traced fun _ _ _ hs => Bool.noConfusion hs
  note {tag c ctx lookup} hc _ hs := by
    obtain rfl : c.tag = tag := reg.caches_tag tag c hc
    exact ⟨hc, Isolation.keyed_of_snapshot hs⟩
  store {c lookup ctx} h hw := by
    refine Cache.storeLookup_sat trivial fun response wire now hs hedns hr ha => ?_
    obtain ⟨r, hresp, rfl⟩ := Option.map_eq_some_iff.1 hr
    exact ⟨hw.1, hw.2, r, _, _, wire, now, h hs r hresp, hedns r hresp, rfl, ha, rfl⟩

theorem starts (reg : Registry) (said : Message → Prop) :
    Starts (contract reg said) (Told said) where
  upgrade := trivial
  entered {ctx} entry h := by
    rw [QueryContext.beginPipeline]
    split_ifs
    · exact h
    · exact h
  request _ _ _ _ := Told.unanswered rfl
  refresh h := h

/-! ### Queries with other options -/

omit [Crates] in
theorem cacheableEdns_removeEcs (q : Message) :
    Cache.cacheableEdns (removeEcs q) = Cache.cacheableEdns q := by
  unfold Cache.cacheableEdns removeEcs
  cases q.edns with
  | none => rfl
  | some e =>
    simp only [Option.map_some, Edns.removeOption, List.all_filter]
    refine congrArg (List.all e.options) (funext fun x => ?_)
    by_cases hx : x.1 = .Subnet <;> simp [hx]

omit [Crates] in
theorem cacheableEdns_setEcs (q : Message) (cs : ClientSubnet) :
    Cache.cacheableEdns (setEcs q cs) = Cache.cacheableEdns q := by
  rw [← cacheableEdns_removeEcs q]
  unfold Cache.cacheableEdns removeEcs setEcs
  cases q.edns with
  | none => rfl
  | some e => simp [Edns.insertOption, EdnsOption.code]

/-- Nothing is looked up or stored. -/
def Bypasses : Eff → Prop
  | .insert _ _ _ _ | .lookup _ _ _ => False
  | _ => True

/-- A query with an option that is not a subnet keeps it. -/
@[reducible] def exempt : Contract QueryContext Eff Eff.Answer where
  guar := Bypasses
  rely _ _ := True
  held ctx := Cache.cacheableEdns ctx.query = false

omit [Crates] in
theorem exempt_edit {ctx ctx' : QueryContext} (he : Edit ctx ctx')
    (h : Cache.cacheableEdns ctx.query = false) : Cache.cacheableEdns ctx'.query = false := by
  cases he with
  | trace plugin event => rwa [QueryContext.pushTrace_query]
  | rewrite name =>
    obtain ⟨_, _, hr⟩ := ctx.rewriteName_eq name
    rw [hr]
    exact h
  | detach => exact (cacheableEdns_removeEcs ctx.query).trans h
  | _ => exact h

theorem keyOf_of_exempt {q : Message} (h : Cache.cacheableEdns q = false) (everything : Bool) :
    Cache.keyOf q everything = none := by
  simp [Cache.keyOf, h]

theorem exec_of_exempt {ctx : QueryContext} (h : Cache.cacheableEdns ctx.query = false)
    (c : Cache) : c.exec ctx = done (ctx, .ok .Continue) := by
  rw [Cache.exec, keyOf_of_exempt h]

theorem exempt_preserved :
    Preserved exempt (fun ctx => Cache.cacheableEdns ctx.query = false) fun _ => False where
  held := .rfl
  call _ := trivial
  count _ := trivial
  exchange _ _ := trivial
  clock := ⟨trivial, fun _ => trivial⟩
  overflow := trivial
  edit := exempt_edit
  attach _ _ h _ := (cacheableEdns_setEcs _ _).trans h
  fork h := h
  absorb _ h := h
  cache {c ctx} h := by
    rw [exec_of_exempt h]
    exact h
  note {c ctx lookup} h hs := by
    rw [Cache.snapshot, keyOf_of_exempt h] at hs
    cases hs
  store _ hw := hw.elim

/-- A request that carries such an option passes every cache by. -/
theorem bypassed {reg : Registry} {depth : ℕ} {entry : Tag} {ctx : QueryContext} {tr : Trace}
    {rest : Run (QueryContext × Except Error Unit)} (h : Cache.cacheableEdns ctx.query = false)
    (hl : Leads (Server.handle reg depth entry ctx) tr rest) : ∀ ev ∈ tr, Bypasses ev.1 := by
  have hb : Cache.cacheableEdns (ctx.beginPipeline entry).query = false := by
    rw [QueryContext.beginPipeline]
    split_ifs
    · exact h
    · exact h
  exact ((exempt_preserved.handle_sat reg depth entry ctx h hb).leads hl fun _ _ => trivial).1

/-! ### Contents -/

/-- Requests with one key ask the same questions. -/
theorem questions_of_keyOf (hprints : Crates.Prints) (hrt : Crates.RoundTrip) {q q₀ : Message}
    {everything everything₀ : Bool} {key : Text} (hq : Cache.keyOf q everything = some key)
    (hq₀ : Cache.keyOf q₀ everything₀ = some key) :
    List.Forall₂ Cache.SameQuestion q.queries q₀.queries := by
  rcases (Cache.sameRequest_of_keyOf hprints hq hq₀).same with
    ⟨-, -, ha⟩ | ⟨-, -, wire, hw, hw₀⟩
  · obtain ⟨x, y, hx, hy, hxy⟩ := ha.question
    rw [hx, hy]
    exact .cons hxy .nil
  · have heq := Except.ok.inj ((decode_of_encode hrt hw).symm.trans (decode_of_encode hrt hw₀))
    have hqs : q.queries = q₀.queries := (congrArg Message.queries heq :)
    rw [hqs]
    exact List.forall₂_same.2 fun _ _ => ⟨rfl, rfl, rfl⟩

/-- The entry of a cache under a key: which message it decodes to, whose question that is, and how
long it lives. -/
structure Holds (c : Cache) (key : Text) (e : Entry) (msg : Message) : Prop where
  decoded : decode e.wire = .ok msg
  response : msg.messageType = .Response
  noError : msg.responseCode = .NoError
  whole : msg.truncated = false
  options : Cache.cacheableEdns msg = true
  lives : 1 ≤ (minTtl msg).val
  denoted : ∃ q, Cache.keyOf q c.cacheEverything = some key ∧ msg.queries = q.queries
  asked : ∀ q, Cache.keyOf q c.cacheEverything = some key →
    List.Forall₂ Cache.SameQuestion msg.queries q.queries
  deadline : e.ttlDeadline = e.stored + secs (minTtl msg).val
  expire : e.expire = if c.lazyTtl = 0 then e.ttlDeadline
    else max e.ttlDeadline (e.stored + secs c.lazyTtl)

/-- The message is a response of the run, rebound to the query of the insertion. One that came from
upstream is made from an answer of the run whose EDNS options were all subnets; any other was made
here. -/
def Produced (tr : Trace) (lookup : CacheLookup) (source : Option Source) (msg : Message) : Prop :=
  ∃ r aliases, msg = QueryContext.bindResponse r lookup.query aliases ∧
    Comes (fun origin => (∃ ups query i,
      (⟨.exchange ups query, (i, .ok origin)⟩ : Event Eff Eff.Answer) ∈ tr) ∧
        Cache.cacheableEdns origin = true) source r

theorem Written.holds (hprints : Crates.Prints) (hrt : Crates.RoundTrip) {reg : Registry}
    {said : Message → Prop} {c : Cache} {lookup : CacheLookup} {source : Option Source} {e : Entry}
    (h : Written reg said c lookup source e) : ∃ msg, Holds c lookup.key e msg ∧
      ∃ r aliases, msg = QueryContext.bindResponse r lookup.query aliases ∧
        Comes (fun origin => said origin ∧ Cache.cacheableEdns origin = true) source r := by
  obtain ⟨-, hkey, r, aliases, msg, wire, now, hcomes, hedns, hmsg, ha, rfl⟩ := h
  obtain ⟨hcode, htc, hopts, hw, hmin⟩ := Cache.admits_eq_some.1 ha
  have hqueries : msg.queries = lookup.query.queries := by
    rw [hmsg, QueryContext.bindResponse]
    split_ifs <;> rfl
  have htype : msg.messageType = .Response := by
    rw [hmsg, QueryContext.bindResponse]
    split_ifs <;> rfl
  refine ⟨msg, ⟨decode_of_encode hrt hw, htype, hcode, htc, hopts, ?_, ⟨_, hkey, hqueries⟩,
    fun q hq => hqueries ▸ questions_of_keyOf hprints hrt hkey hq, rfl, ?_⟩, r, aliases, hmsg, ?_⟩
  · exact Nat.one_le_iff_ne_zero.2 fun h0 => hmin (Fin.ext h0)
  · simp only [Cache.entryAt, Nat.pos_iff_ne_zero, ite_not]
  · rcases hcomes with ⟨tag, origin, hs, hsaid, ht⟩ | hlocal
    · refine .inl ⟨tag, origin, hs, ⟨hsaid, ?_⟩, ht⟩
      rw [← hedns, Cache.cacheableEdns, Cache.cacheableEdns, ht.edns]
    · exact .inr hlocal

/-- In every state of every run of the resolver, whatever stands in a cache was inserted in the run
by the cache registered there and decodes to a whole NOERROR response to the question of its key,
made from no upstream answer with other EDNS options than subnets, that lives as long as its TTLs
or, where configured, as the lazy setting say. Queries with other options are never looked up or
written, and a request that has one meets no cache. -/
theorem contents (hprints : Crates.Prints) (hrt : Crates.RoundTrip) (reg : Registry) (depth : ℕ)
    (p q : State) (tr : Trace) (hp : Fresh p) (h : Runs reg depth p tr q) :
    (∀ tag key e, q.world.Stores tag key e → ∃ c lookup source msg,
      reg.caches tag = some c ∧ ⟨.insert c lookup source e, ()⟩ ∈ tr ∧ lookup.key = key ∧
        Holds c key e msg ∧ Produced tr lookup source msg) ∧
    (∀ c key query r, ⟨.lookup c key query, r⟩ ∈ tr → Cache.cacheableEdns query = true) ∧
    (∀ c lookup source e u, ⟨.insert c lookup source e, u⟩ ∈ tr →
      Cache.cacheableEdns lookup.query = true) ∧
    ∀ query, Cache.cacheableEdns query = false →
      (∀ (c : Cache) (ctx : QueryContext), ctx.query = query →
        c.exec ctx = done (ctx, .ok .Continue) ∧ c.snapshot ctx = none) ∧
      ∀ entry peer proto traced tr' rest, Leads (Server.handle reg depth entry
        { QueryContext.new query peer proto with traceEnabled := traced }) tr' rest →
          ∀ ev ∈ tr', Bypasses ev.1 := by
  have hgood := (leaves reg fun origin => ∃ ups query i,
    (⟨.exchange ups query, (i, .ok origin)⟩ : Event Eff Eff.Answer) ∈ tr).promised
      (starts reg _) hp h fun ev hev => by
        obtain ⟨x, r⟩ := ev
        cases x with
        | exchange ups query =>
          obtain ⟨i, r⟩ := r
          rintro msg rfl
          exact ⟨ups, query, i, hev⟩
        | _ => trivial
  refine ⟨fun tag key e hs => ?_, fun c key query r hev => ?_, fun c lookup source e u hev => ?_,
    fun query hq => ⟨fun c ctx hctx => ?_, fun entry peer proto traced tr' rest hl => ?_⟩⟩
  · rcases stores_run h hs with hs | ⟨⟨ev, r⟩, hev, c, lookup, source, rfl, rfl, rfl⟩
    · exact absurd hs (hp.not_stores tag key e)
    · have hw := hgood _ hev
      obtain ⟨msg, hholds, hmade⟩ := Written.holds hprints hrt hw
      exact ⟨c, lookup, source, msg, hw.1, hev, rfl, hholds, hmade⟩
  · exact (Cache.keyOf_eq_some (hgood _ hev)).1
  · exact (Cache.keyOf_eq_some (hgood _ hev).2.1).1
  · subst hctx
    exact ⟨exec_of_exempt hq c, by rw [Cache.snapshot, keyOf_of_exempt hq]; rfl⟩
  · exact bypassed hq hl

omit [Crates] in
/-- The stored answer is the one upstream gave, and holds what it should. -/
theorem contents_answer : ∃ tr, ∃ q : State, ∃ msg : Message,
    @Runs Sample.codec Sample.resolver 4 ⟨Sample.world, []⟩ tr q ∧
    q.world.Stores "cache" Sample.key Sample.entry ∧
    @Holds Sample.codec Sample.cache Sample.key Sample.entry msg := by
  obtain ⟨tr, w, hp, -, hl⟩ := Sample.first_stores
  have hrun := Sample.played_runs hp []
  have hs : World.Stores w "cache" Sample.key Sample.entry := CacheState.stores_of_found hl
  have hrt : @Crates.RoundTrip Sample.codec := Sample.roundTrip (by decide +kernel)
  obtain ⟨c, -, -, msg, hc, -, -, hholds, -⟩ := (@contents Sample.codec (Isolation.prints _) hrt
    Sample.resolver 4 _ _ tr Sample.fresh hrun).1 "cache" Sample.key Sample.entry hs
  obtain rfl : Sample.cache = c := Option.some.inj hc
  exact ⟨tr, _, msg, hrun, hs, hholds⟩

end Contents

end FerrumDns
