import FerrumDns.Pipeline.Invariant
import FerrumDns.Pipeline.Tasks
import FerrumDns.Prog.Budget
import FerrumDns.Sample

/-! What is sent upstream. A query that a forwarder asks relays the message a client
sent: redirects may have changed the name of its first question, and plugins its
subnet option, for which an OPT record is added where there was none. All else is as
received: id, flags, types and classes, the other questions, every record, and the
other EDNS fields and options. This holds in every run, for requests, for branches of
fallbacks and for the refreshes started long after. -/

namespace FerrumDns

open Prog Dnsutil

namespace Forward

/-! ### Queries and their originals -/

/-- The OPT record a subnet is put into. -/
def ednsBase (original : Message) : Edns := original.edns.getD (Edns.new.setMaxPayload 1232)

/-- The options besides subnets. -/
def otherOptions (e : Edns) : List (EdnsCode × EdnsOption) := e.options.filter (·.1 ≠ .Subnet)

/-- The OPT record is the base's but for subnets, and is there if it was there. -/
structure RelayedEdns (original q : Message) : Prop where
  kept : original.edns.isSome → q.edns.isSome
  fields : ∀ e ∈ q.edns, { e with options := (ednsBase original).options } = ednsBase original
  options : ∀ e ∈ q.edns, otherOptions e = otherOptions (ednsBase original)

/-- `q` is `original` but for the first question's name and subnets. -/
structure Relayed (original q : Message) : Prop where
  rest : { q with queries := original.queries, edns := original.edns } = original
  types : q.queries.map (fun x => (x.queryType, x.queryClass)) =
    original.queries.map fun x => (x.queryType, x.queryClass)
  others : q.queries.tail = original.queries.tail
  edns : RelayedEdns original q

theorem Relayed.refl (q : Message) : Relayed q q := by
  refine ⟨rfl, rfl, rfl, id, fun e he => ?_, fun e he => ?_⟩
  · rw [ednsBase, Option.mem_def.1 he]
    rfl
  · rw [ednsBase, Option.mem_def.1 he]
    rfl

variable {original q : Message}

/-- Changing the EDNS record as allowed keeps the rest. -/
theorem Relayed.withEdns (h : Relayed original q) {edns : Option Edns}
    (he : RelayedEdns original { q with edns }) : Relayed original { q with edns } :=
  ⟨h.rest, h.types, h.others, he⟩

theorem otherOptions_removeOption (e : Edns) :
    otherOptions (e.removeOption .Subnet) = otherOptions e := by
  simp [otherOptions, Edns.removeOption, List.filter_filter]

theorem otherOptions_insertOption (e : Edns) (cs : ClientSubnet) :
    otherOptions (e.insertOption (.Subnet cs)) = otherOptions e := by
  simp [otherOptions, Edns.insertOption, EdnsOption.code]

theorem Relayed.removeEcs (h : Relayed original q) : Relayed original (removeEcs q) := by
  refine h.withEdns ⟨fun ho => ?_, fun e he => ?_, fun e he => ?_⟩
  · simpa using h.edns.kept ho
  · obtain ⟨e', he', rfl⟩ := Option.map_eq_some_iff.1 he
    exact h.edns.fields e' he'
  · obtain ⟨e', he', rfl⟩ := Option.map_eq_some_iff.1 he
    rw [otherOptions_removeOption]
    exact h.edns.options e' he'

/-- The record that is extended is the base's but for subnets. -/
theorem Relayed.base (h : Relayed original q) :
    { ednsBase q with options := (ednsBase original).options } = ednsBase original ∧
      otherOptions (ednsBase q) = otherOptions (ednsBase original) := by
  cases hq : q.edns with
  | some e =>
    have hbase : ednsBase q = e := by rw [ednsBase, hq]; rfl
    rw [hbase]
    exact ⟨h.edns.fields e hq, h.edns.options e hq⟩
  | none =>
    have horig : original.edns = none := by
      rw [← Option.not_isSome_iff_eq_none]
      intro ho
      simpa [hq] using h.edns.kept ho
    have hbase : ednsBase q = ednsBase original := by simp [ednsBase, hq, horig]
    rw [hbase]
    exact ⟨rfl, rfl⟩

theorem Relayed.setEcs (h : Relayed original q) (cs : ClientSubnet) :
    Relayed original (setEcs q cs) := by
  obtain ⟨hfields, hoptions⟩ := h.base
  refine h.withEdns ⟨fun _ => rfl, fun e he => ?_, fun e he => ?_⟩
  · cases he
    exact hfields
  · cases he
    rw [otherOptions_insertOption, otherOptions_removeOption]
    exact hoptions

theorem Relayed.rename (h : Relayed original q) {question : Query} {rest : List Query}
    (hq : q.queries = question :: rest) (name : Name) :
    Relayed original { q with queries := { question with name } :: rest } := by
  have htypes := h.types
  have hothers := h.others
  rw [hq] at htypes hothers
  exact ⟨h.rest, htypes, hothers, h.edns.kept, h.edns.fields, h.edns.options⟩

/-! ### Contexts -/

/-- The context is for this message, whose relay its query is, now and at its entry. -/
structure Relaying (original : Message) (ctx : QueryContext) : Prop where
  own : ctx.original = original
  query : Relayed original ctx.query
  entry : ∀ s ∈ ctx.entryState, Relayed original s.query

variable {ctx ctx' : QueryContext}

theorem Relaying.same (h : Relaying original ctx) (ho : ctx'.original = ctx.original)
    (hq : ctx'.query = ctx.query) (he : ctx'.entryState = ctx.entryState) :
    Relaying original ctx' :=
  ⟨ho.trans h.own, hq ▸ h.query, he ▸ h.entry⟩

theorem Relaying.edit (h : Relaying original ctx) (he : Edit ctx ctx') :
    Relaying original ctx' := by
  cases he with
  | trace plugin event =>
    obtain ⟨_, hp⟩ := ctx.pushTrace_eq plugin event
    rw [hp]
    exact h.same rfl rfl rfl
  | rewrite name =>
    unfold QueryContext.rewriteName
    dsimp only
    split
    · exact h
    · next question rest hq =>
      split_ifs
      · exact h
      · exact ⟨h.own, h.query.rename hq _, h.entry⟩
  | detach => exact ⟨h.own, h.query.removeEcs, h.entry⟩
  | _ => exact h.same rfl rfl rfl

theorem Relaying.begin (h : Relaying original ctx) (entry : Tag) :
    Relaying original (ctx.beginPipeline entry) := by
  unfold QueryContext.beginPipeline
  split_ifs
  · refine ⟨h.own, h.query, fun s hs => ?_⟩
    cases hs
    exact h.query
  · exact h

/-- A refresh relays the message of the request that started it. -/
theorem Relaying.cloneForLazy (h : Relaying original ctx) : Relaying original ctx.cloneForLazy := by
  refine ⟨?_, ?_, h.entry⟩
  · unfold QueryContext.cloneForLazy
    cases ctx.entryState <;> exact h.own
  · unfold QueryContext.cloneForLazy
    cases he : ctx.entryState with
    | none =>
      have hnew : Relayed original ctx.original := h.own ▸ Relayed.refl _
      exact hnew
    | some s => exact h.entry s he

theorem relaying_new (q : Message) (peer : Option IpAddr) (proto : ClientProto) (traced : Bool) :
    Relaying q { QueryContext.new q peer proto with traceEnabled := traced } :=
  ⟨rfl, Relayed.refl q, fun _ hs => by cases hs⟩

/-! ### Pipelines -/

/-- Only relays of `original` are asked, and only refreshes for it are started. -/
def relaying (original : Message) : Contract QueryContext Eff Eff.Answer where
  guar
    | .exchange _ q => Relayed original q
    | .kick _ _ bg _ => Relaying original bg
    | _ => True
  rely _ _ := True
  held := Relaying original

variable [Crates]

theorem relaying_leaves (reg : Registry) (original : Message) :
    Leaves reg (relaying original) (Relaying original) fun _ => True := by
  have amends {ctx ctx' : QueryContext} (h : Amends ctx ctx') (hi : Relaying original ctx) :
      Relaying original ctx' := h.keep (fun ha hi => hi.edit ha.edit) hi
  have traced {ctx : QueryContext} (hi : Relaying original ctx) (plugin event : String) :
      Relaying original (ctx.pushTrace plugin event) := hi.edit (.trace plugin event)
  have took {ctx : QueryContext} (hi : Relaying original ctx) (source : Source) (m : Message) :
      Relaying original (ctx.setResponse source m) := hi.same rfl rfl rfl
  exact
    { held := .rfl
      call := fun _ => trivial
      count := fun _ => trivial
      clock := ⟨trivial, fun _ => trivial⟩
      overflow := trivial
      traced := traced
      reject := fun hi => took hi _ _
      builtin := fun {b ctx} hi => amends (b.apply_amends ctx) hi
      redirect := fun {r ctx} _ hi => (r.exec_edits ctx).keep (fun he hi => hi.edit he) hi
      ecs := fun {e ctx} _ hi => by
        rcases e.exec_cases ctx with ⟨-, he⟩ | ⟨cs, ctx', -, he, -, -, he'⟩
        · exact amends he hi
        · have hi' := amends he hi
          exact amends he' ⟨hi'.own, hi'.query.setEcs cs, hi'.entry⟩
      noEcs := fun {n ctx} hi => amends (n.exec_amends ctx) hi
      hosts := fun {t ctx} hi => amends (t.exec_amends ctx) hi
      forward := fun {f ctx} hi => Forward.exec_sat id (fun _ => trivial)
        (fun hi event _ => traced hi f.tag event) Relaying.query (fun hi _ => took hi _ _) hi
      fork := fun hi => hi.same rfl rfl rfl
      absorb := fun hi ho => ⟨hi.own, ho.query, hi.entry⟩
      cache := fun {c ctx} hi => Cache.exec_sat (fun _ => trivial) trivial
        (fun _ _ _ => trivial) (fun _ _ _ => hi.cloneForLazy) hi (traced hi)
        fun event m _ => (traced hi c.tag event).same rfl rfl rfl
      note := fun _ _ _ => trivial
      store := fun _ _ => Cache.storeLookup_sat trivial fun _ _ _ _ _ _ _ => trivial }

variable {reg : Registry} {depth : ℕ}

theorem relaying_request (entry : Tag) (hi : Relaying original ctx) :
    (Resolver.requestTask reg depth entry ctx).Sat (relaying original) fun _ => True :=
  ((relaying_leaves reg original).handle_sat depth entry ctx hi (hi.begin entry)).bind
    fun _ _ => trivial

theorem relaying_refresh (entry : Tag) (hi : Relaying original ctx) :
    (Resolver.refreshTask reg depth ctx entry).Sat (relaying original) fun _ => True := by
  refine ⟨trivial, fun (alive : Bool) _ => ?_⟩
  cases alive with
  | false => trivial
  | true => exact relaying_request (Server.entryTag entry) hi

/-! ### Runs -/

section Runs

variable (reg depth) (received : Set Message)

/-- Only these messages arrive. -/
inductive Receives : Task → Prop
  | listener {q : Message} (h : q ∈ received) (entry : Tag) (peer : Option IpAddr)
      (proto : ClientProto) :
      Receives (none, Resolver.requestTask reg depth entry (QueryContext.new q peer proto))
  | diagnostic {q : Message} (h : q ∈ received) (entry : Tag) (peer : Option IpAddr) :
      Receives (none, Resolver.requestTask reg depth (Server.entryTag entry)
        { QueryContext.new q peer .Https with traceEnabled := true })

/-- The resolver when only these messages arrive. -/
def receiving : Machine World Owner QueryContext Eff Eff.Answer :=
  { Resolver.machine reg depth with arrive := fun _ task => Receives reg depth received task }

/-- Relays of what was received. -/
def relayed : Contract QueryContext Eff Eff.Answer where
  guar
    | .exchange _ q => ∃ original ∈ received, Relayed original q
    | .kick _ _ bg _ => ∃ original ∈ received, Relaying original bg
    | _ => True
  rely _ _ := True
  held _ := True

variable {reg depth received}

omit [Crates] in
theorem relayed_of_relaying {p : Run Unit} (h : p.Sat (relaying original) fun _ => True)
    (ho : original ∈ received) : p.Sat (relayed received) fun _ => True := by
  refine h.weaken (fun e he => ?_) (fun _ _ hr => hr) fun _ _ => trivial
  cases e with
  | exchange ups q => exact ⟨original, ho, he⟩
  | kick c key bg entry => exact ⟨original, ho, he⟩
  | _ => trivial

theorem relayed_keeps :
    Pool.Keeps (receiving reg depth received) (relayed received) fun _ _ => True where
  perform := by
    intro w e r w' new l t l' _ hg hp
    refine ⟨trivial, trivial, ?_⟩
    cases e with
    | kick c key bg entry =>
      obtain ⟨original, ho, hbg⟩ := hg
      simp only [receiving, Resolver.machine, Resolver.perform] at hp
      split_ifs at hp
      · simp [hp.2]
      · simpa [hp.2] using relayed_of_relaying (relaying_refresh entry hbg) ho
    | lookup c key q => simp [hp.2.2]
    | now => simp [hp.2.2]
    | upgrade => simp [hp.2.2]
    | overflow => exact hp.elim
    | _ => simp [hp.2]
  release _ := trivial
  drift _ _ := trivial
  arrive _ hx := by
    refine ⟨trivial, ?_⟩
    cases hx with
    | listener ho entry peer proto =>
      exact relayed_of_relaying (relaying_request entry (relaying_new _ _ _ false)) ho
    | diagnostic ho entry peer =>
      exact relayed_of_relaying (relaying_request _ (relaying_new _ _ _ true)) ho

/-- Whatever is received and answered, in whatever order: all that is ever asked upstream relays a
message that was received. -/
theorem asks_relayed {p q : Resolver.State} {tr : Trace}
    (h : Pool.Run (receiving reg depth received) p tr q) (hp : p.tasks = [])
    {ups : List Upstream} {m : Message} {r} (hev : ⟨.exchange ups m, r⟩ ∈ tr) :
    ∃ original ∈ received, Relayed original m :=
  (relayed_keeps.run h ⟨trivial, by simp [hp]⟩).2 _ hev |>.1

end Runs

section Sample

open Sample

omit [Crates]

/-- The question is redirected and a fixed network attached before upstream is asked. -/
def rewriting : Registry :=
  registry [("to_ns", .redirect ⟨[("a.test".toList, nsTest)]⟩),
    ("ecs", .ecs ⟨"ecs", false, some (Ipv4Addr.ofOctets 198 51 100 7), none, false, 24, 48⟩),
    ("up", .forward forward),
    ("main", .sequence ⟨"main",
      [⟨[], .Plugin "to_ns"⟩, ⟨[], .Plugin "ecs"⟩, ⟨[], .Plugin "up"⟩]⟩)] rfl

/-- An exchange for the other name, with a subnet. -/
def isRewritten : Event Eff Eff.Answer → Bool
  | ⟨.exchange _ q, _⟩ => q.queries.map (·.name) == [nsTest] && (ecsOf q).isSome
  | _ => false

/-- The sample request through that pipeline. -/
def rewrittenRun : Option (Trace × Unit × World × List Task) :=
  (@Resolver.requestTask codec rewriting 4 "main" context).play
    (@Resolver.oracle codec rewriting 4 (answering answer)) false world

/-- What is asked has another name and a subnet, and relays the request all the same. -/
theorem asks_relayed_rewritten : ∃ tr w ups m r, rewrittenRun = some (tr, (), w, []) ∧
    (⟨.exchange ups m, r⟩ : Event Eff Eff.Answer) ∈ tr ∧ m.queries.map (·.name) = [nsTest] ∧
    (ecsOf m).isSome ∧ Relayed query m := by
  let := codec
  have h : rewrittenRun.map (fun x => (x.2.2.2.length, x.1.any isRewritten)) =
      some (0, true) := by decide +kernel
  obtain ⟨⟨tr, u, w, new⟩, hplayed, hx⟩ := Option.map_eq_some_iff.1 h
  simp only [Prod.mk.injEq, List.length_eq_zero_iff, List.any_eq_true] at hx
  obtain ⟨rfl, ⟨e, r⟩, hev, hrewritten⟩ := hx
  cases e with
  | exchange ups m =>
    obtain ⟨hname, hecs⟩ := Bool.and_eq_true_iff.1 hrewritten
    have hallows : Pool.Allows (receiving rewriting 4 {query})
        (Resolver.oracle rewriting 4 (answering answer)) :=
      Resolver.machine_allows rewriting 4 (answering answer)
    have harrive : Pool.Step (receiving rewriting 4 {query}) ⟨world, []⟩ none
        ⟨world, [(none, Resolver.requestTask rewriting 4 "main" context)]⟩ :=
      .arrive (Receives.listener (Set.mem_singleton query) "main" _ .Udp)
    have hrun := Pool.play_run hallows hplayed [] [] none
    obtain ⟨_, rfl, hm⟩ := asks_relayed (.step harrive hrun) rfl hev
    exact ⟨tr, w, ups, m, r, hplayed, hev, beq_iff_eq.1 hname, hecs, hm⟩
  | _ => cases hrewritten

end Sample

end Forward

end FerrumDns
