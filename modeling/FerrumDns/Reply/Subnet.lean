import FerrumDns.Reply.Identity

/-! A subnet the client did not send stays out of its reply. The invariant is that a
query with a subnet the message received lacked is marked to have it stripped, and so
is one whose subnet a step refused; forks and merges carry the mark with the query. -/

namespace FerrumDns

open Prog Dnsutil

/-- No option of the OPT record is a Client Subnet. -/
def WithoutSubnet (m : Message) : Prop :=
  ∀ e, m.edns = some e → ∀ o ∈ e.options, o.1 ≠ EdnsCode.Subnet

theorem withoutSubnet_removeEcs (m : Message) : WithoutSubnet (removeEcs m) := by
  intro e he o ho
  obtain ⟨e', -, rfl⟩ := Option.map_eq_some_iff.1 he
  simp only [Edns.removeOption, List.mem_filter, decide_eq_true_eq] at ho
  exact ho.2

theorem ecsOf_eq_none {m : Message} (h : WithoutSubnet m) : ecsOf m = none := by
  cases he : m.edns with
  | none => simp [ecsOf, he]
  | some e =>
    have hfind : e.option .Subnet = none := by
      rw [Edns.option, Option.map_eq_none_iff, List.find?_eq_none]
      exact fun o ho => by simpa using h e he o ho
    simp [ecsOf, he, hfind]

namespace Stripped

/-- What the subnets of a request's query and reply have to do with the message received. -/
structure Marked (q : Message) (ctx : QueryContext) : Prop where
  injected : ecsOf q = none → (ecsOf ctx.query).isSome → ctx.stripEcsOnReply = true
  refused : ctx.ecsRefused = true → ctx.stripEcsOnReply = true

theorem Marked.edit {q : Message} {ctx ctx' : QueryContext} (he : Edit ctx ctx')
    (h : Marked q ctx) : Marked q ctx' := by
  cases he with
  | trace plugin event =>
    obtain ⟨_, ht⟩ := ctx.pushTrace_eq plugin event
    rw [ht]
    exact ⟨h.injected, h.refused⟩
  | rewrite name =>
    obtain ⟨_, _, hr⟩ := ctx.rewriteName_eq name
    rw [hr]
    exact ⟨h.injected, h.refused⟩
  | strip => exact ⟨fun _ _ => rfl, fun _ => rfl⟩
  | detach =>
    refine ⟨fun _ hi => ?_, h.refused⟩
    rw [ecsOf_eq_none (withoutSubnet_removeEcs _)] at hi
    cases hi
  | refuse hs => exact ⟨fun _ _ => hs, fun _ => hs⟩
  | _ => exact ⟨h.injected, h.refused⟩

variable [Crates]

theorem kept (q : Message) : Kept (fun _ _ => True) (Marked q) where
  amend he hi := hi.edit he.edit
  redirect {r ctx} _ hi := (r.exec_edits ctx).keep (fun he h => h.edit he) hi
  attach {e ctx ctx' cs} _ _ hi hq hs := by
    refine ⟨fun hn _ => ?_, hi.refused⟩
    cases he : ecsOf ctx.query with
    | none => exact hs he
    | some cs' => exact hi.injected hn (by rw [hq, he]; rfl)
  fork hi := ⟨hi.injected, hi.refused⟩
  absorb _ ho := ⟨ho.injected, ho.refused⟩
  hit hi := ⟨hi.injected, hi.refused⟩

end Stripped

namespace Reply

variable [Crates]

/-- If the run ends with a subnet the client did not send, or a step refused it, then the reply has
none, whoever the response is from. -/
theorem withoutSubnet (reg : Registry) (depth : ℕ) (entry : Tag) (q : Message)
    (peer : Option IpAddr) (proto : ClientProto) (traced : Bool) (tr : Trace) (ctx : QueryContext)
    (h : Ends (Server.handle reg depth entry (request q peer proto traced)) tr (ctx, .ok ()))
    (hecs : (ecsOf q = none ∧ (ecsOf ctx.query).isSome) ∨ ctx.ecsRefused = true)
    (resp : Message) (hresp : ctx.response = some resp) : WithoutSubnet resp := by
  by_cases hd : classifyIncoming q = .Drop
  · simp only [Server.handle, QueryContext.new, hd] at h
    cases (ends_done h).2
    cases hresp
  · have hstart : Stripped.Marked q (request q peer proto traced) :=
      ⟨fun hn hi => by simp [QueryContext.new, hn] at hi, fun hr => by cases hr⟩
    have hentered : Stripped.Marked q ((request q peer proto traced).beginPipeline entry) :=
      ⟨hstart.injected, hstart.refused⟩
    obtain ⟨c, hc, rfl⟩ := (Stripped.kept q).reply hstart hentered h (fun _ _ => trivial) hd
    rw [Server.query_finalized, Server.ecsRefused_finalized] at hecs
    have hstrip : c.stripEcsOnReply = true := hecs.elim (fun hi => hc.injected hi.1 hi.2) hc.refused
    simp only [Server.finalized, QueryContext.finalizeResponse, hstrip, if_true] at hresp
    obtain ⟨r, -, rfl⟩ := Option.map_eq_some_iff.1 hresp
    exact withoutSubnet_removeEcs r

/-! ### An upstream that echoes the subnet -/

section Sample

omit [Crates]

open Sample

/-- Attaches the client's own network. -/
def ecs : Ecs where
  tag := "ecs"
  auto := true
  ipv4 := none
  ipv6 := none
  forceOverwrite := false
  mask4 := 24
  mask6 := 48

def attaching : Registry :=
  registry [("ecs", .ecs ecs), ("up", .forward forward),
    ("main", .sequence ⟨"main", [⟨[], .Plugin "ecs"⟩, ⟨[], .Plugin "up"⟩]⟩)] rfl

/-- The subnet that is attached for the client at 8.8.8.8. -/
def subnet : ClientSubnet := ⟨.v4 (Ipv4Addr.ofOctets 8 8 8 0), 24, 0⟩

def echoing : Message := setEcs { upstream with queries := capitals.queries } subnet

theorem withoutSubnet_echoing : ∃ (ctx : QueryContext) (resp : Message),
    ecsOf ctx.query = some subnet ∧ resp.edns.isSome ∧ WithoutSubnet resp := by
  have h : ((@Server.handle codec attaching 3 "main" (request capitals
      (some (.v4 (Ipv4Addr.ofOctets 8 8 8 8))) .Udp false)).play
      (@Resolver.oracle codec attaching 3 (answering echoing)) false world).map
        (fun x => (x.2.1.2.toOption, x.2.1.1.response.map fun r => r.edns.isSome,
          ecsOf x.2.1.1.query)) = some (some (), some true, some subnet) := by decide +kernel
  obtain ⟨⟨tr, ⟨ctx, res⟩, w, new⟩, hp, hx⟩ := Option.map_eq_some_iff.1 h
  simp only [Prod.mk.injEq, Option.map_eq_some_iff] at hx
  obtain ⟨hres, ⟨resp, hresp, hedns⟩, hecs⟩ := hx
  cases res with
  | error e => cases hres
  | ok u =>
    exact ⟨ctx, resp, hecs, hedns, @withoutSubnet codec attaching 3 "main" capitals _ .Udp false tr
      ctx (play_ends hp) (.inl ⟨by decide, by simp [hecs]⟩) resp hresp⟩

end Sample

end Reply

end FerrumDns
