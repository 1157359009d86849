import FerrumDns.Pipeline.Invariant
import FerrumDns.Sample

/-! The size limit of a datagram reply. It is read off the context's query after
the pipeline ran. No step changes the payload size of an OPT record that is there,
and only attaching a subnet adds one: as long as no such step meets a query without
OPT, the limit is the one of the query as received. -/

namespace FerrumDns

open Prog Dnsutil

namespace UdpLimit

/-- The payload size a query advertises. -/
def payload (q : Message) : Option UInt16 := q.edns.map Edns.maxPayload

theorem udpPayloadMax_congr {q q' : Message} (h : payload q = payload q') :
    udpPayloadMax q = udpPayloadMax q' := by
  have hmap (m : Message) : m.edns.map (fun e => e.maxPayload.toNat) =
      (payload m).map UInt16.toNat := by simp [payload, Function.comp_def]
  rw [udpPayloadMax, udpPayloadMax, hmap, hmap, h]

theorem payload_setEcs {q : Message} (h : q.edns.isSome) (cs : ClientSubnet) :
    payload (setEcs q cs) = payload q := by
  obtain ⟨e, he⟩ := Option.isSome_iff_exists.1 h
  simp [payload, setEcs, he, Edns.insertOption, Edns.removeOption]

theorem payload_removeEcs (q : Message) : payload (removeEcs q) = payload q := by
  simp [payload, removeEcs, Function.comp_def, Edns.removeOption]

theorem query_rewriteName_edns (ctx : QueryContext) (name : Name) :
    (ctx.rewriteName name).query.edns = ctx.query.edns := by
  obtain ⟨_, _, h⟩ := ctx.rewriteName_eq name
  rw [h]

theorem payload_edit {ctx ctx' : QueryContext} (h : Edit ctx ctx') :
    payload ctx'.query = payload ctx.query := by
  cases h with
  | trace plugin event => simp
  | rewrite name => rw [payload, payload, query_rewriteName_edns]
  | detach => exact payload_removeEcs _
  | _ => rfl

variable [Crates]

/-- The call that gives a query without OPT record one of its own. -/
def addsOpt : Eff → Bool
  | .call (.ecs e) ctx => ctx.query.edns.isNone && (e.attaches ctx).isSome
  | _ => false

/-- While no call adds an OPT record the payload stays that of `q`. -/
theorem kept (q : Message) :
    Kept (fun e _ => addsOpt e = false) fun ctx => payload ctx.query = payload q where
  amend he hi := (payload_edit he.edit).trans hi
  redirect {r ctx} _ hi := (r.exec_edits ctx).keep (fun he h => (payload_edit he).trans h) hi
  attach {e ctx ctx' cs} hr ha hi hq _ := by
    have hopt : ctx.query.edns.isSome := by
      by_contra hn
      have hadd : addsOpt (.call (.ecs e) ctx) = true := by
        simp only [Option.isSome_iff_ne_none, ne_eq, not_not] at hn
        simp [addsOpt, hn, ha]
      exact absurd (hr.symm.trans hadd) (by decide)
    exact (payload_setEcs (hq ▸ hopt) cs).trans hi
  fork hi := hi
  absorb _ ho := ho
  hit hi := hi

/-- In a run that adds no OPT record the reply is limited by the query as received: by 512 octets
when the client sent no OPT record. -/
theorem limit_of_received (reg : Registry) (depth : ℕ) (entry : Tag) (buf : Bytes) (peer : IpAddr)
    (q : Message) (tr : Trace) (r : Server.UdpReply) (hq : decode buf = .ok q)
    (hr : Ends (Server.udpTask reg depth entry buf peer) tr (some r))
    (hs : ∀ ev ∈ tr, addsOpt ev.1 = false) :
    r.max = udpPayloadMax q ∧ (q.edns = none → r.max = 512) := by
  have limit : r.max = udpPayloadMax q := by
    simp only [Server.udpTask, hq] at hr
    split at hr
    · cases (ends_done hr).2
    · cases (ends_done hr).2
      rfl
    next hc =>
      have hne : classifyIncoming q ≠ .Drop := by rw [hc]; decide
      obtain ⟨tr₁, tr₂, ⟨ctx, res⟩, rfl, hh, hd⟩ := ends_bind hr
      cases res with
      | error e => cases (ends_done hd).2
      | ok u =>
        obtain ⟨c, hc', rfl⟩ := (kept q).reply rfl rfl hh (fun ev hev => hs ev (by simp [hev])) hne
        have hrep := (ends_done hd).2
        simp only [Server.udpReply, Option.map_eq_some_iff] at hrep
        obtain ⟨resp, -, rfl⟩ := hrep
        rw [Server.query_finalized]
        exact udpPayloadMax_congr hc'
  exact ⟨limit, fun hn => by rw [limit, udpPayloadMax, hn]; rfl⟩

/-! ### A run that adds an OPT record -/

section Sample

omit [Crates]

open Sample

def ecs : Ecs where
  tag := "ecs"
  auto := false
  ipv4 := some (Ipv4Addr.ofOctets 203 0 113 9)
  ipv6 := none
  forceOverwrite := false
  mask4 := 24
  mask6 := 48

/-- `main` attaches a subnet before it refuses, `plain` only refuses. -/
def refusing : Registry :=
  registry [("ecs", .ecs ecs),
    ("main", .sequence ⟨"main", [⟨[], .Plugin "ecs"⟩, ⟨[], .Builtin (.Reject .Refused)⟩]⟩),
    ("plain", .sequence ⟨"plain", [⟨[], .Builtin (.Reject .Refused)⟩]⟩)] rfl

abbrev codec : Crates := crates [(query, queryWire)]

abbrev answers : Oracle World Owner QueryContext Eff Eff.Answer :=
  @Resolver.oracle codec refusing 3 fun _ _ => none

theorem limit_of_received_plain : ∃ r : Server.UdpReply,
    r.max = udpPayloadMax query ∧ (query.edns = none → r.max = 512) := by
  have h : ((@Server.udpTask codec refusing 3 "plain" queryWire (.v4 0)).play answers false world).map
      (fun x => (x.2.1.isSome, x.1.all fun ev => !@addsOpt codec ev.1)) =
        some (true, true) := rfl
  obtain ⟨⟨tr, r, w, new⟩, hp, hr⟩ := Option.map_eq_some_iff.1 h
  simp only [Prod.mk.injEq, Option.isSome_iff_exists, List.all_eq_true,
    Bool.not_eq_true'] at hr
  obtain ⟨⟨r, rfl⟩, hs⟩ := hr
  exact ⟨r, @limit_of_received codec refusing 3 "plain" queryWire (.v4 0) query tr r rfl
    (play_ends hp) hs⟩

/-- The client sent no OPT record, and the reply may take 1232 octets. -/
theorem limit_raised : @decode codec queryWire = .ok query ∧ udpPayloadMax query = 512 ∧
    ∃ tr r, Ends (@Server.udpTask codec refusing 3 "main" queryWire (.v4 0)) tr (some r) ∧
      r.max = 1232 := by
  refine ⟨rfl, rfl, ?_⟩
  have h : ((@Server.udpTask codec refusing 3 "main" queryWire (.v4 0)).play answers false world).map
      (fun x => x.2.1.map Server.UdpReply.max) = some (some 1232) := rfl
  obtain ⟨⟨tr, r, w, new⟩, hp, hr⟩ := Option.map_eq_some_iff.1 h
  obtain ⟨r, rfl, hmax⟩ := Option.map_eq_some_iff.1 hr
  exact ⟨tr, r, play_ends hp, hmax⟩

end Sample

end UdpLimit

end FerrumDns
