import FerrumDns.Api.Query
import FerrumDns.Dns.AddressRead
import FerrumDns.Ecs.Disclosure
import FerrumDns.Reply.Subnet

/-! The subnet that an answer to a diagnostic query reports can be posted with the next
query and is read as the same subnet. All subnets of such a query were masked, those the
request came with and those a plugin attached, so that reading the label of one gives it
back with nothing left to mask. -/

namespace FerrumDns

open Prog Dnsutil Text AddressParse Fallible

variable [Crates]

/-! ### Labels -/

/-- Nothing is left to mask, and no scope was answered. -/
structure ClientSubnet.Canonical (cs : ClientSubnet) : Prop where
  masked : masked cs.addr cs.sourcePrefix = (cs.addr, cs.sourcePrefix)
  scope : cs.scopePrefix = 0

/-- Masking twice is masking once. -/
theorem masked_masked (hnet : Ecs.ClearsHostBits) (ip : IpAddr) (pre : UInt8) :
    masked (masked ip pre).1 (masked ip pre).2 = masked ip pre := by
  have hfamily : (masked ip pre).1.isIpv4 = ip.isIpv4 := hnet.family _
  have hagree : (masked ip pre).1.Agree (masked ip pre).2.toNat ip := by
    intro i hi
    have hi : i < (min pre ip.width).toNat := hi
    rw [Ecs.bit_masked hnet]
    simp [hi]
  rw [Ecs.masked_eq hnet hfamily hagree]
  have hmin : min (min pre ip.width) ip.width = min pre ip.width := by
    apply UInt8.toNat_inj.1
    rw [toNat_min, toNat_min]
    omega
  exact congrArg (fun n => (Crates.network ⟨ip, n.toNat⟩, n)) hmin

theorem canonical_masked (hnet : Ecs.ClearsHostBits) (ip : IpAddr) (pre : UInt8) :
    ClientSubnet.Canonical ⟨(masked ip pre).1, (masked ip pre).2, 0⟩ :=
  ⟨masked_masked hnet ip pre, rfl⟩

/-- The label of a subnet is read as the subnet that masking makes of it. -/
theorem Dnsutil.parseEcsSpec_ecsLabel (cs : ClientSubnet) : parseEcsSpec (ecsLabel (some cs)) =
    .ok ⟨(masked cs.addr cs.sourcePrefix).1, (masked cs.addr cs.sourcePrefix).2, 0⟩ := by
  have hdigit : ∀ c : Char, isHexDigit c → isWhitespace c = false := by
    intro c hc
    have hall : "0123456789abcdef".toList.all (fun c => !isWhitespace c) = true := by decide
    simpa using List.all_eq_true.1 hall c (by simpa [isHexDigit] using hc)
  have hslash : '/' ∉ cs.addr.display := by
    intro h
    rcases IpAddr.mem_display h with h | h | h <;> revert h <;> decide
  have hwhite : ∀ c ∈ cs.addr.display ++ '/' :: decimal cs.sourcePrefix.toNat,
      isWhitespace c = false := by
    intro c hc
    rcases List.mem_append.1 hc with hc | hc
    · rcases IpAddr.mem_display hc with hc | rfl | rfl
      · exact hdigit c hc
      · rfl
      · rfl
    · rcases List.mem_cons.1 hc with rfl | hc
      · rfl
      · exact hdigit c (isHexDigit_of_mem_decimal hc)
  have hpre : parseBelow 256 (decimal cs.sourcePrefix.toNat) =
      some ⟨cs.sourcePrefix.toNat, cs.sourcePrefix.toNat_lt⟩ :=
    parseBelow_decimal ⟨cs.sourcePrefix.toNat, cs.sourcePrefix.toNat_lt⟩
  rw [parseEcsSpec, ecsLabel]
  simp only [trim_of_not_white hwhite, splitOnce_of_notMem hslash, parseIp_display, hpre]
  rw [UInt8.ofNat_toNat]
  rfl

theorem ClientSubnet.Canonical.parseEcsSpec {cs : ClientSubnet} (h : cs.Canonical) :
    Dnsutil.parseEcsSpec (ecsLabel (some cs)) = .ok cs := by
  rw [parseEcsSpec_ecsLabel, h.masked, ← h.scope]

theorem canonical_of_parseEcsSpec (hnet : Ecs.ClearsHostBits) {spec : Text} {cs : ClientSubnet}
    (h : parseEcsSpec spec = .ok cs) : cs.Canonical := by
  rw [parseEcsSpec] at h
  obtain ⟨⟨ip, pre⟩, -, rfl⟩ := map_eq_ok.1 h
  exact canonical_masked hnet ip pre

theorem canonical_of_attaches (hnet : Ecs.ClearsHostBits) {e : Ecs} {ctx : QueryContext}
    {cs : ClientSubnet} (h : e.attaches ctx = some cs) : cs.Canonical := by
  simp only [Ecs.attaches] at h
  split_ifs at h
  obtain ⟨p, -, rfl⟩ := Option.map_eq_some_iff.1 h
  exact canonical_masked hnet p.1 p.2

/-! ### Pipelines -/

/-- The subnet on the query was masked. -/
def CanonicalSubnet (ctx : QueryContext) : Prop :=
  ∀ cs, ecsOf ctx.query = some cs → cs.Canonical

theorem CanonicalSubnet.edit {ctx ctx' : QueryContext} (he : Edit ctx ctx')
    (h : CanonicalSubnet ctx) : CanonicalSubnet ctx' := by
  cases he with
  | trace plugin event =>
    obtain ⟨_, ht⟩ := ctx.pushTrace_eq plugin event
    rw [ht]
    exact h
  | rewrite name =>
    unfold QueryContext.rewriteName
    dsimp only
    split
    · exact h
    · split_ifs
      · exact h
      · exact h
  | detach =>
    intro cs hcs
    rw [ecsOf_eq_none (withoutSubnet_removeEcs _)] at hcs
    cases hcs
  | _ => exact h

theorem canonicalSubnet_kept (hnet : Ecs.ClearsHostBits) : Kept (fun _ _ => True) CanonicalSubnet where
  amend he hi := hi.edit he.edit
  redirect {r ctx} _ hi := (r.exec_edits ctx).keep (fun he h => h.edit he) hi
  attach {e ctx ctx' cs} _ ha _ _ _ := by
    intro cs' hcs'
    rw [Ecs.attach, ecsOf_setEcs] at hcs'
    cases hcs'
    exact canonical_of_attaches hnet ha
  fork hi := hi
  absorb _ ho := ho
  hit hi := hi

/-! ### Requests -/

namespace Api

variable {forms : Forms} {rt : Runtime}

/-- A request starts with the subnet that was posted with it. -/
theorem prepare_subnet {id : UInt16} {req : QueryReq} {start : QueryContext} {entry : Tag}
    (h : prepare forms rt id req = .ok (start, entry)) :
    match req.ecs with
    | some spec => ∃ cs, parseEcsSpec spec = .ok cs ∧ ecsOf start.query = some cs
    | none => ecsOf start.query = none := by
  simp only [prepare, bind_eq_ok] at h
  obtain ⟨_, -, msg, hmsg, msg', hmsg', _, -, _, -, _, -, hdone⟩ := h
  cases hdone
  cases hreq : req.ecs with
  | some spec =>
    rw [hreq, attachEcs] at hmsg'
    cases hspec : parseEcsSpec spec with
    | error e =>
      rw [hspec] at hmsg'
      cases hmsg'
    | ok cs =>
      rw [hspec] at hmsg'
      cases hmsg'
      exact ⟨cs, hspec, ecsOf_setEcs msg cs⟩
  | none =>
    rw [hreq, attachEcs] at hmsg'
    cases hmsg'
    rw [buildQuery] at hmsg
    cases hname : forms.fromAscii
        (if req.name.getLast? = some '.' then req.name else req.name ++ ['.']) with
    | error e =>
      rw [hname] at hmsg
      cases hmsg
    | ok name =>
      rw [hname] at hmsg
      cases hmsg
      rfl

/-- With another subnet that can be read, the request is as good. -/
theorem prepare_repost {id : UInt16} {req : QueryReq} {start : QueryContext} {entry : Tag}
    (h : prepare forms rt id req = .ok (start, entry)) {spec : Text} {cs : ClientSubnet}
    (hspec : parseEcsSpec spec = .ok cs) : ∃ start',
      prepare forms rt id { req with ecs := some spec } = .ok (start', entry) ∧
        ecsOf start'.query = some cs := by
  simp only [prepare, bind_eq_ok] at h
  obtain ⟨qtype, hqtype, msg, hmsg, _, -, ip, hip, tag, htag, _, hexec, hdone⟩ := h
  cases hdone
  refine ⟨{ QueryContext.new (setEcs msg cs) ip .Https with traceEnabled := true }, ?_, ?_⟩
  · simp only [prepare, bind_eq_ok]
    refine ⟨qtype, hqtype, msg, hmsg, setEcs msg cs, ?_, ip, hip, entry, htag, _, hexec, rfl⟩
    rw [attachEcs, hspec]
    rfl
  · exact ecsOf_setEcs msg cs

/-- Whatever a diagnostic query was and went through, the subnet that its answer reports can be posted
with the same query, which then starts with the subnet that the first one ended with. -/
theorem reported_subnet_reposted (hnet : Ecs.ClearsHostBits) {depth : ℕ} {id : UInt16}
    {req : QueryReq} {tr : Trace} {resp : QueryResp} {label : Text}
    (he : Ends (query forms rt depth id req) tr (.ok resp)) (hlabel : resp.ecs = some label) :
    ∃ start entry ctx cs, prepare forms rt id req = .ok (start, entry) ∧
      Ends (Server.handleQuery rt.registry depth entry start) tr (ctx, .ok ()) ∧
      resp = report forms rt ctx ∧ ecsOf ctx.query = some cs ∧ label = ecsLabel (some cs) ∧
      ∃ start', prepare forms rt id { req with ecs := some label } = .ok (start', entry) ∧
        ecsOf start'.query = some cs := by
  obtain ⟨start, entry, ctx, hp, hrun, rfl⟩ := query_ends_ok.1 he
  obtain ⟨cs, hcs, rfl⟩ := Option.map_eq_some_iff.1 hlabel
  have hstart : CanonicalSubnet start := by
    have hsubnet := prepare_subnet hp
    intro cs' hcs'
    cases hreq : req.ecs with
    | some spec =>
      rw [hreq] at hsubnet
      obtain ⟨cs'', hspec, hquery⟩ := hsubnet
      rw [hcs'] at hquery
      cases hquery
      exact canonical_of_parseEcsSpec hnet hspec
    | none =>
      rw [hreq] at hsubnet
      simp only at hsubnet
      rw [hcs'] at hsubnet
      cases hsubnet
  have hcanonical : CanonicalSubnet ctx := by
    have hentered : CanonicalSubnet (start.beginPipeline (Server.entryTag entry)) := by
      unfold QueryContext.beginPipeline
      split_ifs
      · exact hstart
      · exact hstart
    by_cases hd : classifyIncoming start.query = .Drop
    · simp only [Server.handleQuery, Server.handle, hd] at hrun
      cases (ends_done hrun).2
      exact hstart
    · obtain ⟨c, hc, rfl⟩ := (canonicalSubnet_kept hnet).reply hstart hentered hrun
        (fun _ _ => trivial) hd
      intro cs' hcs'
      rw [Server.query_finalized] at hcs'
      exact hc cs' hcs'
  obtain ⟨start', hp', hquery⟩ := prepare_repost hp (hcanonical cs hcs).parseEcsSpec
  exact ⟨start, entry, ctx, cs, hp, hrun, rfl, hcs, rfl, start', hp', hquery⟩

/-! ### A host in its network -/

section Sample

omit [Crates]

theorem clearsHostBits_codec : @Ecs.ClearsHostBits Sample.codec :=
  have h := Ecs.Sample.clearsHostBits
  @Ecs.ClearsHostBits.mk Sample.codec (@Ecs.ClearsHostBits.family (FerrumDns.Sample.crates []) h)
    (@Ecs.ClearsHostBits.bit (FerrumDns.Sample.crates []) h)

/-- Asked with the address of a host. -/
def hostAsked : QueryReq := { asked with ecs := some "8.8.8.8/24".toList }

theorem reported_subnet_reposted_host : ∃ rt tr resp, builtDropping = .ok rt ∧
    Ends (@query Sample.codec sampleForms rt 4 1 hostAsked) tr (.ok resp) ∧
    ∃ start entry cs, @prepare Sample.codec sampleForms rt 1
        { hostAsked with ecs := some "8.8.8.0/24".toList } = .ok (start, entry) ∧
      ecsOf start.query = some cs ∧ "8.8.8.0/24".toList = ecsLabel (some cs) := by
  have h : (builtDropping.toOption.bind fun rt =>
      (@prepare Sample.codec sampleForms rt 1 hostAsked).toOption.bind fun p =>
        (ran rt p.1 p.2 Sample.world).map fun x =>
          (x.2.1.2, ecsOf x.2.1.1.query)) =
      some (.ok (), some ⟨.v4 (.ofOctets 8 8 8 0), 24, 0⟩) := by decide +kernel
  obtain ⟨rt, hb, h⟩ := Option.bind_eq_some_iff.1 h
  obtain ⟨⟨start, entry⟩, hp, h⟩ := Option.bind_eq_some_iff.1 h
  obtain ⟨⟨tr, ⟨ctx, r⟩, w⟩, hx, h⟩ := Option.map_eq_some_iff.1 h
  simp only [Prod.mk.injEq] at h
  obtain ⟨rfl, hecs⟩ := h
  have he := (@query_ends_ok Sample.codec sampleForms rt 4 1 hostAsked tr _).2
    ⟨start, entry, ctx, toOption_eq_some.1 hp, play_ends hx, rfl⟩
  have hlabel : (report sampleForms rt ctx).ecs = some "8.8.8.0/24".toList := by
    simp only [report, hecs, Option.map_some]
    decide +kernel
  obtain ⟨_, entry', _, cs, -, -, -, -, hcs, start', hp', hquery⟩ :=
    @reported_subnet_reposted Sample.codec _ _ clearsHostBits_codec _ _ _ _ _ _ he hlabel
  exact ⟨rt, tr, _, toOption_eq_some.1 hb, he, start', entry', cs, hp', hquery, hcs⟩

end Sample

end Api

end FerrumDns
