import FerrumDns.Plugin.Ecs
import FerrumDns.Sample

/-! IPv4 clients of an IPv6 socket. A dual-stack listener reports their addresses in
mapped form. Whether such an address is public is asked of the IPv4 address inside;
the choice of a mask, the masking and the address sets go by the outer family. -/

namespace FerrumDns

open Dnsutil

/-- `::ffff:a.b.c.d`. -/
def Ipv4Addr.mapped (a : Ipv4Addr) : Ipv6Addr := BitVec.ofNat 128 (0xffff * 2 ^ 32 + a.toNat)

theorem Ipv4Addr.toIpv4Mapped_mapped (a : Ipv4Addr) : a.mapped.toIpv4Mapped = some a := by
  have ha : a.toNat < 2 ^ 32 := a.isLt
  have hval : a.mapped.toNat = 0xffff * 2 ^ 32 + a.toNat := by
    rw [mapped, BitVec.toNat_ofNat]
    exact Nat.mod_eq_of_lt (by omega)
  have hhigh : a.mapped.toNat / 2 ^ 32 = 0xffff := by omega
  rw [Ipv6Addr.toIpv4Mapped, if_pos hhigh, Option.some.injEq]
  apply BitVec.eq_of_toNat_eq
  rw [BitVec.toNat_ofNat]
  omega

theorem isPublicIp_mapped (a : Ipv4Addr) : isPublicIp (.v6 a.mapped) = isPublicIpv4 a := by
  rw [isPublicIp, a.toIpv4Mapped_mapped]

/-- An option put in place of the ones with its code is found. -/
theorem Edns.option_insertOption (e : Edns) (o : EdnsOption) :
    ((e.removeOption o.code).insertOption o).option o.code = some o := by
  have hnone : (e.options.filter (·.1 ≠ o.code)).find? (·.1 = o.code) = none := by
    rw [List.find?_eq_none]
    intro x hx
    simpa using (List.mem_filter.1 hx).2
  rw [option, insertOption, removeOption, List.find?_append, hnone]
  simp

theorem ecsOf_setEcs (m : Message) (cs : ClientSubnet) : ecsOf (setEcs m cs) = some cs := by
  have hoption := (m.edns.getD (Edns.new.setMaxPayload 1232)).option_insertOption (.Subnet cs)
  simp only [EdnsOption.code] at hoption
  simp only [ecsOf, setEcs, hoption]

namespace Mapped

variable [Crates]

/-- Networks are of one family: the host bits are cleared within it, and only addresses of it are
contained. -/
structure Families : Prop where
  network : ∀ n, (Crates.network n).isIpv4 = n.addr.isIpv4
  netContains : ∀ n ip, Crates.netContains n ip = true → n.addr.isIpv4 = ip.isIpv4

/-- The request as if it came from this address. -/
def comingFrom (ctx : QueryContext) (ip : IpAddr) : QueryContext := { ctx with clientAddr := some ip }

/-- The subnet on the query after the plugin ran. -/
theorem ecsOf_exec (e : Ecs) (ctx : QueryContext) : ecsOf (e.exec ctx).query =
    if (ecsOf ctx.query).isSome ∧ e.forceOverwrite = false then ecsOf ctx.query
    else ((e.pick ctx).map fun p => (⟨(masked p.1 p.2).1, (masked p.1 p.2).2, 0⟩ : ClientSubnet)).or
      (ecsOf ctx.query) := by
  simp only [Ecs.exec]
  split_ifs with hkeep hnone
  · simp
  · cases hp : e.pick ctx with
    | none => simp
    | some p => simp [ecsOf_setEcs]
  · cases hp : e.pick ctx with
    | none => simp
    | some p => simp [ecsOf_setEcs]

omit [Crates] in
/-- An automatic plugin picks the client's address if it is public. -/
theorem pick_comingFrom {e : Ecs} (h : e.auto = true) (ctx : QueryContext) (ip : IpAddr) :
    e.pick (comingFrom ctx ip) =
      if isPublicIp ip then some (ip, if ip.isIpv4 then e.mask4 else e.mask6) else none := by
  simp [Ecs.pick, h, comingFrom]

theorem isIpv4_masked (hf : Families) (ip : IpAddr) (mask : UInt8) :
    (masked ip mask).1.isIpv4 = ip.isIpv4 :=
  hf.network _

/-- The two forms of an address lead to the same subnet only where none is attached. -/
theorem ecs_agrees_iff (hf : Families) {e : Ecs} (h : e.auto = true) (ctx : QueryContext)
    (a : Ipv4Addr) :
    ecsOf (e.exec (comingFrom ctx (.v6 a.mapped))).query =
        ecsOf (e.exec (comingFrom ctx (.v4 a))).query ↔
      ((ecsOf ctx.query).isSome ∧ e.forceOverwrite = false) ∨ isPublicIpv4 a = false := by
  have hquery (ip : IpAddr) : (comingFrom ctx ip).query = ctx.query := rfl
  have hpublic : isPublicIp (.v4 a) = isPublicIpv4 a := rfl
  simp only [ecsOf_exec, hquery, pick_comingFrom h, isPublicIp_mapped, hpublic]
  by_cases hkeep : (ecsOf ctx.query).isSome ∧ e.forceOverwrite = false
  · simp [hkeep]
  · by_cases hpub : isPublicIpv4 a = true
    · have hne : (masked (.v6 a.mapped) e.mask6).1 ≠ (masked (.v4 a) e.mask4).1 := by
        intro heq
        have hsix := isIpv4_masked hf (.v6 a.mapped) e.mask6
        rw [heq, isIpv4_masked hf] at hsix
        cases hsix
      have hsix : (IpAddr.v6 a.mapped).isIpv4 = false := rfl
      have hfour : (IpAddr.v4 a).isIpv4 = true := rfl
      simp [hkeep, hpub, hsix, hfour, hne]
    · simp [hkeep, hpub]

/-- An address set sees the mapped form through its IPv6 networks and the plain one through its
IPv4 networks. -/
theorem contains_iff (hf : Families) (set : IpSet) (ip : IpAddr) : set.contains ip = true ↔
    ∃ n ∈ set.nets, n.addr.isIpv4 = ip.isIpv4 ∧ Crates.netContains n ip = true := by
  rw [IpSet.contains, List.any_eq_true]
  constructor
  · rintro ⟨n, hn, hc⟩
    exact ⟨n, hn, hf.netContains n ip hc, hc⟩
  · rintro ⟨n, hn, -, hc⟩
    exact ⟨n, hn, hc⟩

/-- The plugin and the matcher treat `::ffff:a` as they treat `a` exactly when no subnet is
attached for either and the networks of both families in the set agree on them. -/
theorem agree_iff (hf : Families) (e : Ecs) (h : e.auto = true) (set : IpSet) (ctx : QueryContext)
    (a : Ipv4Addr) :
    (ecsOf (e.exec (comingFrom ctx (.v6 a.mapped))).query =
        ecsOf (e.exec (comingFrom ctx (.v4 a))).query ∧
      (Matcher.ClientIp set).matches (comingFrom ctx (.v6 a.mapped)) =
        (Matcher.ClientIp set).matches (comingFrom ctx (.v4 a))) ↔
    (((ecsOf ctx.query).isSome ∧ e.forceOverwrite = false) ∨ isPublicIpv4 a = false) ∧
      ((∃ n ∈ set.nets, n.addr.isIpv4 = false ∧ Crates.netContains n (.v6 a.mapped) = true) ↔
        ∃ n ∈ set.nets, n.addr.isIpv4 = true ∧ Crates.netContains n (.v4 a) = true) := by
  have hsix := contains_iff hf set (.v6 a.mapped)
  have hfour := contains_iff hf set (.v4 a)
  refine and_congr (ecs_agrees_iff hf h ctx a) ?_
  have hmatch (ip : IpAddr) :
      (Matcher.ClientIp set).matches (comingFrom ctx ip) = set.contains ip := rfl
  rw [hmatch, hmatch, Bool.eq_iff_iff, hsix, hfour]
  rfl

/-! ### A public client -/

section Sample

omit [Crates]

open Sample

@[reducible] def codec : Crates := crates []

/-- An address with its host bits cleared is of the same family. -/
theorem families : @Families codec := by
  refine @Families.mk codec ?_ ?_
  · rintro ⟨a | a, n⟩ <;> rfl
  · intro n ip hc
    simp only [Crates.netContains, netContains, Bool.and_eq_true, beq_iff_eq] at hc
    exact hc.1

/-- Attaches the network of a public client. -/
def auto : Ecs where
  tag := "ecs"
  auto := true
  ipv4 := none
  ipv6 := none
  forceOverwrite := false
  mask4 := 24
  mask6 := 48

/-- `10.0.0.0/8`. -/
def lan : IpSet := ⟨[⟨.v4 (Ipv4Addr.ofOctets 10 0 0 0), 8⟩]⟩

/-- A client in a private network that no set mentions is treated alike. -/
theorem agree_iff_private : ecsOf (@Ecs.exec codec auto (comingFrom context
      (.v6 (Ipv4Addr.ofOctets 192 168 0 1).mapped))).query =
        ecsOf (@Ecs.exec codec auto (comingFrom context (.v4 (Ipv4Addr.ofOctets 192 168 0 1)))).query ∧
    @Matcher.matches codec (.ClientIp lan) (comingFrom context
      (.v6 (Ipv4Addr.ofOctets 192 168 0 1).mapped)) =
        @Matcher.matches codec (.ClientIp lan)
          (comingFrom context (.v4 (Ipv4Addr.ofOctets 192 168 0 1))) :=
  (@agree_iff codec families auto rfl lan context (Ipv4Addr.ofOctets 192 168 0 1)).2
    ⟨.inr (by decide +kernel), by decide +kernel⟩

/-- `8.8.8.8` and its mapped form have different networks attached. -/
theorem agree_fails : ¬ ∀ (e : Ecs) (set : IpSet) (ctx : QueryContext) (a : Ipv4Addr), e.auto = true →
    ecsOf (@Ecs.exec codec e (comingFrom ctx (.v6 a.mapped))).query =
      ecsOf (@Ecs.exec codec e (comingFrom ctx (.v4 a))).query ∧
    @Matcher.matches codec (.ClientIp set) (comingFrom ctx (.v6 a.mapped)) =
      @Matcher.matches codec (.ClientIp set) (comingFrom ctx (.v4 a)) := by
  intro h
  have hne : ecsOf (@Ecs.exec codec auto (comingFrom context
      (.v6 (Ipv4Addr.ofOctets 8 8 8 8).mapped))).query ≠
      ecsOf (@Ecs.exec codec auto (comingFrom context (.v4 (Ipv4Addr.ofOctets 8 8 8 8)))).query := by
    decide +kernel
  exact hne (h auto lan context _ rfl).1

end Sample

end Mapped

end FerrumDns
