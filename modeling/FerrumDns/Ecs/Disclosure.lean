import FerrumDns.Listeners.Mapped

/-! What an automatic subnet tells about a client. Of a public address only the bits
within the mask reach the query, so two clients that share them cannot be told apart;
a client in a local range leaves the query as it was. Ranges are given as networks and
compared bit by bit, the most significant one first. -/

namespace FerrumDns

open Dnsutil

namespace IpAddr

/-- Bit `i`, the most significant one first. -/
def bit : IpAddr → ℕ → Bool
  | v4 a, i => a.getMsbD i
  | v6 a, i => a.getMsbD i

/-- The same first `n` bits. -/
def Agree (n : ℕ) (a b : IpAddr) : Prop := ∀ i < n, a.bit i = b.bit i

/-- The address lies in the network. -/
def Inside (ip : IpAddr) (net : IpNet) : Prop :=
  ip.isIpv4 = net.addr.isIpv4 ∧ ip.Agree net.prefixLen net.addr

/-- Private, shared, loopback, link-local, unspecified, multicast and broadcast IPv4 addresses. -/
def localNets4 : List (Ipv4Addr × ℕ) :=
  [(.ofOctets 10 0 0 0, 8), (.ofOctets 172 16 0 0, 12), (.ofOctets 192 168 0 0, 16),
    (.ofOctets 100 64 0 0, 10), (.ofOctets 127 0 0 0, 8), (.ofOctets 169 254 0 0, 16),
    (.ofOctets 0 0 0 0, 32), (.ofOctets 224 0 0 0, 4), (.ofOctets 255 255 255 255, 32)]

/-- Loopback, link-local, unspecified, multicast and unique-local IPv6 addresses. -/
def localNets6 : List (Ipv6Addr × ℕ) :=
  [(1, 128), (0xfe80 <<< 112, 10), (0, 128), (0xff00 <<< 112, 8), (0xfc00 <<< 112, 7)]

def localNets : List IpNet :=
  (localNets4.map fun x => ⟨v4 x.1, x.2⟩) ++ localNets6.map fun x => ⟨v6 x.1, x.2⟩

/-- In a local network, or the mapped form of such an IPv4 address. -/
def Local (ip : IpAddr) : Prop :=
  (∃ net ∈ localNets, ip.Inside net) ∨
    ∃ a : Ipv4Addr, ip = v6 a.mapped ∧ ∃ net ∈ localNets, (v4 a).Inside net

end IpAddr

/-- Agreeing on the first bits is agreeing on the number they make up. -/
theorem getMsbD_agree_iff {w n : ℕ} (hn : n ≤ w) (a b : BitVec w) :
    (∀ i < n, a.getMsbD i = b.getMsbD i) ↔ a.toNat / 2 ^ (w - n) = b.toNat / 2 ^ (w - n) := by
  constructor
  · intro h
    apply Nat.eq_of_testBit_eq
    intro j
    rw [Nat.testBit_div_two_pow, Nat.testBit_div_two_pow]
    by_cases hj : j < n
    · have hbit := h (n - 1 - j) (by omega)
      simp only [BitVec.getMsbD, BitVec.getLsbD] at hbit
      rw [show w - 1 - (n - 1 - j) = w - n + j by omega] at hbit
      simpa [show n - 1 - j < w by omega, add_comm] using hbit
    · have ha : a.toNat.testBit (j + (w - n)) = false :=
        Nat.testBit_lt_two_pow (lt_of_lt_of_le a.isLt (Nat.pow_le_pow_right (by omega) (by omega)))
      have hb : b.toNat.testBit (j + (w - n)) = false :=
        Nat.testBit_lt_two_pow (lt_of_lt_of_le b.isLt (Nat.pow_le_pow_right (by omega) (by omega)))
      rw [ha, hb]
  · intro h i hi
    have hbit := congrArg (Nat.testBit · (n - 1 - i)) h
    simp only [Nat.testBit_div_two_pow] at hbit
    rw [show n - 1 - i + (w - n) = w - 1 - i by omega] at hbit
    simp only [BitVec.getMsbD, BitVec.getLsbD, hbit]

/-! ### Local addresses -/

theorem inside_v4 {a b : Ipv4Addr} {n : ℕ} (hn : n ≤ 32) (h : (IpAddr.v4 a).Inside ⟨.v4 b, n⟩) :
    a.toNat / 2 ^ (32 - n) = b.toNat / 2 ^ (32 - n) :=
  (getMsbD_agree_iff hn a b).1 h.2

theorem inside_v6 {a b : Ipv6Addr} {n : ℕ} (hn : n ≤ 128) (h : (IpAddr.v6 a).Inside ⟨.v6 b, n⟩) :
    a.toNat / 2 ^ (128 - n) = b.toNat / 2 ^ (128 - n) :=
  (getMsbD_agree_iff hn a b).1 h.2

/-- The two high bits of the second octet of a shared address. -/
theorem land_shared : ∀ k < 64, (64 + k) &&& 0xc0 = 64 := by decide +kernel

theorem land_uniqueLocal : ∀ k < 512, (0xfc00 + k) &&& 0xfe00 = 0xfc00 := by decide +kernel

theorem land_linkLocal : ∀ k < 64, (0xfe80 + k) &&& 0xffc0 = 0xfe80 := by decide +kernel

theorem land_multicast : ∀ k < 256, (0xff00 + k) &&& 0xff00 = 0xff00 := by decide +kernel

theorem not_public_iff (a : Ipv4Addr) : isPublicIpv4 a = false ↔
    a.isPrivate ∨ a.isLoopback ∨ a.isLinkLocal ∨ a.isUnspecified ∨ a.isBroadcast ∨
      a.isDocumentation ∨ a.isMulticast ∨ (a.octet 0 = 100 ∧ a.octet 1 &&& 0xc0 = 64) ∨
      a.octet 0 = 0 ∨ 224 ≤ a.octet 0 := by
  simp only [isPublicIpv4, Bool.and_eq_false_iff, Bool.not_eq_false', Bool.or_eq_true,
    Bool.and_eq_true, beq_iff_eq, decide_eq_true_eq, or_assoc]

theorem not_public_of_inside4 {a : Ipv4Addr} (h : ∃ net ∈ IpAddr.localNets, (IpAddr.v4 a).Inside net) :
    isPublicIpv4 a = false := by
  obtain ⟨net, hnet, hin⟩ := h
  have hlt := a.isLt
  rw [not_public_iff]
  simp only [Ipv4Addr.isPrivate, Ipv4Addr.isLoopback, Ipv4Addr.isLinkLocal, Bool.or_eq_true,
    Bool.and_eq_true, beq_iff_eq, decide_eq_true_eq]
  simp only [Ipv4Addr.octet, Nat.reduceMul, Nat.reduceSub]
  rcases List.mem_append.1 hnet with hnet | hnet
  · obtain ⟨⟨b, n⟩, hb, rfl⟩ := List.mem_map.1 hnet
    simp only [IpAddr.localNets4, List.mem_cons, List.not_mem_nil, or_false, Prod.mk.injEq] at hb
    rcases hb with ⟨rfl, rfl⟩ | ⟨rfl, rfl⟩ | ⟨rfl, rfl⟩ | ⟨rfl, rfl⟩ | ⟨rfl, rfl⟩ | ⟨rfl, rfl⟩ |
      ⟨rfl, rfl⟩ | ⟨rfl, rfl⟩ | ⟨rfl, rfl⟩
    · have hnum : a.toNat / 2 ^ 24 = 10 := inside_v4 (by decide) hin
      omega
    · have hnum : a.toNat / 2 ^ 20 = 0xac1 := inside_v4 (by decide) hin
      omega
    · have hnum : a.toNat / 2 ^ 16 = 0xc0a8 := inside_v4 (by decide) hin
      omega
    · have hnum : a.toNat / 2 ^ 22 = 0x191 := inside_v4 (by decide) hin
      have hland := land_shared (a.toNat / 2 ^ 16 % 64) (Nat.mod_lt _ (by decide))
      rw [show 64 + a.toNat / 2 ^ 16 % 64 = a.toNat / 2 ^ 16 % 256 by omega] at hland
      have hfirst : a.toNat / 2 ^ 24 % 256 = 100 := by omega
      simp only [hfirst, hland, and_self, true_or, or_true]
    · have hnum : a.toNat / 2 ^ 24 = 127 := inside_v4 (by decide) hin
      omega
    · have hnum : a.toNat / 2 ^ 16 = 0xa9fe := inside_v4 (by decide) hin
      omega
    · have hnum : a.toNat / 2 ^ 0 = 0 := inside_v4 (by decide) hin
      omega
    · have hnum : a.toNat / 2 ^ 28 = 14 := inside_v4 (by decide) hin
      omega
    · have hnum : a.toNat / 2 ^ 0 = 0xffffffff := inside_v4 (by decide) hin
      omega
  · obtain ⟨⟨b, n⟩, -, rfl⟩ := List.mem_map.1 hnet
    exact absurd hin.1 (by simp [IpAddr.isIpv4])

/-- No local IPv6 network reaches into the mapped addresses. -/
theorem not_public_of_inside6 {a : Ipv6Addr} (h : ∃ net ∈ IpAddr.localNets, (IpAddr.v6 a).Inside net) :
    isPublicIp (.v6 a) = false := by
  obtain ⟨net, hnet, hin⟩ := h
  have hlt := a.isLt
  have unmapped (h : a.toNat / 2 ^ 32 ≠ 0xffff) : isPublicIp (.v6 a) =
      (!a.isLoopback && !a.isUnspecified && !a.isMulticast &&
        a.segment 0 &&& 0xfe00 != 0xfc00 && a.segment 0 &&& 0xffc0 != 0xfe80) := by
    rw [isPublicIp, Ipv6Addr.toIpv4Mapped, if_neg h]
  rcases List.mem_append.1 hnet with hnet | hnet
  · obtain ⟨⟨b, n⟩, -, rfl⟩ := List.mem_map.1 hnet
    exact absurd hin.1 (by simp [IpAddr.isIpv4])
  · obtain ⟨⟨b, n⟩, hb, rfl⟩ := List.mem_map.1 hnet
    simp only [IpAddr.localNets6, List.mem_cons, List.not_mem_nil, or_false, Prod.mk.injEq] at hb
    rcases hb with ⟨rfl, rfl⟩ | ⟨rfl, rfl⟩ | ⟨rfl, rfl⟩ | ⟨rfl, rfl⟩ | ⟨rfl, rfl⟩
    · have hnum : a.toNat / 2 ^ 0 = 1 := inside_v6 (by decide) hin
      have ha : a = 1 := BitVec.eq_of_toNat_eq (by rw [Nat.pow_zero, Nat.div_one] at hnum; exact hnum)
      rw [unmapped (by omega), ha]
      rfl
    · have hnum : a.toNat / 2 ^ 118 = 0x3fa := inside_v6 (by decide) hin
      have hland := land_linkLocal (a.segment 0 - 0xfe80) (by rw [Ipv6Addr.segment]; omega)
      rw [show 0xfe80 + (a.segment 0 - 0xfe80) = a.segment 0 by rw [Ipv6Addr.segment]; omega] at hland
      rw [unmapped (by omega), hland]
      simp
    · have hnum : a.toNat / 2 ^ 0 = 0 := inside_v6 (by decide) hin
      have ha : a = 0 := BitVec.eq_of_toNat_eq (by rw [Nat.pow_zero, Nat.div_one] at hnum; exact hnum)
      rw [unmapped (by omega), ha]
      rfl
    · have hnum : a.toNat / 2 ^ 120 = 0xff := inside_v6 (by decide) hin
      have hland := land_multicast (a.segment 0 - 0xff00) (by rw [Ipv6Addr.segment]; omega)
      rw [show 0xff00 + (a.segment 0 - 0xff00) = a.segment 0 by rw [Ipv6Addr.segment]; omega] at hland
      rw [unmapped (by omega), Ipv6Addr.isMulticast, hland]
      simp
    · have hnum : a.toNat / 2 ^ 121 = 0x7e := inside_v6 (by decide) hin
      have hland := land_uniqueLocal (a.segment 0 - 0xfc00) (by rw [Ipv6Addr.segment]; omega)
      rw [show 0xfc00 + (a.segment 0 - 0xfc00) = a.segment 0 by rw [Ipv6Addr.segment]; omega] at hland
      rw [unmapped (by omega), hland]
      simp

theorem not_public_of_local {ip : IpAddr} (h : ip.Local) : isPublicIp ip = false := by
  rcases h with h | ⟨a, rfl, h⟩
  · cases ip with
    | v4 a => exact not_public_of_inside4 h
    | v6 a => exact not_public_of_inside6 h
  · rw [isPublicIp_mapped]
    exact not_public_of_inside4 h

/-! ### The subnet on the query -/

theorem IpAddr.ext_bit {a b : IpAddr} (hfamily : a.isIpv4 = b.isIpv4) (h : ∀ i, a.bit i = b.bit i) :
    a = b := by
  cases a with
  | v4 a =>
    cases b with
    | v4 b => exact congrArg v4 (BitVec.eq_of_getMsbD_eq fun i _ => h i)
    | v6 b => cases hfamily
  | v6 a =>
    cases b with
    | v4 b => cases hfamily
    | v6 b => exact congrArg v6 (BitVec.eq_of_getMsbD_eq fun i _ => h i)

theorem toNat_min (a b : UInt8) : (min a b).toNat = min a.toNat b.toNat := by
  have hmin : min a b = if a ≤ b then a else b := rfl
  rw [hmin]
  split_ifs with h
  · exact (min_eq_left (UInt8.le_iff_toNat_le.1 h)).symm
  · rw [UInt8.le_iff_toNat_le, not_le] at h
    exact (min_eq_right h.le).symm

/-- The number of bits of an address. -/
def IpAddr.width (ip : IpAddr) : UInt8 := if ip.isIpv4 then 32 else 128

namespace Ecs

variable [Crates]

/-- `network()` clears the host bits, within the family. -/
structure ClearsHostBits : Prop where
  family : ∀ net, (Crates.network net).isIpv4 = net.addr.isIpv4
  bit : ∀ ip n i, n ≤ ip.width.toNat →
    (Crates.network ⟨ip, n⟩).bit i = (decide (i < n) && ip.bit i)

/-- The mask for the family of an address. -/
def maskFor (e : Ecs) (ip : IpAddr) : UInt8 := if ip.isIpv4 then e.mask4 else e.mask6

/-- A subnet the query came with stays. -/
def Keeps (e : Ecs) (q : Message) : Prop := (ecsOf q).isSome ∧ e.forceOverwrite = false

omit [Crates] in
theorem pick_auto {e : Ecs} (h : e.auto = true) {ctx : QueryContext} {ip : IpAddr}
    (hclient : ctx.clientAddr = some ip) :
    e.pick ctx = if isPublicIp ip then some (ip, e.maskFor ip) else none := by
  rw [pick, if_pos h, hclient]
  rfl

theorem query_exec (e : Ecs) (ctx : QueryContext) : (e.exec ctx).query =
    if (ecsOf ctx.query).isSome ∧ e.forceOverwrite = false then ctx.query
    else match e.pick ctx with
      | none => ctx.query
      | some p => setEcs ctx.query ⟨(masked p.1 p.2).1, (masked p.1 p.2).2, 0⟩ := by
  rw [exec]
  dsimp only
  by_cases hkeep : (ecsOf ctx.query).isSome ∧ e.forceOverwrite = false
  · rw [if_pos hkeep, if_pos hkeep, QueryContext.pushTrace_query]
  · rw [if_neg hkeep, if_neg hkeep]
    cases e.pick ctx with
    | none => exact QueryContext.pushTrace_query _ _ _
    | some p =>
      dsimp only
      rw [QueryContext.pushTrace_query]
      split_ifs
      · rfl
      · rfl

/-- What is left of an address after masking. -/
theorem bit_masked (hnet : ClearsHostBits) (ip : IpAddr) (mask : UInt8) (i : ℕ) :
    (masked ip mask).1.bit i = (decide (i < (min mask ip.width).toNat) && ip.bit i) :=
  hnet.bit ip _ i ((toNat_min mask ip.width).trans_le (min_le_right _ _))

theorem masked_eq (hnet : ClearsHostBits) {a b : IpAddr} {mask : UInt8}
    (hfamily : a.isIpv4 = b.isIpv4) (h : a.Agree mask.toNat b) : masked a mask = masked b mask := by
  have hwidth : a.width = b.width := by rw [IpAddr.width, IpAddr.width, hfamily]
  refine Prod.ext (IpAddr.ext_bit ?_ fun i => ?_) ?_
  · have ha : (masked a mask).1.isIpv4 = a.isIpv4 := hnet.family _
    have hb : (masked b mask).1.isIpv4 = b.isIpv4 := hnet.family _
    rw [ha, hb, hfamily]
  · rw [bit_masked hnet, bit_masked hnet, hwidth]
    by_cases hi : i < (min mask b.width).toNat
    · have hmask : i < mask.toNat := lt_of_lt_of_le hi ((toNat_min _ _).trans_le (min_le_left _ _))
      rw [h i hmask]
    · simp [hi]
  · exact congrArg (min mask) hwidth

theorem query_exec_kept {e : Ecs} {ctx : QueryContext} (h : e.Keeps ctx.query) :
    (e.exec ctx).query = ctx.query :=
  (query_exec e ctx).trans (if_pos h)

theorem query_exec_public {e : Ecs} (hauto : e.auto = true) {ctx : QueryContext} {ip : IpAddr}
    (hclient : ctx.clientAddr = some ip) (hpublic : isPublicIp ip = true)
    (hkeep : ¬ e.Keeps ctx.query) : (e.exec ctx).query =
      setEcs ctx.query ⟨(masked ip (e.maskFor ip)).1, (masked ip (e.maskFor ip)).2, 0⟩ := by
  rw [query_exec, if_neg (show ¬ (_ ∧ _) from hkeep), pick_auto hauto hclient, if_pos hpublic]

/-- Two public clients with the same subnet send the same query, which tells no more than the subnet
unless a subnet is kept, and a local client's query is left as it is. -/
theorem prefix_disclosed (hnet : ClearsHostBits) (e : Ecs) (hauto : e.auto = true) :
    (∀ ctx ctx' a b, ctx.query = ctx'.query → ctx.clientAddr = some a → ctx'.clientAddr = some b →
      isPublicIp a = true → isPublicIp b = true → a.isIpv4 = b.isIpv4 →
      a.Agree (e.maskFor a).toNat b →
        (e.exec ctx).query = (e.exec ctx').query ∧
        (e.Keeps ctx.query → (e.exec ctx).query = ctx.query) ∧
        (¬ e.Keeps ctx.query → ∃ cs, ecsOf (e.exec ctx).query = some cs ∧
          cs.addr.isIpv4 = a.isIpv4 ∧ cs.sourcePrefix = min (e.maskFor a) a.width ∧
          ∀ i, cs.sourcePrefix.toNat ≤ i → cs.addr.bit i = false)) ∧
    ∀ ctx a, ctx.clientAddr = some a → a.Local → (e.exec ctx).query = ctx.query := by
  constructor
  · intro ctx ctx' a b hquery ha hb hpa hpb hfamily hagree
    by_cases hkeep : e.Keeps ctx.query
    · have hstays := query_exec_kept hkeep
      have hstays' := query_exec_kept (hquery ▸ hkeep)
      refine ⟨?_, fun _ => hstays, fun hnot => absurd hkeep hnot⟩
      rw [hstays, hstays', hquery]
    · have hset := query_exec_public hauto ha hpa hkeep
      have hset' := query_exec_public hauto hb hpb (hquery ▸ hkeep)
      refine ⟨?_, fun hyes => absurd hyes hkeep, fun _ => ?_⟩
      · have hmask : e.maskFor a = e.maskFor b := by rw [maskFor, maskFor, hfamily]
        rw [hset, hset', ← hquery, masked_eq hnet hfamily hagree, hmask]
      · refine ⟨_, by rw [hset, ecsOf_setEcs], hnet.family _, rfl, fun i hi => ?_⟩
        have hbeyond : ¬ i < (min (e.maskFor a) a.width).toNat := Nat.not_lt.2 hi
        rw [bit_masked hnet]
        simp [hbeyond]
  · intro ctx a ha hlocal
    rw [query_exec, pick_auto hauto ha, not_public_of_local hlocal, if_neg Bool.false_ne_true,
      ite_self]

end Ecs

/-! ### A subnet that the client sent -/

namespace Ecs.Sample

open FerrumDns.Sample (crates query context)

theorem clearsHostBits : @ClearsHostBits (crates []) := by
  refine @ClearsHostBits.mk (crates []) (fun net => ?_) fun ip n i hn => ?_
  · cases net with
    | mk addr n => cases addr <;> rfl
  · change (FerrumDns.Sample.network ⟨ip, n⟩).bit i = _
    cases ip with
    | v4 a =>
      have hn : n ≤ 32 := hn
      simp only [FerrumDns.Sample.network, IpAddr.bit, BitVec.getMsbD_shiftLeft,
        BitVec.getMsbD_ushiftRight]
      by_cases hi : i < n
      · simp [hi, show i + (32 - n) < 32 by omega]
      · simp [hi, show ¬ i + (32 - n) < 32 by omega]
    | v6 a =>
      have hn : n ≤ 128 := hn
      simp only [FerrumDns.Sample.network, IpAddr.bit, BitVec.getMsbD_shiftLeft,
        BitVec.getMsbD_ushiftRight]
      by_cases hi : i < n
      · simp [hi, show i + (128 - n) < 128 by omega]
      · simp [hi, show ¬ i + (128 - n) < 128 by omega]

def auto : Ecs where
  tag := "ecs"
  auto := true
  ipv4 := none
  ipv6 := none
  forceOverwrite := false
  mask4 := 24
  mask6 := 48

def client : Ipv4Addr := .ofOctets 8 8 8 8

/-- The query of that client, with a subnet of its own if it has one. -/
def asked (own : Option ClientSubnet) : QueryContext :=
  { context with
    query := own.elim query (setEcs query)
    clientAddr := some (.v4 client) }

theorem prefix_disclosed_public : ∃ cs,
    ecsOf (@exec (crates []) auto (asked none)).query = some cs ∧ cs.sourcePrefix = 24 ∧
      ∀ i : ℕ, 24 ≤ i → cs.addr.bit i = false := by
  have hdisclosed := (@prefix_disclosed (crates []) clearsHostBits auto rfl).1 (asked none)
    (asked none) (.v4 client) (.v4 client) rfl rfl rfl (by decide +kernel) (by decide +kernel) rfl
    fun _ _ => rfl
  obtain ⟨cs, hcs, -, hlen, hbits⟩ := hdisclosed.2.2 (by simp [Keeps, auto, asked, ecsOf]; decide)
  rw [hlen] at hbits
  exact ⟨cs, hcs, hlen, hbits⟩

/-- The host bits of a subnet that came with the query are passed on. -/
theorem discloses_kept : isPublicIp (.v4 client) = true ∧
    ∃ cs, ecsOf (@exec (crates []) auto (asked (some ⟨.v4 (.ofOctets 192 0 31 0), 20, 0⟩))).query =
      some cs ∧ cs.sourcePrefix = 20 ∧ cs.addr.bit 20 = true :=
  ⟨by decide +kernel, _, rfl, rfl, by decide +kernel⟩

end Ecs.Sample

end FerrumDns
