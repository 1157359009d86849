import FerrumDns.Dns.AddressText
import FerrumDns.Dns.Escape
import FerrumDns.Plugin.Cache

/-! What a cache key says of a request. The fields of a simple key are read from its end,
since no field but the name has a bar in it; the name is read back from its escaped
text. The key of any other request holds its whole wire form, and no bar. -/

namespace FerrumDns

open Text Dnsutil

/-- Names are printed with the octets of other characters escaped; types and classes are told apart
by what they print, without bars. -/
structure Crates.Prints [Crates] : Prop where
  name : ∃ octet, Escape.Escaping octet ∧ ∀ n, Crates.toAscii n = Escape.printName octet n
  type_injective : Function.Injective Crates.debugType
  class_injective : Function.Injective Crates.debugClass
  type_bar : ∀ t, '|' ∉ Crates.debugType t
  class_bar : ∀ c, '|' ∉ Crates.debugClass c

namespace Cache

/-! ### Requests with one key -/

/-- The subnet of a request, without the scope that only responses set. -/
def subnet (q : Message) : Option (IpAddr × UInt8) :=
  (ecsOf q).map fun cs => (cs.addr, cs.sourcePrefix)

/-- The EDNS version of a request and its DO flag. -/
def ednsVersion (q : Message) : Option (UInt8 × Bool) :=
  q.edns.map fun e => (e.version, e.dnssecOk)

/-- Questions that ask the same, ASCII case and final dot of the name apart. -/
structure SameQuestion (x y : Query) : Prop where
  name : x.name.lower.labels = y.name.lower.labels
  queryType : x.queryType = y.queryType
  queryClass : x.queryClass = y.queryClass

/-- Requests with one question each that agree on it, the subnet, the flags and EDNS. -/
structure Agree (q q₀ : Message) : Prop where
  question : ∃ x y, q.queries = [x] ∧ q₀.queries = [y] ∧ SameQuestion x y
  subnet : subnet q = subnet q₀
  recursionDesired : q.recursionDesired = q₀.recursionDesired
  checkingDisabled : q.checkingDisabled = q₀.checkingDisabled
  authenticData : q.authenticData = q₀.authenticData
  edns : ednsVersion q = ednsVersion q₀

/-- Requests with the same wire form but for the id. -/
def SameWire [Crates] (q q₀ : Message) : Prop :=
  ∃ wire, encode { q with id := 0 } = .ok wire ∧ encode { q₀ with id := 0 } = .ok wire

/-- Requests that may share a stored response. -/
structure SameRequest [Crates] (q q₀ : Message) : Prop where
  cacheable : cacheableEdns q = true
  cacheable₀ : cacheableEdns q₀ = true
  same : isSimple q = true ∧ isSimple q₀ = true ∧ Agree q q₀ ∨
    isSimple q = false ∧ isSimple q₀ = false ∧ SameWire q q₀

/-! ### Fields -/

theorem flag_injective : Function.Injective flag := by
  have hall : ∀ a b, flag a = flag b → a = b := by decide
  exact hall

theorem bar_notMem_flag (b : Bool) : '|' ∉ flag b := by
  cases b <;> decide

theorem bar_notMem_decimal (n : ℕ) : '|' ∉ decimal n := fun h =>
  absurd (isHexDigit_of_mem_decimal h) (by decide)

theorem bar_notMem_ecsCacheKey (q : Message) : '|' ∉ ecsCacheKey q := by
  rw [ecsCacheKey]
  cases ecsOf q with
  | none => decide
  | some cs =>
    have haddr : '|' ∉ cs.addr.display := fun h => absurd (IpAddr.mem_display h) (by decide)
    simp [haddr, bar_notMem_decimal]

theorem ecsCacheKey_inj {q q₀ : Message} : ecsCacheKey q = ecsCacheKey q₀ ↔ subnet q = subnet q₀ := by
  have slash (a : IpAddr) : '/' ∉ a.display := fun h => absurd (IpAddr.mem_display h) (by decide)
  have apart (cs : ClientSubnet) : "ecs=".toList ++ cs.addr.display ++
      '/' :: decimal cs.sourcePrefix.toNat ≠ "ecs=-".toList := by
    intro h
    have hdash := congrArg ('/' ∈ ·) h
    simp at hdash
  rw [ecsCacheKey, ecsCacheKey, subnet, subnet]
  cases ecsOf q with
  | none =>
    cases ecsOf q₀ with
    | none => simp
    | some cs₀ => exact ⟨fun h => absurd h.symm (apart cs₀), nofun⟩
  | some cs =>
    cases ecsOf q₀ with
    | none => exact ⟨fun h => absurd h (apart cs), nofun⟩
    | some cs₀ =>
      simp only [Option.map_some, Option.some.injEq, Prod.mk.injEq, List.append_assoc]
      constructor
      · intro h
        obtain ⟨haddr, hprefix⟩ :=
          bar_append_inj (slash cs.addr) (slash cs₀.addr) (List.append_cancel_left h)
        exact ⟨IpAddr.display_injective haddr, UInt8.toNat_inj.1 (decimal_injective hprefix)⟩
      · rintro ⟨haddr, hprefix⟩
        rw [haddr, hprefix]

theorem debugEdns_some (e : Edns) : debugEdns (some e) = "Some((".toList ++
    (decimal e.version.toNat ++ ',' :: ' ' :: (flag e.dnssecOk ++ "))".toList)) := by
  have hleft : debugEdns (some e) = "Some((".toList ++ decimal e.version.toNat ++ ", ".toList ++
      flag e.dnssecOk ++ "))".toList := rfl
  rw [hleft]
  simp only [List.append_assoc]
  rfl

theorem bar_notMem_debugEdns (e : Option Edns) : '|' ∉ debugEdns e := by
  cases e with
  | none => decide
  | some e =>
    rw [debugEdns_some]
    simp [bar_notMem_flag, bar_notMem_decimal]

theorem debugEdns_inj {q q₀ : Message} :
    debugEdns q.edns = debugEdns q₀.edns ↔ ednsVersion q = ednsVersion q₀ := by
  have apart (e : Edns) : debugEdns (some e) ≠ debugEdns none := fun h =>
    absurd (List.cons.inj h).1 (by decide)
  have comma (n : ℕ) : ',' ∉ decimal n := fun h =>
    absurd (isHexDigit_of_mem_decimal h) (by decide)
  rw [ednsVersion, ednsVersion]
  cases q.edns with
  | none =>
    cases q₀.edns with
    | none => simp
    | some e₀ => exact ⟨fun h => absurd h.symm (apart e₀), nofun⟩
  | some e =>
    cases q₀.edns with
    | none => exact ⟨fun h => absurd h (apart e), nofun⟩
    | some e₀ =>
      simp only [debugEdns_some, Option.map_some, Option.some.injEq, Prod.mk.injEq]
      constructor
      · intro h
        obtain ⟨hversion, hrest⟩ := bar_append_inj (comma _) (comma _) (List.append_cancel_left h)
        have hdo := List.append_cancel_right (List.cons.inj hrest).2
        exact ⟨UInt8.toNat_inj.1 (decimal_injective hversion), flag_injective hdo⟩
      · rintro ⟨hversion, hdo⟩
        rw [hversion, hdo]

/-! ### Simple keys -/

section Simple

variable [Crates]

theorem bar_notMem_keyFields (h : Crates.Prints) (x : Query) (q : Message) :
    ∀ f ∈ keyFields x q, '|' ∉ f := by
  simp [keyFields, h.type_bar, h.class_bar, bar_notMem_ecsCacheKey, bar_notMem_flag,
    bar_notMem_debugEdns]

theorem keyName_inj (h : Crates.Prints) {a b : Name} :
    keyName a = keyName b ↔ a.lower.labels = b.lower.labels := by
  obtain ⟨octet, hoctet, hname⟩ := h.name
  rw [keyName, keyName, hname, hname]
  exact hoctet.name_inj a b

/-- A simple key says exactly what its request agrees on with others. -/
theorem simpleKey_inj (h : Crates.Prints) {x y : Query} {q q₀ : Message} (hx : q.queries = [x])
    (hy : q₀.queries = [y]) : simpleKey x q = simpleKey y q₀ ↔ Agree q q₀ := by
  constructor
  · intro hkey
    obtain ⟨hname, hfields⟩ :=
      fields_inj (bar_notMem_keyFields h x q) (bar_notMem_keyFields h y q₀) rfl hkey
    simp only [keyFields, List.cons.injEq, and_true, List.append_cancel_left_eq] at hfields
    obtain ⟨htype, hclass, hecs, hrd, hcd, had, hedns⟩ := hfields
    exact
      { question := ⟨x, y, hx, hy,
          { name := (keyName_inj h).1 hname
            queryType := h.type_injective htype
            queryClass := h.class_injective hclass }⟩
        subnet := ecsCacheKey_inj.1 hecs
        recursionDesired := flag_injective hrd
        checkingDisabled := flag_injective hcd
        authenticData := flag_injective had
        edns := debugEdns_inj.1 hedns }
  · intro ha
    obtain ⟨x', y', hx', hy', hq⟩ := ha.question
    obtain rfl := List.singleton_inj.1 (hx.symm.trans hx')
    obtain rfl := List.singleton_inj.1 (hy.symm.trans hy')
    rw [simpleKey, simpleKey, (keyName_inj h).2 hq.name, keyFields, keyFields, hq.queryType,
      hq.queryClass, ecsCacheKey_inj.2 ha.subnet, ha.recursionDesired, ha.checkingDisabled,
      ha.authenticData, debugEdns_inj.2 ha.edns]

theorem bar_mem_simpleKey (x : Query) (q : Message) : '|' ∈ simpleKey x q := by
  simp [simpleKey, keyFields]

end Simple

/-! ### Keys of other requests -/

/-- The octet that two hexadecimal digits show. -/
def readHex (t : Text) : UInt8 :=
  UInt8.ofNat (t.foldl (fun n c => 16 * n + "0123456789abcdef".toList.idxOf c) 0)

theorem hexOctet_spec : ∀ b, (hexOctet b).length = 2 ∧ '|' ∉ hexOctet b ∧
    readHex (hexOctet b) = b := by
  apply Escape.forall_octet
  decide +kernel

theorem hexOctet_injective : Function.Injective hexOctet :=
  Function.LeftInverse.injective fun b => (hexOctet_spec b).2.2

theorem debugBytes_injective : Function.Injective debugBytes := by
  have two (wire : Bytes) : ∀ w ∈ wire.map hexOctet, w.length = 2 := by
    intro w hw
    obtain ⟨b, -, rfl⟩ := List.mem_map.1 hw
    exact (hexOctet_spec b).1
  intro wire wire' h
  have hjoined := List.append_cancel_right (List.cons.inj h).2
  exact List.map_injective_iff.2 hexOctet_injective
    (intercalate_inj (by decide) (two wire) (two wire') hjoined)

theorem wireKey_injective : Function.Injective wireKey := fun _ _ h =>
  debugBytes_injective (List.append_cancel_left h)

theorem bar_notMem_wireKey (wire : Bytes) : '|' ∉ wireKey wire := by
  have hjoined : '|' ∉ [',', ' '].intercalate (wire.map hexOctet) := by
    intro h
    rcases mem_intercalate h with h | ⟨w, hw, hc⟩
    · exact absurd h (by decide)
    · obtain ⟨b, -, rfl⟩ := List.mem_map.1 hw
      exact (hexOctet_spec b).2.1 hc
  intro h
  rcases List.mem_append.1 (show '|' ∈ "wire:".toList ++ debugBytes wire from h) with h | h
  · exact absurd h (by decide)
  · rcases List.mem_append.1 h with h | h
    · exact hjoined ((List.mem_cons.1 h).resolve_left (by decide))
    · exact absurd (List.mem_singleton.1 h) (by decide)

/-! ### All keys -/

section Keys

variable [Crates]

/-- What has a key: a request without options of one client, which is simple, or has a wire form. -/
theorem keyOf_eq_some {q : Message} {everything : Bool} {key : Text}
    (h : keyOf q everything = some key) : cacheableEdns q = true ∧
      ((isSimple q = true ∧ ∃ x, q.queries = [x] ∧ key = simpleKey x q) ∨
        isSimple q = false ∧ ∃ wire, encode { q with id := 0 } = .ok wire ∧ key = wireKey wire) := by
  simp only [keyOf, Bool.not_eq_true'] at h
  split_ifs at h with hc hs he
  · refine ⟨by simpa using hc, .inr ⟨hs, ?_⟩⟩
    cases hw : encode { q with id := 0 } with
    | error e => simp [hw] at h
    | ok wire => exact ⟨wire, rfl, by simpa [hw] using h.symm⟩
  · refine ⟨by simpa using hc, .inl ⟨by simpa using hs, ?_⟩⟩
    have hone : q.queries.length = 1 := by
      simp only [isSimple, Bool.not_eq_false, Bool.and_eq_true, beq_iff_eq] at hs
      exact hs.1.1.1
    obtain ⟨x, hx⟩ := List.length_eq_one_iff.1 hone
    exact ⟨x, hx, by simpa [hx] using h.symm⟩

/-- Requests with one key may share a stored response. -/
theorem sameRequest_of_keyOf (h : Crates.Prints) {q q₀ : Message} {everything everything₀ : Bool}
    {key : Text} (hq : keyOf q everything = some key) (hq₀ : keyOf q₀ everything₀ = some key) :
    SameRequest q q₀ := by
  obtain ⟨hc, hs⟩ := keyOf_eq_some hq
  obtain ⟨hc₀, hs₀⟩ := keyOf_eq_some hq₀
  refine ⟨hc, hc₀, ?_⟩
  rcases hs with ⟨hs, x, hx, rfl⟩ | ⟨hs, wire, hw, rfl⟩
  · rcases hs₀ with ⟨hs₀, y, hy, hkey⟩ | ⟨-, wire, -, hkey⟩
    · exact .inl ⟨hs, hs₀, (simpleKey_inj h hx hy).1 hkey⟩
    · exact absurd (hkey ▸ bar_mem_simpleKey x q) (bar_notMem_wireKey wire)
  · rcases hs₀ with ⟨-, y, -, hkey⟩ | ⟨hs₀, wire₀, hw₀, hkey⟩
    · exact absurd (hkey ▸ bar_mem_simpleKey y q₀) (bar_notMem_wireKey wire)
    · exact .inr ⟨hs, hs₀, wire, hw, wireKey_injective hkey ▸ hw₀⟩

/-- Simple requests that agree have one key. -/
theorem keyOf_of_agree (h : Crates.Prints) {q q₀ : Message} (hc : cacheableEdns q = true)
    (hc₀ : cacheableEdns q₀ = true) (hs : isSimple q = true) (hs₀ : isSimple q₀ = true)
    (ha : Agree q q₀) (everything everything₀ : Bool) :
    ∃ key, keyOf q everything = some key ∧ keyOf q₀ everything₀ = some key := by
  obtain ⟨x, y, hx, hy, -⟩ := ha.question
  refine ⟨simpleKey x q, by simp [keyOf, hc, hs, hx], ?_⟩
  simp [keyOf, hc₀, hs₀, hy, (simpleKey_inj h hx hy).2 ha]

end Keys

end Cache

end FerrumDns
