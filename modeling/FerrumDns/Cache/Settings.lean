import FerrumDns.Plugin.HostsArgs
import FerrumDns.Lru.Sharded

/-! Numbers from the configuration. A size and a lazy TTL are kept as they are; the two
settings that become the TTL of records are cut to 32 bits. Deadlines are instants,
whose seconds are a signed 64-bit count: adding a length of time that leads past it
panics, which ends the program. -/

namespace FerrumDns

/-! ### Instants -/

/-- `Instant + Duration`; none is a panic. -/
def instantAdd (now d : ℕ) : Option ℕ :=
  if (now + d) / secs 1 < 2 ^ 63 then some (now + d) else none

theorem instantAdd_eq_some {now d t : ℕ} :
    instantAdd now d = some t ↔ (now + d) / secs 1 < 2 ^ 63 ∧ now + d = t := by
  simp [instantAdd]

/-- Whole seconds add to the count of seconds. -/
theorem isSome_instantAdd (now n : ℕ) :
    (instantAdd now (secs n)).isSome ↔ now / secs 1 + n < 2 ^ 63 := by
  have hsecs : (now + secs n) / secs 1 = now / secs 1 + n := by
    simp only [secs]
    omega
  simp [instantAdd, hsecs]

namespace Cache

/-- When an entry with this deadline expires, if the addition does not panic. -/
def expireChecked (c : Cache) (ttlDeadline now : ℕ) : Option ℕ :=
  if 0 < c.lazyTtl then (instantAdd now (secs c.lazyTtl)).map (max ttlDeadline)
  else some ttlDeadline

/-- The entry that a store makes, if no addition panics. -/
def entryChecked (c : Cache) (wire : Bytes) (ttl : U32) (now : ℕ) : Option Entry :=
  (instantAdd now (secs ttl.val)).bind fun ttlDeadline =>
    (c.expireChecked ttlDeadline now).map fun expire => ⟨wire, now, ttlDeadline, expire⟩

/-- A store that does not panic makes the entry of the unbounded arithmetic. -/
theorem entryAt_of_checked {c : Cache} {wire : Bytes} {ttl : U32} {now : ℕ} {e : Entry}
    (h : c.entryChecked wire ttl now = some e) : e = c.entryAt wire ttl now := by
  obtain ⟨deadline, hd, h⟩ := Option.bind_eq_some_iff.1 h
  obtain ⟨expire, hx, rfl⟩ := Option.map_eq_some_iff.1 h
  obtain ⟨-, rfl⟩ := instantAdd_eq_some.1 hd
  rw [expireChecked] at hx
  rw [entryAt]
  split_ifs at hx ⊢ with hlazy
  · obtain ⟨t, ht, rfl⟩ := Option.map_eq_some_iff.1 hx
    obtain ⟨-, rfl⟩ := instantAdd_eq_some.1 ht
    rfl
  · cases hx
    rfl

/-- A store does not panic exactly if both sums stay in range. -/
theorem isSome_entryChecked (c : Cache) (wire : Bytes) (ttl : U32) (now : ℕ) :
    (c.entryChecked wire ttl now).isSome ↔
      now / secs 1 + ttl.val < 2 ^ 63 ∧ now / secs 1 + c.lazyTtl < 2 ^ 63 := by
  have hexpire (deadline : ℕ) (h : now / secs 1 + ttl.val < 2 ^ 63) :
      (c.expireChecked deadline now).isSome ↔ now / secs 1 + c.lazyTtl < 2 ^ 63 := by
    rw [expireChecked]
    split_ifs with hlazy
    · rw [Option.isSome_map, isSome_instantAdd]
    · simp only [Option.isSome_some, true_iff]
      omega
  rw [entryChecked, ← isSome_instantAdd now ttl.val]
  cases hd : instantAdd now (secs ttl.val) with
  | none => simp
  | some deadline =>
    have hrange := (isSome_instantAdd now ttl.val).1 (by rw [hd]; rfl)
    simp [hexpire deadline hrange]

/-! ### Configured numbers -/

/-- The number under one of the keys, if it is one, or the default. -/
def configured (args : Value) (keys : List String) (default : UInt64) : ℕ :=
  (((keys.findSome? args.get).bind Value.asU64).getD default).toNat

/-- The settings of a cache are the configured numbers; a lazy reply lives a second at least. -/
structure Exact (c : Cache) (args : Value) : Prop where
  size : c.cap = max (configured args ["size"] 8192 / 16) 32
  lazyTtl : c.lazyTtl = configured args ["lazy_cache_ttl", "lazy_ttl"] 0
  lazyReplyTtl : c.lazyReplyTtl.val = max (configured args ["lazy_cache_reply_ttl"] 5) 1

theorem val_wrap_eq {n : ℕ} : (U32.wrap n).val = n ↔ n < 2 ^ 32 := by
  rw [U32.val_wrap]
  omega

theorem configured_one (args : Value) (key : String) (default : UInt64) :
    configured args [key] default = (((args.get key).bind Value.asU64).getD default).toNat := by
  rw [configured, List.findSome?_cons]
  cases args.get key <;> rfl

/-- The second key counts where the first is missing. -/
theorem configured_two (args : Value) (key key' : String) (default : UInt64) :
    configured args [key, key'] default =
      ((((args.get key).or (args.get key')).bind Value.asU64).getD default).toNat := by
  rw [configured, List.findSome?_cons, List.findSome?_cons]
  cases args.get key with
  | some v => rfl
  | none => cases args.get key' <;> rfl

theorem lazyTtl_fromArgs (tag : Tag) (args : Value) :
    (fromArgs tag args).lazyTtl = configured args ["lazy_cache_ttl", "lazy_ttl"] 0 :=
  (configured_two args _ _ 0).symm

theorem lazyReplyTtl_fromArgs (tag : Tag) (args : Value) : (fromArgs tag args).lazyReplyTtl.val =
    max (configured args ["lazy_cache_reply_ttl"] 5 % 2 ^ 32) 1 := by
  rw [configured_one, fromArgs, ← U32.val_wrap]
  exact Fin.coe_max _ _

/-- The settings of a cache are as configured exactly if the lazy reply TTL has 32 bits. -/
theorem exact_fromArgs (tag : Tag) (args : Value) : (fromArgs tag args).Exact args ↔
    configured args ["lazy_cache_reply_ttl"] 5 < 2 ^ 32 := by
  have hreply := lazyReplyTtl_fromArgs tag args
  constructor
  · intro h
    have hkept := h.lazyReplyTtl
    omega
  · intro h
    refine ⟨?_, lazyTtl_fromArgs tag args, ?_⟩
    · rw [configured_one, fromArgs]
    · omega

end Cache

/-- The numbers of a cache and of a table of hosts are kept as configured, and a store at this time
of a response with this TTL does not panic, exactly if the two record TTLs have 32 bits and both
deadlines are in the range of an instant. -/
theorem settings_exact_iff (src : HostsSource) (tag hostsTag : Tag) (args hostsArgs : Value)
    (base : String) (h : Hosts) (hh : Hosts.fromArgs src hostsTag hostsArgs base = .ok h)
    (wire : Bytes) (ttl : U32) (now : ℕ) :
    ((Cache.fromArgs tag args).Exact args ∧ h.ttl.val = Cache.configured hostsArgs ["ttl"] 60 ∧
      ((Cache.fromArgs tag args).entryChecked wire ttl now).isSome) ↔
    Cache.configured args ["lazy_cache_reply_ttl"] 5 < 2 ^ 32 ∧
      Cache.configured hostsArgs ["ttl"] 60 < 2 ^ 32 ∧ now / secs 1 + ttl.val < 2 ^ 63 ∧
      now / secs 1 + Cache.configured args ["lazy_cache_ttl", "lazy_ttl"] 0 < 2 ^ 63 := by
  obtain ⟨_, rfl⟩ := Hosts.fromArgs_eq_ok src hh
  have hhosts : (Hosts.ttlOf hostsArgs).val = Cache.configured hostsArgs ["ttl"] 60 ↔
      Cache.configured hostsArgs ["ttl"] 60 < 2 ^ 32 := by
    rw [Hosts.ttlOf, ← Cache.configured_one, Cache.val_wrap_eq]
  rw [Cache.exact_fromArgs, hhosts, Cache.isSome_entryChecked, Cache.lazyTtl_fromArgs]

section Sample

/-- No file, address or name can be read. -/
def nothing : HostsSource where
  readToString _ := .error "not found"
  parseAddr _ := .error "invalid"
  checkName _ := .error "invalid"

def setting (key : String) (n : UInt64) : Value :=
  .mapping [(.string key.toList, .number (.posInt n))]

theorem settings_exact_iff_usual : ∃ h,
    Hosts.fromArgs nothing "hosts" (setting "ttl" 300) "" = .ok h ∧ h.ttl = 300 ∧
      ((Cache.fromArgs "cache" (setting "lazy_cache_ttl" 86400)).entryChecked [] 60 0).isSome := by
  have hread : Hosts.fromArgs nothing "hosts" (setting "ttl" 300) "" = .ok ⟨"hosts", [], 300⟩ := by
    decide +kernel
  have hkept := (settings_exact_iff nothing "cache" "hosts" (setting "lazy_cache_ttl" 86400)
    (setting "ttl" 300) "" _ hread [] 60 0).2 (by decide +kernel)
  exact ⟨_, hread, rfl, hkept.2.2⟩

/-- One number too large for each setting: a lazy reply TTL of 2³² becomes 1, a hosts TTL of 2³²
becomes 0, and with a lazy TTL of 2⁶³ seconds the first store panics. -/
theorem settings_wrap :
    Cache.configured (setting "lazy_cache_reply_ttl" 4294967296) ["lazy_cache_reply_ttl"] 5 =
        4294967296 ∧
      (Cache.fromArgs "cache" (setting "lazy_cache_reply_ttl" 4294967296)).lazyReplyTtl = 1 ∧
      (Hosts.fromArgs nothing "hosts" (setting "ttl" 4294967296) "").map Hosts.ttl = .ok 0 ∧
      (Cache.fromArgs "cache" (setting "lazy_cache_ttl" 9223372036854775808)).entryChecked [] 60 0 =
        none := by
  decide +kernel

end Sample

end FerrumDns
