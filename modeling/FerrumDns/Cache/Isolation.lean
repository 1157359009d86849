import FerrumDns.Cache.Hit
import FerrumDns.Cache.Key

/-! Responses are shared only between requests that ask the same. A cache finds what was
inserted under the key it looks up; both keys are those of the requests named by the
insertion and the look-up; and a key tells what its request asks. -/

namespace FerrumDns

open Prog Dnsutil Resolver

namespace Isolation

variable [Crates]

/-- Insertions are under the key of the request they are for. -/
def contract : Contract QueryContext Eff Eff.Answer where
  guar
    | .insert c lookup _ _ => Cache.keyOf lookup.query c.cacheEverything = some lookup.key
    | _ => True
  rely _ _ := True
  held _ := True

theorem keyed_of_snapshot {c : Cache} {ctx : QueryContext} {lookup : CacheLookup}
    (h : c.snapshot ctx = some lookup) :
    Cache.keyOf lookup.query c.cacheEverything = some lookup.key := by
  obtain ⟨key, hk, rfl⟩ := Option.map_eq_some_iff.1 h
  exact hk

theorem preserved : Preserved contract (fun _ => True)
    fun w => Cache.keyOf w.2.query w.1.cacheEverything = some w.2.key where
  held := .rfl
  call _ := trivial
  count _ := trivial
  exchange _ _ := trivial
  clock := ⟨trivial, fun _ => trivial⟩
  overflow := trivial
  edit _ _ := trivial
  attach _ _ _ _ := trivial
  fork _ := trivial
  absorb _ _ := trivial
  cache _ := Cache.exec_sat (I := fun _ => True) (fun _ => trivial) trivial (fun _ _ _ => trivial)
    (fun _ _ _ => trivial) trivial (fun _ _ => trivial) fun _ _ _ => trivial
  note _ h := keyed_of_snapshot h
  store _ hw := Cache.storeLookup_sat trivial fun _ _ _ _ _ _ _ => hw

theorem starts : Starts contract fun _ => True where
  upgrade := trivial
  entered _ _ := trivial
  request _ _ _ _ := trivial
  refresh _ := trivial

/-- What a look-up finds was inserted, under its key, for a request with that key. -/
theorem inserted_for {reg : Registry} {depth : ℕ} {p q : State} {tr : Trace} (hp : Fresh p)
    (h : Runs reg depth p tr q) {c : Cache} {key : Text} {hit : Hit}
    (hl : ((q.world.caches c.tag).lookup c key q.world.clock).1 = some hit) :
    ∃ c₀ lookup source e, ⟨.insert c₀ lookup source e, ()⟩ ∈ tr ∧ c₀.tag = c.tag ∧
      e.wire = hit.wire ∧ Cache.keyOf lookup.query c₀.cacheEverything = some key := by
  obtain ⟨e, he, -, rfl⟩ := CacheState.lookup_eq_some hl
  rcases found_run h he with hs | ⟨⟨ev, r⟩, hev, c₀, lookup, source, rfl, htag, rfl⟩
  · exact absurd (CacheState.stores_of_found hs) (hp.not_stores c.tag key e)
  · have hkey := preserved.promised starts (fun _ _ => trivial) hp h _ hev
    exact ⟨c₀, lookup, source, e, hev, htag, rfl, hkey⟩

/-- In every run of the resolver, a response that a cache step serves was inserted into that cache
for a request with which the served one may share it. And simple requests that agree do share one
key. -/
theorem isolated (hprints : Crates.Prints) (reg : Registry) (depth : ℕ) (p q : State) (tr tr' : Trace)
    (hp : Fresh p) (h : Runs reg depth p tr q) (c : Cache) (ctx : QueryContext) (key : Text)
    (hit : Hit) (now : ℕ) (o : Outcome)
    (hl : ((q.world.caches c.tag).lookup c key q.world.clock).1 = some hit)
    (he : Ends (c.exec ctx) (⟨.lookup c key ctx.query, some hit⟩ :: ⟨.now, now⟩ :: tr') o) :
    (∃ c₀ lookup source e msg event, ⟨.insert c₀ lookup source e, ()⟩ ∈ tr ∧ c₀.tag = c.tag ∧
      e.wire = hit.wire ∧ decode e.wire = .ok msg ∧
      o.1 = c.withHit (ctx.pushTrace c.tag event) (c.served msg hit now) ∧
      Cache.SameRequest ctx.query lookup.query) ∧
    ∀ q₁ q₂ : Message, Cache.cacheableEdns q₁ = true → Cache.cacheableEdns q₂ = true →
      Cache.isSimple q₁ = true → Cache.isSimple q₂ = true → Cache.Agree q₁ q₂ →
      ∃ key, Cache.keyOf q₁ c.cacheEverything = some key ∧
        Cache.keyOf q₂ c.cacheEverything = some key := by
  refine ⟨?_, fun q₁ q₂ hc₁ hc₂ hs₁ hs₂ ha =>
    Cache.keyOf_of_agree hprints hc₁ hc₂ hs₁ hs₂ ha _ _⟩
  rcases Cache.exec_ends he with ⟨hm, -⟩ | ⟨key', hit', msg, now', _, event, hk, -, hd, htr, rfl⟩
  · rcases hm with hm | hm | ⟨key', r, hm⟩ <;> simp at hm
  · cases htr
    obtain ⟨c₀, lookup, source, e, hev, htag, hwire, hk₀⟩ := inserted_for hp h hl
    exact ⟨c₀, lookup, source, e, msg, event, hev, htag, hwire, hwire ▸ hd, rfl,
      Cache.sameRequest_of_keyOf hprints hk hk₀⟩

/-! ### A served answer -/

section Sample

omit [Crates]

open Sample

/-- The types and the classes that have a name of their own. -/
def namedTypes : List RecordType :=
  [.A, .AAAA, .CNAME, .MX, .NS, .PTR, .SOA, .SRV, .TXT, .HTTPS, .SVCB, .ANY, .OPT]

def namedClasses : List DNSClass := [.IN, .CH, .HS, .NONE, .ANY]

theorem namedTypes_or (t : RecordType) : t ∈ namedTypes ∨ ∃ code, t = .other code := by
  cases t with
  | other code => exact .inr ⟨code, rfl⟩
  | _ => exact .inl (by decide)

theorem namedClasses_or (c : DNSClass) : c ∈ namedClasses ∨ ∃ code, c = .other code := by
  cases c with
  | other code => exact .inr ⟨code, rfl⟩
  | _ => exact .inl (by decide)

/-- A code in brackets can be read back. -/
theorem unknown_injective {a b : UInt16} (h : 'U' :: "nknown(".toList ++ Text.decimal a.toNat ++ [')'] =
    'U' :: "nknown(".toList ++ Text.decimal b.toNat ++ [')']) : a = b :=
  UInt16.toNat_inj.1 (Text.decimal_injective
    (List.append_cancel_left (List.append_cancel_right h)))

theorem printType_injective : Function.Injective printType := by
  have hnodup : (namedTypes.map printType).Nodup := by decide +kernel
  have hhead : ∀ t ∈ namedTypes, (printType t).head? ≠ some 'U' := by decide +kernel
  intro a b h
  rcases namedTypes_or a with ha | ⟨x, rfl⟩
  · rcases namedTypes_or b with hb | ⟨y, rfl⟩
    · exact List.inj_on_of_nodup_map hnodup ha hb h
    · exact absurd (congrArg List.head? h) (hhead a ha)
  · rcases namedTypes_or b with hb | ⟨y, rfl⟩
    · exact absurd (congrArg List.head? h.symm) (hhead b hb)
    · rw [unknown_injective h]

theorem printClass_injective : Function.Injective printClass := by
  have hnodup : (namedClasses.map printClass).Nodup := by decide +kernel
  have hhead : ∀ c ∈ namedClasses, (printClass c).head? ≠ some 'U' := by decide +kernel
  intro a b h
  rcases namedClasses_or a with ha | ⟨x, rfl⟩
  · rcases namedClasses_or b with hb | ⟨y, rfl⟩
    · exact List.inj_on_of_nodup_map hnodup ha hb h
    · exact absurd (congrArg List.head? h) (hhead a ha)
  · rcases namedClasses_or b with hb | ⟨y, rfl⟩
    · exact absurd (congrArg List.head? h.symm) (hhead b hb)
    · rw [unknown_injective h]

theorem bar_notMem_unknown (code : UInt16) :
    '|' ∉ 'U' :: "nknown(".toList ++ Text.decimal code.toNat ++ [')'] := by
  have hhead : '|' ∉ 'U' :: "nknown(".toList := by decide +kernel
  intro h
  rcases List.mem_append.1 h with h | h
  · rcases List.mem_append.1 h with h | h
    · exact hhead h
    · exact Cache.bar_notMem_decimal _ h
  · exact absurd (List.mem_singleton.1 h) (by decide)

theorem bar_notMem_printType (t : RecordType) : '|' ∉ printType t := by
  have hnamed : ∀ t ∈ namedTypes, '|' ∉ printType t := by decide +kernel
  rcases namedTypes_or t with ht | ⟨code, rfl⟩
  · exact hnamed t ht
  · exact bar_notMem_unknown code

theorem bar_notMem_printClass (c : DNSClass) : '|' ∉ printClass c := by
  have hnamed : ∀ c ∈ namedClasses, '|' ∉ printClass c := by decide +kernel
  rcases namedClasses_or c with hc | ⟨code, rfl⟩
  · exact hnamed c hc
  · exact bar_notMem_unknown code

theorem prints (table : List (Message × Bytes)) : @Crates.Prints (crates table) :=
  @Crates.Prints.mk (crates table) ⟨printOctet, escaping, fun _ => rfl⟩ printType_injective
    printClass_injective bar_notMem_printType bar_notMem_printClass

/-- The answer that a hit serves ten seconds later was stored for the same request. -/
theorem isolated_later : ∃ tr, ∃ q : State, @Runs codec resolver 4 ⟨world, []⟩ tr q ∧
    ∃ c₀ lookup source e, ⟨.insert c₀ lookup source e, ()⟩ ∈ tr ∧ e.wire = answerWire ∧
      @Cache.SameRequest codec context.query lookup.query := by
  obtain ⟨tr, q, hrun, -, hl⟩ := found_at 10 (by decide)
  obtain ⟨tr', o, he⟩ := @Cache.exec_serves codec cache context key (hitAt 10) answer key_context rfl
    (decode_answer 10) (secs 10)
  obtain ⟨⟨c₀, lookup, source, e, -, -, hev, -, hwire, -, -, hsame⟩, -⟩ :=
    @isolated codec (prints _) resolver 4 _ q tr tr' fresh hrun cache context key (hitAt 10) (secs 10) o
      hl he
  exact ⟨tr, q, hrun, c₀, lookup, source, e, hev, hwire, hsame⟩

end Sample

end Isolation

end FerrumDns
