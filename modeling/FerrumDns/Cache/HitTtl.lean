import FerrumDns.Cache.Hit

/-! The life of a record in a cache. A record outlives its TTL exactly when a lazy
hit serves it in the additional section, whose TTLs are not overwritten, with more
than the lazy TTL left as stored, or when the age of a fresh hit does not fit the
32 bits it is cut to. -/

namespace FerrumDns

open Prog Dnsutil Resolver

namespace Cache

variable [Crates]

/-- The entry was made by this cache from a response it admits. -/
def Admitted (c : Cache) (e : Entry) : Prop :=
  ∃ resp now, admits resp = some e.wire ∧ e = c.entryAt e.wire (minTtl resp) now

/-- A second at least lies between a store and the deadline. -/
theorem Admitted.second {c : Cache} {e : Entry} (h : c.Admitted e) :
    e.stored + secs 1 ≤ e.ttlDeadline := by
  obtain ⟨resp, now, ha, he⟩ := h
  have hpos : 0 < (minTtl resp).val := Nat.pos_of_ne_zero fun h0 =>
    (admits_eq_some.1 ha).2.2.2.2 (Fin.ext h0)
  have hstored : e.stored = now := congrArg Entry.stored he
  have hdeadline : e.ttlDeadline = now + secs (minTtl resp).val := congrArg Entry.ttlDeadline he
  rw [hstored, hdeadline, secs, secs]
  omega

/-- Insertions are of admitted responses. -/
def admission : Contract QueryContext Eff Eff.Answer where
  guar
    | .insert c _ _ e => c.Admitted e
    | _ => True
  rely _ _ := True
  held _ := True

theorem admission_preserved : Preserved admission (fun _ => True) fun _ => True where
  held := .rfl
  call _ := trivial
  count _ := trivial
  exchange _ _ := trivial
  clock := ⟨trivial, fun _ => trivial⟩
  overflow := trivial
  edit _ _ := trivial
  attach _ _ _ _ := trivial
  fork _ := trivial
  absorb _ _ := trivial
  cache _ := exec_sat (I := fun _ => True) (fun _ => trivial) trivial (fun _ _ _ => trivial)
    (fun _ _ _ => trivial) trivial (fun _ _ => trivial) fun _ _ _ => trivial
  note _ _ := trivial
  store _ _ := storeLookup_sat trivial fun response _ now _ _ _ ha => ⟨response, now, ha, rfl⟩

theorem admission_starts : Starts admission fun _ => True where
  upgrade := trivial
  entered _ _ := trivial
  request _ _ _ _ := trivial
  refresh _ := trivial

/-- Every entry of a resolver that started fresh holds an admitted response. -/
theorem admitted_of_run {reg : Registry} {depth : ℕ} {p q : State} {tr : Trace} (hp : Fresh p)
    (h : Runs reg depth p tr q) {tag : Tag} {key : Text} {e : Entry}
    (hs : q.world.Stores tag key e) : ∃ c, Admitted c e := by
  rcases stores_run h hs with hs | ⟨⟨ev, r⟩, hev, c, lookup, source, rfl, -, -⟩
  · exact absurd hs (hp.not_stores tag key e)
  · exact ⟨c, admission_preserved.promised admission_starts (fun _ _ => trivial) hp h _ hev⟩

end Cache

namespace HitTtl

/-- Whole seconds since the store. -/
def age (hit : Hit) (now : ℕ) : ℕ := (now - hit.stored) / secs 1

/-- The TTL a stored record may be served with. -/
def limit (c : Cache) (hit : Hit) (now : ℕ) (r : Record) : ℕ :=
  max (r.ttl.val - age hit now) (if hit.past then c.lazyReplyTtl.val else 0)

/-- The records of a section as stored and as served; an OPT record has no TTL. -/
def Within (c : Cache) (hit : Hit) (now : ℕ) : List Record → List Record → Prop :=
  List.Forall₂ fun r r' => r.recordType ≠ .OPT → r'.ttl.val ≤ limit c hit now r

/-- No record of any section is served with more life than it has left. -/
def NeverExtends (c : Cache) (hit : Hit) (now : ℕ) (msg reply : Message) : Prop :=
  Within c hit now msg.answers reply.answers ∧
    Within c hit now msg.nameServers reply.nameServers ∧
      Within c hit now msg.additionals reply.additionals

/-- On a lazy hit no additional record was stored with more than the lazy TTL; on a fresh hit the
age fits in 32 bits, or what is left of it covers every TTL. -/
def Spent (c : Cache) (hit : Hit) (now : ℕ) (msg : Message) : Prop :=
  if hit.past then ∀ r ∈ msg.additionals, r.recordType ≠ .OPT → r.ttl ≤ c.lazyReplyTtl
  else age hit now < 2 ^ 32 ∨ ∀ r ∈ msg.answers ++ msg.nameServers ++ msg.additionals,
    r.recordType ≠ .OPT → r.ttl.val ≤ age hit now % 2 ^ 32

/-! ### Sections -/

theorem within_map {c : Cache} {hit : Hit} {now : ℕ} {f : Record → Record} {l : List Record} :
    Within c hit now l (l.map f) ↔
      ∀ r ∈ l, r.recordType ≠ .OPT → (f r).ttl.val ≤ limit c hit now r := by
  rw [Within, List.forall₂_map_right_iff, List.forall₂_same]

theorem within_self {c : Cache} {hit : Hit} {now : ℕ} {l : List Record} :
    Within c hit now l l ↔ ∀ r ∈ l, r.recordType ≠ .OPT → r.ttl.val ≤ limit c hit now r := by
  rw [Within, List.forall₂_same]

/-- A subtracted TTL is within its limit unless the age was cut short. -/
theorem bump_le_limit {c : Cache} {hit : Hit} {now : ℕ} {r : Record} (hp : hit.past = false)
    (ho : r.recordType ≠ .OPT) : (bump (Cache.elapsed now hit.stored) r).ttl.val ≤ limit c hit now r ↔
      age hit now < 2 ^ 32 ∨ r.ttl.val ≤ age hit now % 2 ^ 32 := by
  have hlt := r.ttl.isLt
  have hval : (bump (Cache.elapsed now hit.stored) r).ttl.val =
      r.ttl.val - age hit now % 2 ^ 32 := by
    rw [bump, if_neg ho]
    rfl
  rw [hval, limit, hp]
  simp only [Bool.false_eq_true, if_false]
  omega

/-- A TTL left as it is, is within its limit on a lazy hit exactly below the lazy TTL. -/
theorem kept_le_limit {c : Cache} {hit : Hit} {now : ℕ} {r : Record} (hp : hit.past = true)
    (hage : 1 ≤ age hit now) : r.ttl.val ≤ limit c hit now r ↔ r.ttl ≤ c.lazyReplyTtl := by
  rw [limit, hp, Fin.le_def]
  simp only [if_true]
  omega

theorem set_le_limit {c : Cache} {hit : Hit} {now : ℕ} {r : Record} (hp : hit.past = true) :
    c.lazyReplyTtl.val ≤ limit c hit now r := by
  rw [limit, hp]
  exact le_max_right _ _

/-- The rule for one served message. -/
theorem neverExtends_iff {c : Cache} {hit : Hit} {now : ℕ} {msg reply : Message}
    (hage : hit.past = true → 1 ≤ age hit now)
    (ha : reply.answers = (c.served msg hit now).answers)
    (hn : reply.nameServers = (c.served msg hit now).nameServers)
    (hx : reply.additionals = (c.served msg hit now).additionals) :
    NeverExtends c hit now msg reply ↔ Spent c hit now msg := by
  rw [NeverExtends, ha, hn, hx, Spent, Cache.served]
  cases hp : hit.past with
  | true =>
    simp only [if_true, setAllTtl, within_map, within_self]
    have hset (r : Record) : c.lazyReplyTtl.val ≤ limit c hit now r := set_le_limit hp
    simp only [hset, kept_le_limit hp (hage hp), implies_true, true_and]
  | false =>
    simp only [Bool.false_eq_true, if_false, subtractTtl, within_map]
    have hb (l : List Record) : (∀ r ∈ l, r.recordType ≠ .OPT →
        (bump (Cache.elapsed now hit.stored) r).ttl.val ≤ limit c hit now r) ↔
          age hit now < 2 ^ 32 ∨ ∀ r ∈ l, r.recordType ≠ .OPT → r.ttl.val ≤ age hit now % 2 ^ 32 := by
      constructor
      · intro h
        by_cases hlt : age hit now < 2 ^ 32
        · exact .inl hlt
        · exact .inr fun r hr ho => ((bump_le_limit hp ho).1 (h r hr ho)).resolve_left hlt
      · rintro (hlt | h) r hr ho
        · exact (bump_le_limit hp ho).2 (.inl hlt)
        · exact (bump_le_limit hp ho).2 (.inr (h r hr ho))
    rw [hb, hb, hb]
    simp only [List.mem_append, or_imp, forall_and]
    tauto

variable [Crates]

/-- A lazy hit is at least a second old. -/
theorem one_le_age {reg : Registry} {depth : ℕ} {p q : State} {tr : Trace} (hp : Fresh p)
    (h : Runs reg depth p tr q) {c : Cache} {key : Text} {hit : Hit} {now : ℕ}
    (hl : ((q.world.caches c.tag).lookup c key q.world.clock).1 = some hit)
    (hnow : q.world.clock ≤ now) (hpast : hit.past = true) : 1 ≤ age hit now := by
  obtain ⟨e, he, -, rfl⟩ := CacheState.lookup_eq_some hl
  have hs : q.world.Stores c.tag key e := CacheState.stores_of_found he
  obtain ⟨c', hadm⟩ := Cache.admitted_of_run hp h hs
  have hsec := hadm.second
  simp only [Bool.and_eq_true, decide_eq_true_eq] at hpast
  rw [age, Nat.one_le_div_iff (by decide)]
  dsimp only
  omega

/-- Along every run, a cache step that finds an entry and serves it extends no record's life exactly
when the records that the lazy branch leaves alone, and the age that the fresh branch cuts, are
small enough. -/
theorem never_extends_iff (reg : Registry) (depth : ℕ) (p q : State) (tr tr' : Trace)
    (hp : Fresh p) (h : Runs reg depth p tr q) (c : Cache) (ctx : QueryContext) (key : Text)
    (hit : Hit) (msg : Message) (now : ℕ) (o : Outcome)
    (hl : ((q.world.caches c.tag).lookup c key q.world.clock).1 = some hit)
    (hd : decode hit.wire = .ok msg) (hnow : q.world.clock ≤ now)
    (he : Ends (c.exec ctx) (⟨.lookup c key ctx.query, some hit⟩ :: ⟨.now, now⟩ :: tr') o) :
    ∃ reply, o.1.response = some reply ∧
      (NeverExtends c hit now msg reply ↔ Spent c hit now msg) := by
  obtain ⟨event, rfl⟩ := Cache.exec_hit hd he
  refine ⟨_, rfl, neverExtends_iff (one_le_age hp h hl hnow) ?_ ?_ ?_⟩ <;> rfl

/-! ### An additional record that outlives its TTL -/

section Sample

omit [Crates]

open Sample

/-- Ten seconds old, nothing is served with more life than it has left. -/
theorem never_extends_fresh : ∃ (o : Outcome) (reply : Message), o.1.response = some reply ∧
    NeverExtends cache (hitAt 10) (secs 10) answer reply := by
  obtain ⟨tr, q, hrun, hclock, hl⟩ := found_at 10 (by decide)
  obtain ⟨tr', o, he⟩ := @Cache.exec_serves codec cache context key (hitAt 10) answer key_context rfl
    (decode_answer 10) (secs 10)
  obtain ⟨reply, hr, hiff⟩ := @never_extends_iff codec resolver 4 _ q tr tr' fresh hrun cache context
    key (hitAt 10) answer (secs 10) o hl (decode_answer 10) hclock.le he
  exact ⟨o, reply, hr, hiff.2 (.inl (by decide))⟩

/-- A minute on, the lazy hit still gives an hour to the additional record. -/
theorem extended_lazily : ∃ tr, ∃ q : State, @Runs codec resolver 4 ⟨world, []⟩ tr q ∧
    ((q.world.caches "cache").lookup cache key q.world.clock).1 = some (hitAt 60) ∧
    ∃ tr' o, ∃ reply : Message, Ends (@Cache.exec codec cache context)
        (⟨.lookup cache key query, some (hitAt 60)⟩ :: ⟨.now, q.world.clock⟩ :: tr') o ∧
      o.1.response = some reply ∧ ¬ NeverExtends cache (hitAt 60) q.world.clock answer reply := by
  obtain ⟨tr, q, hrun, hclock, hl⟩ := found_at 60 (by decide)
  obtain ⟨tr', o, he⟩ := @Cache.exec_serves codec cache context key (hitAt 60) answer key_context rfl
    (decode_answer 60) q.world.clock
  obtain ⟨event, rfl⟩ := @Cache.exec_hit codec _ _ _ _ _ _ _ _ (decode_answer 60) he
  refine ⟨tr, q, hrun, hl, tr', _, _, he, rfl, ?_⟩
  rintro ⟨-, -, h⟩
  rw [hclock] at h
  cases h with
  | cons h _ => exact absurd (h (by decide)) (by decide)

end Sample

end HitTtl

end FerrumDns
