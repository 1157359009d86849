import FerrumDns.Cache.Isolation
import FerrumDns.Transparency.Course

/-! The cache of a pipeline of redirects does not show. What one request leaves in it is
the response to its question at the cache, with the aliases made behind; another request
with that key gets this response, aged and bound to its own question with the aliases
made before. It would have got the same on a miss, but for the age. -/

namespace FerrumDns

open Prog Dnsutil QueryContext Sequence Resolver

variable {reg : Registry} {depth : ℕ}

/-! ### Upstreams that answer alike -/

/-- The answers depend on what a key is made of, the ASCII case of owners aside, and are messages
from the wire. -/
structure Faithful (up : Message → Except Error Message) : Prop where
  keyed : ∀ {q q₀ m₀}, Cache.SameFields q q₀ → up q₀ = .ok m₀ →
    ∃ m, up q = .ok m ∧ m.AgedBody 0 m₀ ∧ m.edns = m₀.edns
  optApart : ∀ {q m}, up q = .ok m → m.OptApart

namespace Forward

variable {f : Forward} {up : Message → Except Error Message} {ctx : QueryContext}

/-- The end of a forward step: it leaves the caches alone, continues, and took this response. -/
def Took (ctx : QueryContext) (response : Except Error Message) (tr : Trace) (o : Outcome) : Prop :=
  (∀ ev ∈ tr, Apart ev.1) ∧ o.2 = .ok .Continue ∧ FerrumDns.Took ctx response o.1

theorem took_cons {response : Except Error Message} {ev : Event Eff Eff.Answer} {tr : Trace}
    {o : Outcome} (hev : Apart ev.1) (h : Took ctx response tr o) : Took ctx response (ev :: tr) o :=
  ⟨fun ev' hev' => (List.mem_cons.1 hev').elim (fun he => he ▸ hev) (h.1 ev'), h.2⟩

theorem asked_tail {ev : Event Eff Eff.Answer} {tr : Trace} (h : Asked up (ev :: tr)) :
    Asked up tr :=
  fun ups q r hr => h ups q r (by simp [hr])

/-- Counting and then finishing. -/
theorem took_counted {k : Counter} {response : Except Error Message} {o o' : Outcome} {tr : Trace}
    (h : Ends ((Run.count k).bind fun _ => done o) tr o') (ho : Took ctx response [] o) :
    Took ctx response tr o' := by
  obtain ⟨_, tr', rfl, h'⟩ := ends_act h
  obtain ⟨rfl, rfl⟩ := ends_done h'
  exact took_cons (by simp [Apart]) ho

theorem took_traced (event : String) {msg : Message} :
    Took ctx (.ok msg) [] (f.took (ctx.pushTrace f.tag event) msg, .ok .Continue) := by
  obtain ⟨t, ht⟩ := ctx.pushTrace_eq f.tag event
  exact ⟨by simp, rfl, _, t, by rw [ht]; rfl⟩

theorem single_took {q : Message} {u : Upstream} {tr : Trace} {o : Outcome}
    (h : Ends (f.single ctx q u) tr o) (hasked : Asked up tr) : Took ctx (up q) tr o := by
  obtain ⟨⟨i, r⟩, tr', rfl, h'⟩ := ends_act (ends_await h)
  obtain rfl : r = up q := hasked _ _ _ (List.mem_cons_self ..)
  refine took_cons (by simp [Apart]) ?_
  cases hr : up q with
  | error e =>
    simp only [hr] at h'
    exact took_counted h' ⟨by simp, rfl, (Traced.refl ctx).push _ _⟩
  | ok msg =>
    simp only [hr] at h'
    split_ifs at h' <;> exact took_counted h' (took_traced _)

/-- A race that is over takes the last response. -/
theorem race_stopped {response : Except Error Message} {last : Option Message} {tr : Trace} {o : Outcome}
    (h : Ends (done (((last.map (f.took ctx)).getD ctx).pushTrace f.tag "err", .ok .Continue) :
      Run Outcome) tr o)
    (hlast : ∀ m, last = some m → response = .ok m)
    (hnone : last = none → ∃ e, response = .error e) : Took ctx response tr o := by
  obtain ⟨rfl, rfl⟩ := ends_done h
  cases last with
  | none =>
    obtain ⟨e, rfl⟩ := hnone rfl
    exact ⟨by simp, rfl, (Traced.refl ctx).push _ _⟩
  | some msg =>
    rw [hlast msg rfl]
    exact ⟨by simp, rfl, _, (Traced.refl _).push _ _⟩

/-- A race whose exchanges all answer alike ends with this answer, if one of them was waited for. -/
theorem race_took {q : Message} {n : ℕ} {pending : List Upstream} {last : Option Message} {tr : Trace}
    {o : Outcome} (h : Ends (f.race ctx q n pending last) tr o) (hasked : Asked up tr)
    (hlast : ∀ m, last = some m → up q = .ok m)
    (hnone : last = none → (0 < n ∧ pending ≠ []) ∨ ∃ e, up q = .error e) :
    Took ctx (up q) tr o := by
  induction n generalizing pending last tr with
  | zero => exact race_stopped h hlast fun hl => (hnone hl).resolve_left (by simp)
  | succ n ih =>
    cases pending with
    | nil => exact race_stopped h hlast fun hl => (hnone hl).resolve_left (by simp)
    | cons u pending =>
      obtain ⟨⟨i, r⟩, tr', rfl, h'⟩ := ends_act (ends_await h)
      obtain rfl : r = up q := hasked _ _ _ (List.mem_cons_self ..)
      refine took_cons (by simp [Apart]) ?_
      cases hr : up q with
      | error e =>
        simp only [hr] at h'
        obtain ⟨_, tr₂, rfl, h₂⟩ := ends_act h'
        rw [← hr]
        exact took_cons (by simp [Apart]) (ih h₂ (asked_tail (asked_tail hasked)) hlast
          fun _ => .inr ⟨e, hr⟩)
      | ok msg =>
        simp only [hr] at h'
        split_ifs at h'
        · exact took_counted h' (took_traced _)
        · obtain ⟨_, tr₂, rfl, h₂⟩ := ends_act h'
          rw [← hr]
          exact took_cons (by simp [Apart]) (ih h₂ (asked_tail (asked_tail hasked))
            (fun m hm => by rw [← Option.some.inj hm, hr]) (by simp))

/-- A forward step installs what its upstreams answer. -/
theorem answers [Crates] (f : Forward) (up : Message → Except Error Message) :
    Answers reg (.forward f) up := by
  intro depth ctx tr o h hasked
  obtain ⟨d, tr', rfl, rfl, h'⟩ := Executable.exec_ends h
  refine took_cons (by simp [Apart]) ?_
  have hasked' := asked_tail hasked
  have hexec : Ends (f.exec ctx) tr' o := h'
  simp only [exec] at hexec
  split_ifs at hexec with hn
  · exact single_took hexec hasked'
  · refine race_took hexec hasked' (by simp) fun _ => .inl ⟨by omega, ?_⟩
    rw [Ne, List.take_eq_nil_iff, not_or]
    exact ⟨by omega, f.nonempty⟩

end Forward

/-! ### Entries within their time to live -/

namespace Cache

variable {c : Cache} {now : ℕ}

/-- Before its deadline an entry is served with its age taken off. -/
theorem served_fresh {e : Entry} {clock : ℕ} (hclock : clock ≤ now) (hfresh : now < e.ttlDeadline)
    (msg : Message) : c.served msg ⟨e.wire, e.ttlDeadline ≤ clock && 0 < c.lazyTtl, e.stored⟩ now =
      subtractTtl msg (elapsed now e.stored) := by
  have hpast : ¬ e.ttlDeadline ≤ clock := by omega
  rw [served, if_neg (by simp [hpast])]

/-- Before its deadline an entry's age fits its type. -/
theorem elapsed_fresh {wire : Bytes} {ttl : U32} {stored : ℕ}
    (hfresh : now < (c.entryAt wire ttl stored).ttlDeadline) :
    (elapsed now (c.entryAt wire ttl stored).stored).val =
      (now - (c.entryAt wire ttl stored).stored) / secs 1 := by
  have hlt : now < stored + secs ttl.val := hfresh
  have httl := ttl.isLt
  rw [elapsed, U32.val_wrap]
  simp only [entryAt, secs] at hlt ⊢
  omega

/-- What was stored decodes to the bound response. -/
theorem decode_stored [Crates] (hrt : Crates.RoundTrip) {m q : Message} {as : List (Name × Name)}
    {wire : Bytes} (h : admits (bindResponse m q as) = some wire) :
    decode wire = .ok (bindResponse m q as) ∧ m.responseCode = .NoError := by
  obtain ⟨hc, -, -, hw, -⟩ := admits_eq_some.1 h
  exact ⟨decode_of_encode hrt hw, responseCode_bindResponse m q as ▸ hc⟩

end Cache

/-! ### Replies -/

section Replies

variable [Crates] (reg depth)

/-- A request whose pipeline ran to its end, with the reply it got. -/
def Replies (entry : Tag) (q : Message) (peer : Option IpAddr) (proto : ClientProto) (tr : Trace)
    (reply : Option Message) : Prop :=
  ∃ p o, reg.getExec entry = .ok p ∧
    Ends (p.exec reg depth ((QueryContext.new q peer proto).beginPipeline entry)) tr o ∧
    reply = (Server.finalized (Server.recover (.ok o))).response

variable {reg depth}

/-- The reply is what handling the request leaves. -/
theorem Replies.handle {entry : Tag} {q : Message} {peer : Option IpAddr} {proto : ClientProto}
    {tr : Trace} {reply : Option Message} (h : Replies reg depth entry q peer proto tr reply)
    (hq : classifyIncoming q = .Ok) : ∃ tr' ctx,
      Ends (Server.handle reg depth entry (QueryContext.new q peer proto)) (tr ++ tr') (ctx, .ok ()) ∧
        ctx.response = reply := by
  obtain ⟨p, o, hp, hends, rfl⟩ := h
  have hq' : classifyIncoming (QueryContext.new q peer proto).query = .Ok := hq
  obtain ⟨tr', hconclude⟩ : ∃ tr', Ends (Server.conclude (Server.recover (.ok o))) tr'
      (Server.finalized (Server.recover (.ok o)), .ok ()) :=
    ⟨_, (Run.ends_count _).bind ((Run.ends_count _).bind (.refl _))⟩
  refine ⟨tr', _, ?_, rfl⟩
  rw [Server.handle, hq']
  simp only [hp]
  exact hends.timeout.bind hconclude

/-! ### Hits and misses -/

namespace Pipeline

/-- Redirects keep the class. -/
theorem askedClass_follow (rs : List Redirect) (q : Message) :
    askedClass { q with queries := (follow rs q.queries).1 } = askedClass q := by
  have head (l : List Query) : ((follow rs l).1.head?.map Query.queryClass) =
      l.head?.map Query.queryClass := by
    induction rs generalizing l with
    | nil => rfl
    | cons r rs ih =>
      cases hh : r.hop l with
      | none => rw [follow_none hh, ih]
      | some hop =>
        rw [follow_some hh, ih]
        cases l <;> rfl
  rw [askedClass, askedClass, head]

variable {p : Pipeline reg} {up : Message → Except Error Message}

/-- The reply from the cache. -/
theorem hit_reply (hup : Answers reg p.up.2 up) {entry : Tag}
    (hentry : reg.execs entry = some (.sequence p.sequence)) {q msg : Message} {peer : Option IpAddr}
    {proto : ClientProto} {tr : Trace} {reply : Option Message}
    (h : Replies reg depth entry q peer proto tr reply) (hasked : Asked up tr) {c : Cache} {key : Text}
    {q' : Message} {hit : Hit} {now : ℕ}
    (hl : (⟨.lookup c key q', some hit⟩ : Event Eff Eff.Answer) ∈ tr) (hd : decode hit.wire = .ok msg)
    (hnow : (⟨.now, now⟩ : Event Eff Eff.Answer) ∈ tr) :
    Cache.keyOf (p.asked q) p.cache.cacheEverything = some key ∧
      reply = some (bindResponse (rebindResponse (p.cache.served msg hit now) (p.asked q)) q
        (p.atCache q.queries).2) := by
  obtain ⟨x, ⟨oc, r⟩, hx, hends, rfl⟩ := h
  obtain rfl : .sequence p.sequence = x := by simpa [Registry.getExec, hentry] using hx
  obtain ⟨hkey, hr, t, ht⟩ := p.hit hup hends hasked hl hd hnow
  obtain rfl : r = .ok .Accept := hr
  obtain rfl : oc = _ := ht
  exact ⟨hkey, rfl⟩

/-- The reply on a miss. -/
theorem miss_reply (hup : Answers reg p.up.2 up) {entry : Tag}
    (hentry : reg.execs entry = some (.sequence p.sequence)) {q m : Message} {peer : Option IpAddr}
    {proto : ClientProto} {tr : Trace} {reply : Option Message}
    (h : Replies reg depth entry q peer proto tr reply) (hasked : Asked up tr)
    (hnone : ∀ c key q hit, (⟨.lookup c key q, some hit⟩ : Event Eff Eff.Answer) ∉ tr)
    (hm : up (p.askedUp (p.asked q)) = .ok m) :
    reply = some (bindResponse m q ((p.atCache q.queries).2 ++ (p.atUp (p.asked q).queries).2)) := by
  obtain ⟨x, ⟨oc, r⟩, hx, hends, rfl⟩ := h
  obtain rfl : .sequence p.sequence = x := by simpa [Registry.getExec, hentry] using hx
  obtain ⟨hr, z, ⟨t, rfl⟩, htook⟩ := p.missed hup rfl hends hasked hnone
  obtain rfl : r = .ok .Continue := hr
  have htook' : Took _ (up (p.askedUp (p.asked q))) oc := htook
  rw [hm] at htook'
  obtain ⟨source, t', rfl⟩ := htook'
  rfl

end Pipeline

/-- Within the time to live of what a first request stored, a second one with that key gets from the
cache what it would have got on a miss, aged by the whole seconds in between. -/
theorem transparent (hprints : Crates.Prints) (hrt : Crates.RoundTrip) (reg : Registry)
    (p : Pipeline reg) (up : Message → Except Error Message) (hup : Answers reg p.up.2 up)
    (hfaithful : Faithful up)
    -- the first request stores an entry
    (depth₁ : ℕ) (ctx₁ : QueryContext) (tr₁ : Trace) (o₁ : Outcome) (hnew : ctx₁.response = none)
    (habs₁ : Absolute ctx₁.query.queries)
    (hfirst : Ends ((Executable.sequence p.sequence).exec reg depth₁ ctx₁) tr₁ o₁)
    (hasked₁ : Asked up tr₁) (c : Cache) (lookup : CacheLookup) (source : Option Source) (e : Entry)
    (hins : ⟨.insert c lookup source e, ()⟩ ∈ tr₁)
    -- the resolver runs on and finds it
    (depth : ℕ) (a b : State) (tr : Trace)
    (hrun : Runs reg depth a (⟨.insert c lookup source e, ()⟩ :: tr) b)
    (hlast : ∀ e', ∀ ev ∈ tr, ¬ Inserts c.tag lookup.key e' ev) (hit : Hit)
    (hfound : ((b.world.caches c.tag).lookup c lookup.key b.world.clock).1 = some hit) (now : ℕ)
    (hclock : b.world.clock ≤ now) (hfresh : now < e.ttlDeadline)
    -- the second request gets it, or misses
    (entry : Tag) (hentry : reg.execs entry = some (.sequence p.sequence)) (q : Message)
    (peer : Option IpAddr) (proto : ClientProto) (habs : Absolute q.queries)
    (hacyclic : ((p.atCache q.queries).2 ++ (p.atUp (p.asked q).queries).2).Pairwise
      fun x y => ¬ x.1.Same y.1)
    (trh trm : Trace) (reply reply' : Option Message)
    (hhit : Replies reg depth entry q peer proto trh reply) (haskedh : Asked up trh) (c' : Cache)
    (q' : Message) (hl : ⟨.lookup c' lookup.key q', some hit⟩ ∈ trh) (hnow : ⟨.now, now⟩ ∈ trh)
    (hmiss : Replies reg depth entry q peer proto trm reply') (haskedm : Asked up trm)
    (hnone : ∀ c key q hit, ⟨.lookup c key q, some hit⟩ ∉ trm) :
    ∃ m m', reply = some m ∧ reply' = some m' ∧ m'.Aged ((now - e.stored) / secs 1) m := by
  obtain ⟨rfl, hkey₁, m₁, wire, t₁, hm₁, hadmits, rfl⟩ := p.stored hup hnew hfirst hasked₁ hins
  -- What is found is what was stored, and it is fresh.
  obtain ⟨e', he', -, rfl⟩ := CacheState.lookup_eq_some hfound
  have hrun' : Runs reg depth a ([] ++ ⟨.insert p.cache lookup source _, ()⟩ :: tr) b := hrun
  obtain rfl := (found_after hrun' he').resolve_right fun ⟨ev, hev, h⟩ => hlast _ _ hev h
  obtain ⟨hd, hcode₁⟩ := Cache.decode_stored hrt hadmits
  obtain ⟨hkey, rfl⟩ := p.hit_reply hup hentry hhit haskedh hl hd hnow
  rw [Cache.served_fresh hclock hfresh]
  -- Both requests are rewritten in parallel.
  have hat : Absolute (p.asked q).queries := absolute_follow _ habs
  have hat₁ : Absolute (p.asked ctx₁.query).queries := absolute_follow _ habs₁
  have hfields := Cache.SameFields.of_keyOf hprints hrt hkey hkey₁
  obtain ⟨-, hops⟩ := follow_same hprints (p.behind.map Prod.snd) (hfields.queries hat hat₁)
  obtain ⟨m₂, hm₂, hbody, hedns⟩ := hfaithful.keyed (hfields.follow hprints hat hat₁ _) hm₁
  obtain rfl := p.miss_reply hup hentry hmiss haskedm hnone hm₂
  refine ⟨_, _, rfl, rfl, ?_⟩
  rw [← Cache.elapsed_fresh hfresh]
  refine bound_aged _ hbody hedns (hfaithful.optApart hm₁) hcode₁ ?_ hfields.edns.symm rfl hops ?_
  · exact (Pipeline.askedClass_follow (p.before.map Prod.snd) q).symm.trans hfields.askedClass
  · exact fun x hx y hy hs => (List.pairwise_append.1 hacyclic).2.2 x hx y hy hs.symm

end Replies

/-! ### A chain of two aliases -/

namespace Transparent

open Sample

/-- `b.test.` -/
def bTest : Name := { labels := [[98], [116, 101, 115, 116]], fqdn := true }

/-- `c.test.` -/
def cTest : Name := { labels := [[99], [116, 101, 115, 116]], fqdn := true }

/-- The address of `c.test.`, which lives a minute. -/
def answer : Message :=
  { replySkeleton Sample.query .NoError with
    queries := [⟨cTest, .A, .IN⟩]
    answers := [recordA cTest 60 (Ipv4Addr.ofOctets 192 0 2 1)] }

/-- What is stored for `b.test.` -/
def bound : Message :=
  bindResponse answer { Sample.query with queries := [⟨bTest, .A, .IN⟩] } [(bTest, cTest)]

def boundWire : Bytes :=
  [0, 1, 129, 128, 0, 1, 0, 2, 0, 0, 0, 0, 1, 98, 4, 116, 101, 115, 116, 0, 0, 1, 0, 1,
    192, 12, 0, 5, 0, 1, 0, 0, 0, 60, 0, 4, 1, 99, 192, 14,
    192, 36, 0, 1, 0, 1, 0, 0, 0, 60, 0, 4, 192, 0, 2, 1]

@[reducible] def codec : Crates := crates [(bound, boundWire)]

def first : Redirect := ⟨[("a.test".toList, bTest)]⟩

def second : Redirect := ⟨[("b.test".toList, cTest)]⟩

/-- `a.test` leads to `b.test` before the cache, and `b.test` to `c.test` behind it. -/
def steps : List Step :=
  [plain "first", plain "cache", ⟨[.HasResp], .Builtin .Accept⟩, plain "second", plain "up"]

def redirecting : Registry :=
  registry [("first", .redirect first), ("cache", .cache cache), ("second", .redirect second),
    ("up", .forward forward), ("main", .sequence ⟨"main", steps⟩)] rfl

def pipeline : Pipeline redirecting where
  tag := "main"
  before := [("first", first)]
  cache := cache
  behind := [("second", second)]
  up := ("up", .forward forward)
  before_execs := List.forall_mem_singleton.2 rfl
  cache_execs := rfl
  behind_execs := List.forall_mem_singleton.2 rfl
  up_execs := rfl
  up_caches := rfl

/-- The request as its pipeline starts. -/
def start : QueryContext := context.beginPipeline "main"

/-- The key of `b.test.` -/
def key : Text := "b.test|A|IN|ecs=-|rd=true|cd=false|ad=false|edns=None".toList

def lookup : CacheLookup := ⟨key, { Sample.query with queries := [⟨bTest, .A, .IN⟩] }, 1⟩

def entry : Entry := ⟨boundWire, 0, secs 60, secs 600⟩

/-- What a trace tells of caches, clock and upstreams. -/
inductive Seen where
  | lookup (key : Text) (hit : Option Hit)
  | insert (c : Cache) (lookup : CacheLookup) (source : Option Source) (e : Entry)
  | now (t : ℕ)
  | exchange (response : Except Error Message)
  deriving DecidableEq

def seen : Event Eff Eff.Answer → Option Seen
  | ⟨.lookup _ key _, hit⟩ => some (.lookup key hit)
  | ⟨.insert c lookup source e, _⟩ => some (.insert c lookup source e)
  | ⟨.now, t⟩ => some (.now t)
  | ⟨.exchange _ _, r⟩ => some (.exchange r.2)
  | _ => none

def request (w : World) : Option (Trace × Outcome × World × List Task) :=
  (@Executable.exec codec redirecting 4 (.sequence pipeline.sequence) start).play
    (@oracle codec redirecting 4 (answering answer)) false w

def hit : Hit := ⟨boundWire, false, 0⟩

/-- The first run misses, asks, and stores what it got; ten seconds later it is found. -/
theorem runs_seen : ∃ tr o w tr' o' w', request world = some (tr, o, w, []) ∧
    request { w with clock := secs 10 } = some (tr', o', w', []) ∧ w.clock ≤ secs 10 ∧
    ((w.caches "cache").lookup cache key (secs 10)).1 = some hit ∧
    tr.filterMap seen = [.lookup key none, .exchange (.ok answer), .now 0,
      .insert cache lookup (some (.forward "up")) entry] ∧
    tr'.filterMap seen = [.lookup key (some hit), .now (secs 10)] := by
  have h : ((request world).bind fun x => (request { x.2.2.1 with clock := secs 10 }).map fun y =>
      ((x.2.2.2.length, y.2.2.2.length, x.2.2.1.clock),
        ((x.2.2.1.caches "cache").lookup cache key (secs 10)).1, x.1.filterMap seen,
        y.1.filterMap seen)) =
      some ((0, 0, 0), some hit, [.lookup key none, .exchange (.ok answer), .now 0,
        .insert cache lookup (some (.forward "up")) entry],
        [.lookup key (some hit), .now (secs 10)]) := by decide +kernel
  obtain ⟨⟨tr, o, w, new⟩, hp, hx⟩ := Option.bind_eq_some_iff.1 h
  obtain ⟨⟨tr', o', w', new'⟩, hp', hy⟩ := Option.map_eq_some_iff.1 hx
  simp only [Prod.mk.injEq, List.length_eq_zero_iff] at hy
  obtain ⟨⟨rfl, rfl, hclock⟩, hl, hs, hs'⟩ := hy
  exact ⟨tr, o, w, tr', o', w', hp, hp', by omega, hl, hs, hs'⟩

theorem roundTrip : @Crates.RoundTrip codec := Sample.roundTrip (by decide +kernel)

theorem faithful : Faithful fun _ => .ok answer where
  keyed {_ _ m₀} _ h := by
    obtain rfl : answer = m₀ := Except.ok.inj h
    exact ⟨answer, rfl, agedBody_subtractTtl (by unfold Message.OptApart; decide) 0, rfl⟩
  optApart h := by
    cases h
    unfold Message.OptApart
    decide

theorem seen_insert {ev : Event Eff Eff.Answer} {c : Cache} {lookup : CacheLookup}
    {source : Option Source} {e : Entry} (h : seen ev = some (.insert c lookup source e)) :
    ev = ⟨.insert c lookup source e, ()⟩ := by
  obtain ⟨x, r⟩ := ev
  cases x <;> cases h
  rfl

theorem seen_lookup {ev : Event Eff Eff.Answer} {key : Text} {hit : Option Hit}
    (h : seen ev = some (.lookup key hit)) : ∃ c q, ev = ⟨.lookup c key q, hit⟩ := by
  obtain ⟨x, r⟩ := ev
  cases x <;> cases h
  exact ⟨_, _, rfl⟩

theorem seen_now {ev : Event Eff Eff.Answer} {t : ℕ} (h : seen ev = some (.now t)) :
    ev = ⟨.now, t⟩ := by
  obtain ⟨x, r⟩ := ev
  cases x <;> cases h
  rfl

theorem asked {tr : Trace} {l : List Seen} (h : tr.filterMap seen = l)
    (hl : ∀ r, Seen.exchange r ∈ l → r = .ok answer) : Asked (fun _ => .ok answer) tr := by
  intro ups q r hr
  refine hl r.2 ?_
  rw [← h]
  exact List.mem_filterMap.2 ⟨_, hr, rfl⟩

/-- The insertion, and what the resolver does after it. -/
theorem inserted {tr : Trace} {o : Outcome} {w : World} (hp : request world = some (tr, o, w, []))
    (hs : tr.filterMap seen = [.lookup key none, .exchange (.ok answer), .now 0,
      .insert cache lookup (some (.forward "up")) entry]) :
    ⟨.insert cache lookup (some (.forward "up")) entry, ()⟩ ∈ tr ∧ ∃ post a l,
      @Runs codec redirecting 4 a
        (⟨.insert cache lookup (some (.forward "up")) entry, ()⟩ :: post) ⟨w, l⟩ ∧
      ∀ e', ∀ ev ∈ post, ¬ Inserts "cache" key e' ev := by
  have hsplit : tr.filterMap seen = [.lookup key none, .exchange (.ok answer), .now 0] ++
      [.insert cache lookup (some (.forward "up")) entry] := hs
  obtain ⟨pre, rest, rfl, -, hrest⟩ := List.filterMap_eq_append_iff.1 hsplit
  obtain ⟨skipped, ev, post, rfl, -, hev, hpost⟩ := List.filterMap_eq_cons_iff.1 hrest
  obtain rfl := seen_insert hev
  have htask := play_bind hp (f := fun _ => done ()) rfl
  have hrun := Pool.play_run (@machine_allows codec redirecting 4 (answering answer)) htask [] [] none
  rw [List.append_nil, ← List.append_assoc] at hrun
  obtain ⟨a, b, -, hstep, hafter⟩ := hrun.split
  refine ⟨by simp, post, a, _, .step hstep hafter, ?_⟩
  rintro e' ⟨x, r⟩ hmem ⟨c, l, source, rfl, -, -⟩
  have hmem' : Seen.insert c l source e' ∈ post.filterMap seen := List.mem_filterMap.2 ⟨_, hmem, rfl⟩
  simp [hpost] at hmem'

/-- Ten seconds later the cache serves what a miss would give, with ten seconds less to live. -/
theorem transparent_later : ∃ trh trm reply reply',
    @Replies redirecting 4 codec "main" Sample.query context.clientAddr .Udp trh reply ∧
    @Replies redirecting 4 codec "main" Sample.query context.clientAddr .Udp trm reply' ∧
    (∃ ev ∈ trh, seen ev = some (.lookup key (some hit))) ∧
    ∃ m m', reply = some m ∧ reply' = some m' ∧ m'.Aged 10 m := by
  obtain ⟨tr, o, w, tr', o', w', hp, hp', hclock, hl, hs, hs'⟩ := runs_seen
  have hfirst := play_ends hp
  have hsecond := play_ends hp'
  obtain ⟨evl, hevl, hlookup⟩ : ∃ ev ∈ tr', seen ev = some (.lookup key (some hit)) :=
    List.mem_filterMap.1 (hs' ▸ by simp)
  obtain ⟨cl, ql, rfl⟩ := seen_lookup hlookup
  obtain ⟨evn, hevn, hnow⟩ : ∃ ev ∈ tr', seen ev = some (.now (secs 10)) :=
    List.mem_filterMap.1 (hs' ▸ by simp)
  obtain rfl := seen_now hnow
  have hnone : ∀ c key q hit, (⟨.lookup c key q, some hit⟩ : Event Eff Eff.Answer) ∉ tr := by
    intro c key q hit hmem
    have hmem' : Seen.lookup key (some hit) ∈ tr.filterMap seen := List.mem_filterMap.2 ⟨_, hmem, rfl⟩
    simp [hs] at hmem'
  obtain ⟨hins, post, a, l, hrun, hlast⟩ := inserted hp hs
  have htick : @Runs codec redirecting 4 ⟨w, l⟩ [] ⟨{ w with clock := secs 10 }, l⟩ :=
    .step (.drift (Drift.tick hclock)) (.refl _)
  have hruns := hrun.trans htick
  rw [List.append_nil] at hruns
  refine ⟨tr', tr, _, _, ⟨_, _, rfl, hsecond, rfl⟩, ⟨_, _, rfl, hfirst, rfl⟩, ⟨_, hevl, rfl⟩, ?_⟩
  exact @transparent codec (Isolation.prints _) roundTrip redirecting pipeline (fun _ => .ok answer)
    (@Forward.answers redirecting codec forward _) faithful 4 start _ _ rfl (by unfold Absolute; decide)
    hfirst (asked hs (by simp)) cache lookup _ entry hins 4 _ _ post hruns hlast hit hl (secs 10)
    le_rfl (by decide) "main" rfl Sample.query context.clientAddr .Udp (by unfold Absolute; decide)
    (by decide) _ _ _ _ ⟨_, _, rfl, hsecond, rfl⟩ (asked hs' (by simp)) cl ql hevl hevn
    ⟨_, _, rfl, hfirst, rfl⟩ (asked hs (by simp)) hnone

end Transparent

end FerrumDns
