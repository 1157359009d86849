import FerrumDns.Resolver
import Mathlib.Data.List.Perm.Basic
import Mathlib.Data.List.Sort

/-! The administrative interface under the layer that every request goes through. A request
that may change something reaches its handler when it comes from the page the interface
itself served, or from no page at all; where it comes from is read off three headers, each
of which may be absent, repeated or malformed. What is refused performs no action. The
handler that empties caches performs one action for each shard it empties. -/

namespace FerrumDns

open Prog Text

namespace Api

/-! ### Requests and replies -/

/-- Headers in their order of arrival, their names in lower case. -/
abbrev Headers := List (Text × Bytes)

/-- The octets of a static text in ASCII. -/
def octets (s : String) : Bytes := s.toList.map fun c => UInt8.ofNat c.toNat

/-- `get_all` -/
def getAll (headers : Headers) (name : String) : List Bytes :=
  (headers.filter (·.1 = name.toList)).map Prod.snd

/-- `insert`: what was there under the name is gone. -/
def insert (name value : String) (headers : Headers) : Headers :=
  headers.filter (·.1 ≠ name.toList) ++ [(name.toList, octets value)]

/-- `to_str` of a value: visible characters, blanks and tabs. -/
def toStr (v : Bytes) : Option Text :=
  if v.all fun b => b = 9 || 32 ≤ b && b < 127 then some (v.map fun b => Char.ofNat b.toNat)
  else none

structure Request where
  method : Text
  path : Text
  headers : Headers
  body : Bytes
  deriving DecidableEq, Repr

/-- `is_safe` of the method. -/
def Request.isSafe (request : Request) : Prop :=
  request.method ∈ ["GET".toList, "HEAD".toList, "OPTIONS".toList, "TRACE".toList]

instance (request : Request) : Decidable request.isSafe := inferInstanceAs (Decidable (_ ∈ _))

inductive Body where
  | text (s : String)
  | flushed (tags : List Tag)
  deriving DecidableEq, Repr

structure Response where
  status : ℕ
  headers : Headers
  body : Body
  deriving DecidableEq, Repr

/-- A status with a text, made a reply. -/
def Response.plain (status : ℕ) (s : String) : Response :=
  ⟨status, [("content-type".toList, octets "text/plain; charset=utf-8")], .text s⟩

/-! ### The crates for addresses -/

/-- The parts of an address that are looked at. -/
structure Url where
  scheme : Text
  username : Text
  password : Option Text
  hostStr : Option Text
  port : Option ℕ
  path : Text
  query : Option Text
  fragment : Option Text
  deriving DecidableEq, Repr

/-- `port_or_known_default` -/
def Url.effectivePort (u : Url) : Option ℕ :=
  u.port.or <|
    if u.scheme = "http".toList ∨ u.scheme = "ws".toList then some 80
    else if u.scheme = "https".toList ∨ u.scheme = "wss".toList then some 443
    else if u.scheme = "ftp".toList then some 21
    else none

def Url.IsHttp (u : Url) : Prop := u.scheme = "http".toList ∨ u.scheme = "https".toList

instance (u : Url) : Decidable u.IsHttp := inferInstanceAs (Decidable (_ ∨ _))

/-- What is parsed elsewhere: addresses and the comparison of their origins, authorities, and
the body of a request to empty caches. -/
class WebCrates where
  parse : Text → Option Url
  sameOrigin : Url → Url → Bool
  authority : Text → Bool
  flushReq : Bytes → Option (Option Tag)

open WebCrates

/-- An address starts with its scheme; two of the web have one origin when they agree in
scheme, host and port. -/
structure WebCrates.Documented [WebCrates] : Prop where
  scheme : ∀ {s rest : Text} {u : Url}, s = "http".toList ∨ s = "https".toList →
    parse (s ++ "://".toList ++ rest) = some u → u.scheme = s
  origin : ∀ {a b : Url}, a.IsHttp → b.IsHttp → (sameOrigin b a = true ↔
    b.scheme = a.scheme ∧ b.hostStr = a.hostStr ∧ b.effectivePort = a.effectivePort)

/-! ### The layer -/

section Layer

variable [WebCrates] {S E : Type} {R : E → Type}

/-- The last part: the one `Host` header against the origin. -/
def trustedHost (headers : Headers) (origin : Url) : Bool :=
  match getAll headers "host" with
  | [] => false
  | host :: hosts =>
    match toStr host with
    | none => false
    | some host =>
      if hosts ≠ [] ∨ '@' ∈ host ∨ ¬ authority host then false
      else
        match parse (origin.scheme ++ "://".toList ++ host) with
        | some target => sameOrigin target origin
        | none => false

/-- The part after the first header. -/
def trustedOrigin (headers : Headers) : Bool :=
  match getAll headers "origin" with
  | [] => true
  | origin :: origins =>
    if origins ≠ [] then false
    else
      match (toStr origin).bind parse with
      | none => false
      | some origin =>
        if ¬ origin.IsHttp ∨ origin.hostStr = none ∨ origin.username ≠ [] ∨
            origin.password ≠ none ∨ origin.path ≠ "/".toList ∨ origin.query ≠ none ∨
            origin.fragment ≠ none then false
        else trustedHost headers origin

def trustedBrowserSource (headers : Headers) : Bool :=
  match getAll headers "sec-fetch-site" with
  | [] => trustedOrigin headers
  | site :: sites =>
    if sites ≠ [] ∨ ¬ (toStr site = some "same-origin".toList ∨ toStr site = some "none".toList)
    then false
    else trustedOrigin headers

def contentSecurityPolicy : String :=
  "default-src 'none'; script-src 'self'; style-src 'self'; img-src 'self'; " ++
    "font-src 'self'; connect-src 'self'; base-uri 'none'; frame-ancestors 'none'; " ++
    "form-action 'self'"

/-- The headers set on every reply. -/
def harden (r : Response) : Response :=
  { r with headers := insert "referrer-policy" "no-referrer" <|
      insert "x-content-type-options" "nosniff" <|
      insert "content-security-policy" contentSecurityPolicy <|
      insert "cache-control" "no-store" r.headers }

def forbidden : Response := .plain 403 "cross-origin API writes are not allowed"

def responseHeaders (next : Request → Prog S E R Response) (request : Request) :
    Prog S E R Response :=
  let response :=
    if "/api/".toList <+: request.path ∧ ¬ request.isSafe ∧
        ¬ trustedBrowserSource request.headers then done forbidden
    else next request
  response.bind fun r => done (harden r)

end Layer

/-! ### Where a request comes from -/

section Source

variable [WebCrates]

/-- An address of the web and nothing beyond its host and port. -/
structure Url.IsOrigin (u : Url) : Prop where
  http : u.IsHttp
  host : u.hostStr ≠ none
  username : u.username = []
  password : u.password = none
  path : u.path = "/".toList
  query : u.query = none
  fragment : u.fragment = none

/-- The one `Host` header is an authority without userinfo, of the same host and port. -/
def HostIs (headers : Headers) (u : Url) : Prop :=
  ∃ v host target, getAll headers "host" = [v] ∧ toStr v = some host ∧ '@' ∉ host ∧
    authority host = true ∧ parse (u.scheme ++ "://".toList ++ host) = some target ∧
    target.hostStr = u.hostStr ∧ target.effectivePort = u.effectivePort

/-- The page a request comes from, if any, is one the interface served. -/
structure SameSource (headers : Headers) : Prop where
  site : getAll headers "sec-fetch-site" = [] ∨ ∃ v, getAll headers "sec-fetch-site" = [v] ∧
    (toStr v = some "same-origin".toList ∨ toStr v = some "none".toList)
  origin : getAll headers "origin" = [] ∨ ∃ v o u, getAll headers "origin" = [v] ∧
    toStr v = some o ∧ parse o = some u ∧ u.IsOrigin ∧ HostIs headers u

omit [WebCrates] in
theorem getAll_perm {headers headers' : Headers} (h : headers.Perm headers') (name : String) :
    (getAll headers name).Perm (getAll headers' name) :=
  (h.filter _).map _

/-- Only how often a header stands there and with which values matters, not the order. -/
theorem SameSource.perm {headers headers' : Headers} (h : headers.Perm headers')
    (hs : SameSource headers) : SameSource headers' := by
  have hnil : ∀ {name}, getAll headers name = [] → getAll headers' name = [] := by
    intro name hn
    exact List.nil_perm.1 (hn ▸ getAll_perm h name)
  have hone : ∀ {name v}, getAll headers name = [v] → getAll headers' name = [v] := by
    intro name v hv
    exact (List.singleton_perm.1 (hv ▸ getAll_perm h name)).symm
  refine ⟨?_, ?_⟩
  · rcases hs.site with hsite | ⟨v, hv, hval⟩
    · exact .inl (hnil hsite)
    · exact .inr ⟨v, hone hv, hval⟩
  · rcases hs.origin with hnone | ⟨v, o, u, hv, ho, hu, hplain, w, host, target, hw, hrest⟩
    · exact .inl (hnil hnone)
    · exact .inr ⟨v, o, u, hone hv, ho, hu, hplain, w, host, target, hone hw, hrest⟩

theorem WebCrates.Documented.isHttp (h : WebCrates.Documented) {u target : Url} {rest : Text}
    (hu : u.IsHttp) (hparse : parse (u.scheme ++ "://".toList ++ rest) = some target) :
    target.IsHttp := by
  rw [Url.IsHttp, h.scheme hu hparse]
  exact hu

theorem trustedHost_iff (h : WebCrates.Documented) {u : Url} (hu : u.IsHttp)
    (headers : Headers) : trustedHost headers u = true ↔ HostIs headers u := by
  constructor
  · intro ht
    unfold trustedHost at ht
    split at ht
    next => cases ht
    next v vs hall =>
      split at ht
      next => cases ht
      next host hstr =>
        split_ifs at ht with hbad
        simp only [not_or, not_not] at hbad
        obtain ⟨rfl, hat, hauth⟩ := hbad
        split at ht
        next target hparse =>
          have hsame := (h.origin hu (h.isHttp hu hparse)).1 ht
          exact ⟨v, host, target, hall, hstr, hat, hauth, hparse, hsame.2⟩
        next => cases ht
  · rintro ⟨v, host, target, hall, hstr, hat, hauth, hparse, hsame⟩
    have hgood : ¬ (([] : List Bytes) ≠ [] ∨ '@' ∈ host ∨ ¬ authority host = true) := by
      simp [hat, hauth]
    rw [trustedHost, hall]
    simp only [hstr, if_neg hgood, hparse]
    exact (h.origin hu (h.isHttp hu hparse)).2 ⟨h.scheme hu hparse, hsame⟩

theorem trustedOrigin_iff (h : WebCrates.Documented) (headers : Headers) :
    trustedOrigin headers = true ↔ getAll headers "origin" = [] ∨
      ∃ v o u, getAll headers "origin" = [v] ∧ toStr v = some o ∧ parse o = some u ∧
        u.IsOrigin ∧ HostIs headers u := by
  constructor
  · intro ht
    unfold trustedOrigin at ht
    split at ht
    next hall => exact .inl hall
    next v vs hall =>
      split_ifs at ht with hmany
      rw [not_not] at hmany
      subst hmany
      split at ht
      next => cases ht
      next u hu =>
        obtain ⟨o, ho, hparse⟩ := Option.bind_eq_some_iff.1 hu
        split_ifs at ht with hbad
        simp only [not_or, not_not] at hbad
        obtain ⟨hhttp, hhost, huser, hpass, hpath, hquery, hfragment⟩ := hbad
        exact .inr ⟨v, o, u, hall, ho, hparse,
          ⟨hhttp, hhost, huser, hpass, hpath, hquery, hfragment⟩,
          (trustedHost_iff h hhttp headers).1 ht⟩
  · rintro (hall | ⟨v, o, u, hall, ho, hparse, hu, hhost⟩)
    · rw [trustedOrigin, hall]
    · have hgood : ¬ (¬ u.IsHttp ∨ u.hostStr = none ∨ u.username ≠ [] ∨ u.password ≠ none ∨
          u.path ≠ "/".toList ∨ u.query ≠ none ∨ u.fragment ≠ none) := by
        simp only [not_or, not_not]
        exact ⟨hu.http, hu.host, hu.username, hu.password, hu.path, hu.query, hu.fragment⟩
      rw [trustedOrigin, hall]
      simp only [ne_eq, not_true, if_false, ho, Option.bind_some, hparse]
      rw [if_neg hgood]
      exact (trustedHost_iff h hu.http headers).2 hhost

/-- The check accepts the requests of the interface's own page, and no others. -/
theorem trustedBrowserSource_iff (h : WebCrates.Documented) (headers : Headers) :
    trustedBrowserSource headers = true ↔ SameSource headers := by
  constructor
  · intro ht
    unfold trustedBrowserSource at ht
    split at ht
    next hall => exact ⟨.inl hall, (trustedOrigin_iff h headers).1 ht⟩
    next v vs hall =>
      split_ifs at ht with hbad
      rw [not_or, not_not, not_not] at hbad
      obtain ⟨rfl, hval⟩ := hbad
      exact ⟨.inr ⟨v, hall, hval⟩, (trustedOrigin_iff h headers).1 ht⟩
  · intro hs
    have horigin := (trustedOrigin_iff h headers).2 hs.origin
    rcases hs.site with hall | ⟨v, hall, hval⟩
    · rw [trustedBrowserSource, hall]
      exact horigin
    · rw [trustedBrowserSource, hall]
      simp only [ne_eq, not_true, hval, or_self, if_false]
      exact horigin

end Source

/-! ### Emptying caches -/

/-- The hash map of caches, in the order it is walked in. -/
structure CacheMap (reg : Registry) where
  tags : List Tag
  nodup : tags.Nodup
  mem_tags : ∀ tag, tag ∈ tags ↔ (reg.caches tag).isSome

/-- What a handler does: one shard of a cache is emptied. -/
abbrev Flushing := Prog Empty (Tag × Fin 16) fun _ => Unit

/-- Shards are emptied one after another. -/
def flushShards (shards : List (Tag × Fin 16)) : Flushing Unit :=
  match shards with
  | [] => done ()
  | shard :: shards => act shard fun _ => flushShards shards

/-- `Cache::flush` -/
def flushCache (tag : Tag) : Flushing Unit :=
  flushShards ((List.finRange 16).map fun i => (tag, i))

def flushCaches : List Tag → Flushing Unit
  | [] => done ()
  | tag :: tags => (flushCache tag).bind fun _ => flushCaches tags

section Flush

variable [WebCrates] {reg : Registry}

/-- The body of a request, none being a request for all caches. -/
def flushTag (request : Request) : Except Response (Option Tag) :=
  if request.body = [] then .ok none
  else
    let contentType := (((getAll request.headers "content-type").head?.bind toStr).bind
      fun value => (value.splitOn ';').head?).map trim
    if contentType ≠ some "application/json".toList then
      .error (.plain 415 "expected application/json")
    else
      match flushReq request.body with
      | none => .error (.plain 400 "invalid cache flush request")
      | some tag => .ok tag

def flushedReply (tags : List Tag) : Response :=
  ⟨200, [("content-type".toList, octets "application/json")],
    .flushed (tags.mergeSort fun a b => decide (a ≤ b))⟩

def flush (caches : CacheMap reg) (request : Request) : Flushing Response :=
  match flushTag request with
  | .error refusal => done refusal
  | .ok (some tag) =>
    if tag ∈ caches.tags then (flushCache tag).bind fun _ => done (flushedReply [tag])
    else done (.plain 404 "unknown cache tag")
  | .ok none => (flushCaches caches.tags).bind fun _ => done (flushedReply caches.tags)

/-- The world after some shards were emptied. -/
def after (w : World) : List (Event (Tag × Fin 16) fun _ => Unit) → World
  | [] => w
  | ev :: tr => after (w.setCache ev.1.1 ((w.caches ev.1.1).flush ev.1.2)) tr

omit [WebCrates] in
theorem ends_flushShards {shards : List (Tag × Fin 16)} {tr a}
    (h : Ends (flushShards shards) tr a) : tr.map Sigma.fst = shards := by
  induction shards generalizing tr with
  | nil => rw [(ends_done h).1, List.map_nil]
  | cons shard shards ih =>
    obtain ⟨_, tr', rfl, h'⟩ := ends_act h
    rw [List.map_cons, ih h']

omit [WebCrates] in
theorem ends_flushCaches {tags : List Tag} {tr a} (h : Ends (flushCaches tags) tr a) :
    ∀ tag i, (tag, i) ∈ tr.map Sigma.fst ↔ tag ∈ tags := by
  induction tags generalizing tr with
  | nil =>
    intro tag i
    simp [(ends_done h).1]
  | cons t tags ih =>
    obtain ⟨tr₁, tr₂, _, rfl, h₁, h₂⟩ := ends_bind h
    intro tag i
    rw [List.map_append, List.mem_append, ih h₂, ends_flushShards h₁, List.mem_cons]
    simp [eq_comm]

omit [WebCrates] in
/-- Emptying shards empties those and nothing else. -/
theorem after_shards (w : World) (tr : List (Event (Tag × Fin 16) fun _ => Unit)) (tag : Tag)
    (i : Fin 16) : ((after w tr).caches tag).shards i =
      if (tag, i) ∈ tr.map Sigma.fst then ((w.caches tag).shards i).flush
      else (w.caches tag).shards i := by
  induction tr generalizing w with
  | nil => rfl
  | cons ev tr ih =>
    obtain ⟨⟨t, j⟩, u⟩ := ev
    have hmem : (tag, i) ∈ List.map Sigma.fst ((⟨(t, j), u⟩ : Event _ _) :: tr) ↔
        (tag, i) = (t, j) ∨ (tag, i) ∈ tr.map Sigma.fst := by
      rw [List.map_cons, List.mem_cons]
    rw [after, ih]
    by_cases ht : (tag, i) = (t, j)
    · obtain ⟨rfl, rfl⟩ := Prod.mk.inj ht
      have hflush : ((w.caches tag).shards i).flush.flush = ((w.caches tag).shards i).flush := rfl
      rw [if_pos (hmem.2 (.inl rfl))]
      simp [World.setCache, CacheState.flush, hflush]
    · have hkept : ((w.setCache t ((w.caches t).flush j)).caches tag).shards i =
          (w.caches tag).shards i := by
        by_cases htag : tag = t
        · subst htag
          have hi : i ≠ j := fun hi => ht (by rw [hi])
          simp [World.setCache, CacheState.flush, hi]
        · simp [World.setCache, htag]
      rw [hkept]
      exact if_congr ⟨fun h => hmem.2 (.inr h), fun h => (hmem.1 h).resolve_left ht⟩ rfl rfl

/-- A reply of success names the caches all of whose shards were emptied; otherwise none was. -/
theorem ends_flush {caches : CacheMap reg} {request : Request} {tr r}
    (h : Ends (flush caches request) tr r) :
    (∃ tags, r = flushedReply tags ∧ ∀ tag i, (tag, i) ∈ tr.map Sigma.fst ↔ tag ∈ tags) ∨
      r.status ≠ 200 ∧ tr = [] := by
  unfold flush at h
  split at h
  next refusal hbody =>
    obtain ⟨rfl, rfl⟩ := ends_done h
    refine .inr ⟨?_, rfl⟩
    unfold flushTag at hbody
    split at hbody
    · cases hbody
    · dsimp only at hbody
      split at hbody
      · cases hbody
        decide
      · split at hbody <;> cases hbody
        decide
  next tag _ =>
    split_ifs at h
    · obtain ⟨tr₁, tr₂, _, rfl, h₁, h₂⟩ := ends_bind h
      obtain ⟨rfl, rfl⟩ := ends_done h₂
      refine .inl ⟨[tag], rfl, fun t i => ?_⟩
      rw [List.append_nil, ends_flushShards h₁]
      simp [eq_comm]
    · obtain ⟨rfl, rfl⟩ := ends_done h
      exact .inr ⟨by decide, rfl⟩
  next =>
    obtain ⟨tr₁, tr₂, _, rfl, h₁, h₂⟩ := ends_bind h
    obtain ⟨rfl, rfl⟩ := ends_done h₂
    refine .inl ⟨caches.tags, rfl, fun tag i => ?_⟩
    rw [List.append_nil, ends_flushCaches h₁]

/-- A reply of success names the caches that are empty by then; any other reply leaves all
caches as they were. -/
theorem flush_effect {caches : CacheMap reg} {request : Request} {tr r}
    (h : Ends (flush caches request) tr r) :
    (∃ tags, r = flushedReply tags ∧ ∀ w tag i, ((after w tr).caches tag).shards i =
      if tag ∈ tags then ((w.caches tag).shards i).flush else (w.caches tag).shards i) ∨
    r.status ≠ 200 ∧ ∀ w, after w tr = w := by
  rcases ends_flush h with ⟨tags, hr, hmem⟩ | ⟨hr, rfl⟩
  · refine .inl ⟨tags, hr, fun w tag i => ?_⟩
    rw [after_shards]
    simp only [hmem]
  · exact .inr ⟨hr, fun _ => rfl⟩

end Flush

/-! ### Refusing writes -/

section Writes

variable [WebCrates]

/-- The request is handled, whatever its handler is. -/
def Runs (request : Request) : Prop :=
  ∀ (S E : Type) (R : E → Type) (next : Request → Prog S E R Response),
    responseHeaders next request = (next request).bind fun r => done (harden r)

/-- The request is answered at once and nothing is done, whatever its handler is. -/
def Refused (request : Request) : Prop :=
  ∀ (S E : Type) (R : E → Type) (next : Request → Prog S E R Response),
    responseHeaders next request = done (harden forbidden)

theorem not_refused_of_runs {request : Request} (h : Runs request) : ¬ Refused request := by
  intro hr
  have hnext := h Empty Empty Empty.elim fun _ => done (.plain 200 "ok")
  rw [hr] at hnext
  have hstatus := congrArg Response.status (Prog.done.inj hnext)
  revert hstatus
  decide

/-- A request that may write reaches its handler exactly when it comes from the interface's
own page or from no page; otherwise it is refused and every cache stays as it is. -/
theorem runs_iff_sameSource (h : WebCrates.Documented) {request : Request}
    (hpath : "/api/".toList <+: request.path) (hmethod : ¬ request.isSafe) :
    (Runs request ↔ SameSource request.headers) ∧
      (¬ SameSource request.headers → Refused request ∧
        ∀ {reg : Registry} (caches : CacheMap reg) w tr r,
          Ends (responseHeaders (flush caches) request) tr r → after w tr = w) := by
  have hruns : SameSource request.headers → Runs request := by
    intro hs S E R next
    have htrusted := (trustedBrowserSource_iff h _).2 hs
    rw [responseHeaders, if_neg fun hbad => hbad.2.2 htrusted]
  have hrefused : ¬ SameSource request.headers → Refused request := by
    intro hs S E R next
    have htrusted := mt (trustedBrowserSource_iff h _).1 hs
    rw [responseHeaders, if_pos ⟨hpath, hmethod, htrusted⟩]
    rfl
  refine ⟨⟨fun hr => ?_, hruns⟩, fun hs => ⟨hrefused hs, fun caches w tr r he => ?_⟩⟩
  · by_contra hs
    exact not_refused_of_runs hr (hrefused hs)
  · rw [hrefused hs] at he
    rw [(ends_done he).1]
    rfl

end Writes

/-! ### A page and its request -/

namespace Sample

def console : Url :=
  ⟨"https".toList, [], none, some "console.test".toList, none, "/".toList, none, none⟩

/-- One address is known, with its port or without. -/
abbrev crates : WebCrates where
  parse t :=
    if t = "https://console.test".toList ∨ t = "https://console.test:443".toList then some console
    else none
  sameOrigin b a :=
    decide (b.scheme = a.scheme ∧ b.hostStr = a.hostStr ∧ b.effectivePort = a.effectivePort)
  authority t := decide (t = "console.test:443".toList)
  flushReq _ := some none

theorem crates_documented : @WebCrates.Documented crates := by
  refine @WebCrates.Documented.mk crates ?_ fun _ _ => decide_eq_true_iff
  intro s rest u hs hu
  change (if _ then some console else none) = some u at hu
  split_ifs at hu with hcut
  cases hu
  rcases hs with rfl | rfl
  · simp at hcut
  · rfl

/-- A page of the console behind a proxy asks for the caches to be emptied. -/
def pageRequest : Request :=
  ⟨"POST".toList, "/api/cache/flush".toList,
    [("host".toList, octets "console.test:443"),
      ("sec-fetch-site".toList, octets "same-origin"),
      ("origin".toList, octets "https://console.test")], []⟩

theorem pageRequest_sameSource : @SameSource crates pageRequest.headers :=
  (@trustedBrowserSource_iff crates crates_documented _).1 (by decide +kernel)

theorem runs_iff_sameSource_page : @Runs crates pageRequest :=
  (@runs_iff_sameSource crates crates_documented pageRequest (by decide) (by decide)).1.2
    pageRequest_sameSource

end Sample

end Api

end FerrumDns
