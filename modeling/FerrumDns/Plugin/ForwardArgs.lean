import FerrumDns.Fallible
import FerrumDns.Runtime.Checked
import FerrumDns.Upstream.Dialing

/-! Reading the arguments of a forwarder. They name one upstream or several, each by its
address alone or with settings of its own; every one of them is set up before the forwarder
is made, so a forwarder that was made has exactly those that its arguments name. -/

namespace FerrumDns

open Text Fallible

/-- The settings of an upstream. -/
structure UpstreamArgs extends UpstreamSpec where
  idleTimeout : ℕ
  insecure : Bool
  tag : Option Tag

/-- What is set up by other crates: a client for HTTPS and a connector for TLS. -/
structure ClientCrates where
  httpClient : UpstreamArgs → Except String Unit
  tlsConnector : Bool → Except Error Unit

namespace UpstreamArgs

/-- `UpstreamSpec::from_value` -/
def fromValue (v : Value) : Except Error UpstreamArgs :=
  match v.asStr with
  | some s =>
    .ok { addr := s, dialAddr := none, bootstrap := none, idleTimeout := 10, insecure := false,
          tag := none }
  | none =>
    match (v.get "addr").bind Value.asStr with
    | none => .error (.config "upstream missing addr")
    | some addr =>
      .ok
        { addr := addr
          dialAddr := (v.get "dial_addr").bind Value.asStr
          bootstrap := (v.get "bootstrap").bind Value.asStr
          idleTimeout := (((v.get "idle_timeout").bind Value.asU64).getD 10).toNat
          insecure := (((v.get "insecure_skip_verify").or (v.get "insecure")).bind
            Value.asBool).getD false
          tag := ((v.get "tag").bind Value.asStr).map String.ofList }

/-- The client or connector that the transport needs. -/
def connector (c : ClientCrates) (args : UpstreamArgs) : Kind → Except Error Unit
  | .Doh _ => (c.httpClient args).mapError fun e => .upstream (String.ofList args.addr) e
  | .Tls _ _ => c.tlsConnector args.insecure
  | _ => .ok ()

/-- `Upstream::connect` -/
def connect (c : ClientCrates) (args : UpstreamArgs) : Except Error Dialer := do
  let d ← Dialer.connect args.toUpstreamSpec args.tag
  connector c args d.kind
  .ok d

end UpstreamArgs

namespace Forward

/-- One item of the list of upstreams. -/
def upstream (c : ClientCrates) (item : Value) : Except Error Upstream := do
  let args ← UpstreamArgs.fromValue item
  let d ← args.connect c
  .ok d.client.toUpstream

/-- The items that are named, a single one without a list. -/
def items : Value → List Value
  | .sequence items => items
  | other => [other]

theorem ne_nil_of_mapM {α β : Type} {f : α → Except Error β} {l : List α} {r : List β}
    (h : l.mapM f = .ok r) (hl : l ≠ []) : r ≠ [] := by
  have hlen := (mapM_eq_ok.1 h).length_eq
  rintro rfl
  exact hl (List.length_eq_zero_iff.1 hlen)

def fromArgs (c : ClientCrates) (tag : Tag) (args : Value) : Except Error Forward :=
  match (args.get "upstreams").or (args.get "upstream") with
  | none => .error (.config ("forward `" ++ tag ++ "` has no upstreams"))
  | some list =>
    if hitems : items list = [] then
      .error (.config ("forward `" ++ tag ++ "` has empty upstreams"))
    else
      match h : (items list).mapM (upstream c) with
      | .error e => .error e
      | .ok upstreams =>
        .ok ⟨tag, upstreams, max (((args.get "concurrent").bind Value.asU64).getD 1).toNat 1,
          ne_nil_of_mapM h hitems⟩

/-- A forwarder was read from the items of its list, one upstream from each. -/
theorem fromArgs_eq_ok {c : ClientCrates} {tag : Tag} {args : Value} {f : Forward}
    (h : fromArgs c tag args = .ok f) :
    ∃ list, (args.get "upstreams").or (args.get "upstream") = some list ∧
      (items list).mapM (upstream c) = .ok f.upstreams := by
  unfold fromArgs at h
  split at h
  · cases h
  next list hlist =>
    refine ⟨list, hlist, ?_⟩
    split_ifs at h
    split at h
    · cases h
    next hmap =>
      cases h
      exact hmap

/-- An upstream is known by the address and the tag in its settings. -/
theorem upstream_eq_ok {c : ClientCrates} {item : Value} {u : Upstream}
    (h : upstream c item = .ok u) : ∃ args, UpstreamArgs.fromValue item = .ok args ∧
      u = ⟨String.ofList args.addr, args.tag⟩ := by
  obtain ⟨args, hargs, hconnect⟩ := bind_eq_ok.1 h
  obtain ⟨d, hd, hu⟩ := bind_eq_ok.1 hconnect
  obtain ⟨d', hd', hconnector⟩ := bind_eq_ok.1 hd
  obtain ⟨_, -, hsame⟩ := bind_eq_ok.1 hconnector
  cases hsame
  cases hu
  refine ⟨args, hargs, ?_⟩
  obtain ⟨kind, -, hkind⟩ := bind_eq_ok.1 hd'
  cases kind with
  | Doh url =>
    obtain ⟨resolver, -, hresolver⟩ := bind_eq_ok.1 hkind
    cases hresolver
    rfl
  | _ =>
    cases hkind
    rfl

/-- A list under a tag is no list to the forwarder, and no upstream either. -/
theorem fromValue_tagged {v : Value} {list : List Value} (h : v.asSequence = some list) :
    UpstreamArgs.fromValue v = .error (.config "upstream missing addr") := by
  have huntag : v.untag = .sequence list := by
    unfold Value.asSequence at h
    split at h
    next items hv =>
      cases h
      exact hv
    next => cases h
  simp [UpstreamArgs.fromValue, Value.asStr, Value.get, huntag]

/-- Whoever looks below the tag sees the items that the upstreams were read from. -/
theorem items_eq {c : ClientCrates} {list : Value} {ups : List Upstream}
    (h : (items list).mapM (upstream c) = .ok ups) :
    list.asSequence.getD [list] = items list := by
  cases list with
  | sequence xs => rfl
  | tagged t v =>
    cases hs : (Value.tagged t v).asSequence with
    | none => rfl
    | some xs =>
      obtain ⟨u, -, hu⟩ := mem_mapM_of_mem h (List.mem_singleton_self _)
      obtain ⟨args, hargs, -⟩ := upstream_eq_ok hu
      rw [fromValue_tagged hs] at hargs
      cases hargs
  | _ => rfl

end Forward

end FerrumDns
