import FerrumDns.Fallible
import FerrumDns.Runtime.Build
import FerrumDns.Runtime.Nesting
import FerrumDns.Runtime.Visit

/-! What a built runtime is made of. A registered plugin looks up only what its
configuration was checked for, and every checked tag is registered, so the bound
on the call graph is a bound on the calls of every run. -/

namespace FerrumDns

open FerrumDns.Graph Fallible Text

/-! ### Reading a sequence twice -/

theorem parseExec_plugin {s target : Text} (h : trim s = '$' :: target) :
    parseExec s = .ok (.Plugin (String.ofList target)) := by
  rw [parseExec, h]
  rfl

theorem parseExec_builtin {s : Text} (h : ∀ target, trim s ≠ '$' :: target) :
    parseExec s = (Builtin.parse (trim s)).map .Builtin := by
  rw [parseExec]
  split
  next target ht => exact absurd ht (h target)
  next => rfl

theorem calls_plugin {r : RawStep} {target : Text} (h : trim r.exec = '$' :: target) :
    r.calls = .ok [String.ofList target] := by
  rw [RawStep.calls, h]
  rfl

theorem calls_builtin {r : RawStep} {b : Builtin} (h : ∀ target, trim r.exec ≠ '$' :: target)
    (hb : Builtin.parse (trim r.exec) = .ok b) : r.calls = .ok (Exec.Builtin b).refs := by
  rw [RawStep.calls]
  split
  next target ht => exact absurd ht (h target)
  next =>
    rw [hb]
    cases b <;> rfl

/-- The check and the compiler read a step alike. -/
theorem parseExec_calls {r : RawStep} {x : Exec} (h : parseExec r.exec = .ok x) :
    r.calls = .ok x.refs := by
  by_cases hp : ∃ target, trim r.exec = '$' :: target
  · obtain ⟨target, ht⟩ := hp
    rw [parseExec_plugin ht] at h
    cases h
    exact calls_plugin ht
  · have hne : ∀ target, trim r.exec ≠ '$' :: target := fun target ht => hp ⟨target, ht⟩
    rw [parseExec_builtin hne] at h
    obtain ⟨b, hb, rfl⟩ := map_eq_ok.1 h
    exact calls_builtin hne hb

theorem compileStep_calls {sets : Sets} {r : RawStep} {step : Step}
    (h : compileStep sets r = .ok step) : r.calls = .ok step.exec.refs := by
  simp only [compileStep] at h
  split at h
  · cases h
  next =>
    obtain ⟨exec, hexec, rfl⟩ := map_eq_ok.1 h
    exact parseExec_calls hexec

theorem compileSteps_calls {sets : Sets} {tag : Tag} {raw : List RawStep} {seq : Sequence}
    (h : compileSteps sets tag raw = .ok seq) :
    (raw.mapM RawStep.calls).map List.flatten = .ok (Executable.sequence seq).refs := by
  obtain ⟨steps, hsteps, rfl⟩ := map_eq_ok.1 h
  have hcalls : raw.mapM RawStep.calls = .ok (steps.map fun step => step.exec.refs) := by
    rw [mapM_eq_ok, List.forall₂_map_right_iff]
    exact (mapM_eq_ok.1 hsteps).imp fun _ _ => compileStep_calls
  rw [hcalls]
  rfl

/-! ### Loading -/

/-- What was loaded agrees with the settings that were checked. -/
def Loaded.From (p : PluginConfig) : Loaded → Prop
  | domainSet _ | ipSet _ => p.isSet = true
  | cache _ | leaf _ => p.isSet = false
  | sequence args => p.ty = "sequence" ∧ args = p.args
  | fallback f => p.ty = "fallback" ∧ Fallback.fromArgs p.name p.args = .ok f

theorem Loader.make_from {l : Loader} {p : PluginConfig} {loaded : Loaded}
    (h : l.make p = .ok loaded) : loaded.From p := by
  have kind {t : String} (ht : p.ty = t) : p.isSet = (t = "domain_set" || t = "ip_set") := by
    rw [PluginConfig.isSet, ht]
  simp only [make] at h
  split at h
  next ht => obtain ⟨_, -, rfl⟩ := map_eq_ok.1 h; exact kind ht
  next ht => obtain ⟨_, -, rfl⟩ := map_eq_ok.1 h; exact kind ht
  next ht => cases h; exact kind ht
  next ht => obtain ⟨_, -, rfl⟩ := map_eq_ok.1 h; exact kind ht
  next ht => obtain ⟨_, -, rfl⟩ := map_eq_ok.1 h; exact kind ht
  next ht => obtain ⟨_, -, rfl⟩ := map_eq_ok.1 h; exact kind ht
  next ht => cases h; exact kind ht
  next ht => cases h; exact kind ht
  next ht => cases h; exact kind ht
  next ht => obtain ⟨_, -, rfl⟩ := map_eq_ok.1 h; exact kind ht
  next ht => obtain ⟨_, -, rfl⟩ := map_eq_ok.1 h; exact kind ht
  next ht => cases h; exact kind ht
  next ht => cases h; exact kind ht
  next ht => cases h; exact ⟨ht, rfl⟩
  next ht => obtain ⟨_, hf, rfl⟩ := map_eq_ok.1 h; exact ⟨ht, hf⟩
  next => cases h

/-! ### Building -/

namespace Runtime

/-- The executables of a runtime. -/
def entries (entry : Option Tag) (loaded : List (Tag × Loaded)) (sequences : List Registered) :
    List Registered :=
  loaded.filterMap (Loaded.ready entry) ++ sequences ++ loaded.filterMap Loaded.backed

variable {order : MapOrder} {l : Loader} {config : Config} {rt : Runtime}

theorem build_eq_ok (h : build order l config = .ok rt) :
    ∃ (normal : Config) (loaded : List (Tag × Loaded)) (sequences : List Registered),
      config.normalizeEntries = .ok normal ∧ validatePluginGraph order normal.plugins = .ok () ∧
      normal.plugins.mapM l.load = .ok loaded ∧
      (loaded.filterMap Loaded.pending).mapM (compile (Loaded.sets l.recordType loaded)) =
        .ok sequences ∧
      rt.defaultEntry = pickDefaultEntry normal.servers (loaded.filterMap Loaded.pending) ∧
      normal.servers.mapM (fillEntry rt.defaultEntry) = .ok rt.config.servers ∧
      rt.registry = Registry.ofList (entries rt.defaultEntry loaded sequences) ∧
      (∀ server ∈ rt.config.servers, ∃ p, rt.registry.getExec server.exec = .ok p) ∧
      rt.config = { normal with servers := rt.config.servers } := by
  simp only [build, bind_eq_ok] at h
  obtain ⟨normal, hnormal, _, hgraph, _, -, loaded, hloaded, servers, hservers, sequences,
    hsequences, _, hentries, hrt⟩ := h
  cases hrt
  refine ⟨normal, loaded, sequences, hnormal, hgraph, hloaded, hsequences, rfl, hservers, rfl,
    fun server hs => ?_, rfl⟩
  obtain ⟨p, hp, -⟩ := map_eq_ok.1 (forM_eq_ok.1 hentries server hs)
  exact ⟨p, hp⟩

theorem normalizeEntries_plugins {normal : Config} (h : config.normalizeEntries = .ok normal) :
    normal.plugins = config.plugins := by
  obtain ⟨_, -, rfl⟩ := map_eq_ok.1 h
  rfl

/-! ### What is registered -/

section Registered

variable {plugins : List PluginConfig} {loaded : List (Tag × Loaded)} {sequences : List Registered}
  {entry : Option Tag}

theorem mem_loaded (hl : plugins.mapM l.load = .ok loaded) {e : Tag × Loaded} (he : e ∈ loaded) :
    ∃ p ∈ plugins, p.name = e.1 ∧ e.2.From p := by
  obtain ⟨p, hp, hload⟩ := mem_of_mapM hl he
  obtain ⟨x, hmake, rfl⟩ := map_eq_ok.1 hload
  exact ⟨p, hp, rfl, Loader.make_from hmake⟩

/-- A registered plugin looks up only what was checked. -/
theorem entries_refer (hl : plugins.mapM l.load = .ok loaded)
    (hs : (loaded.filterMap Loaded.pending).mapM (compile (Loaded.sets l.recordType loaded)) =
      .ok sequences) {r : Registered} (hr : r ∈ entries entry loaded sequences) {b : Tag}
    (hb : b ∈ r.val.2.refs) : Refers plugins r.val.1 b := by
  rcases List.mem_append.1 hr with hr | hr
  · rcases List.mem_append.1 hr with hr | hr
    · obtain ⟨⟨tag, x⟩, -, hx⟩ := List.mem_filterMap.1 hr
      cases x with
      | cache args => cases hx; simp [Executable.refs] at hb
      | leaf p => cases hx; cases p <;> simp [Leaf.executable, Executable.refs] at hb
      | _ => cases hx
    · obtain ⟨⟨tag, args⟩, hpend, hcompile⟩ := mem_of_mapM hs hr
      obtain ⟨⟨tag', x⟩, hx, hpending⟩ := List.mem_filterMap.1 hpend
      simp only [compile, bind_eq_ok] at hcompile
      obtain ⟨raw, hraw, seq, hseq, hr'⟩ := hcompile
      cases hr'
      cases x with
      | sequence args' =>
        cases hpending
        obtain ⟨p, hp, hname, hty, rfl⟩ := mem_loaded hl hx
        have hset : p.isSet = false := by rw [PluginConfig.isSet, hty]; rfl
        refine ⟨p, hp, hname, hset, _, ?_, hb⟩
        rw [PluginConfig.calls, hty]
        simp only [hraw]
        exact compileSteps_calls hseq
      | _ => cases hpending
  · obtain ⟨⟨tag, x⟩, hx, hbacked⟩ := List.mem_filterMap.1 hr
    cases x with
    | fallback f =>
      cases hbacked
      obtain ⟨p, hp, hname, hty, hf⟩ := mem_loaded hl hx
      have hset : p.isSet = false := by rw [PluginConfig.isSet, hty]; rfl
      refine ⟨p, hp, hname, hset, _, ?_, hb⟩
      rw [PluginConfig.calls, hty]
      simp only [hf]
      rfl
    | _ => cases hbacked

theorem getExec_ofList {entries : List Registered} {tag : Tag} :
    (∃ p, (Registry.ofList entries).getExec tag = .ok p) ↔ ∃ r ∈ entries, r.val.1 = tag := by
  simp only [Registry.getExec_eq_ok]
  rw [← Option.isSome_iff_exists, Registry.ofList, List.lookup_isSome_iff]
  constructor
  · rintro ⟨e, he, htag⟩
    obtain ⟨r, hr, rfl⟩ := List.mem_map.1 he
    exact ⟨r, hr, (beq_iff_eq.1 htag).symm⟩
  · rintro ⟨r, hr, htag⟩
    exact ⟨r.val, List.mem_map_of_mem hr, beq_iff_eq.2 htag.symm⟩

theorem mem_of_getExec {entries : List Registered} {tag : Tag} {p : Executable}
    (h : (Registry.ofList entries).getExec tag = .ok p) : ∃ r ∈ entries, r.val = (tag, p) :=
  List.mem_map.1 (mem_of_lookup (Registry.getExec_eq_ok.1 h))

/-- Every checked tag is registered. -/
theorem entries_declared (hl : plugins.mapM l.load = .ok loaded)
    (hs : (loaded.filterMap Loaded.pending).mapM (compile (Loaded.sets l.recordType loaded)) =
      .ok sequences) {tag : Tag} (h : Declared plugins tag) :
    ∃ r ∈ entries entry loaded sequences, r.val.1 = tag := by
  obtain ⟨p, hp, rfl, hset⟩ := h
  obtain ⟨⟨tag, x⟩, hx, hload⟩ := mem_mapM_of_mem hl hp
  obtain ⟨y, hmake, hxy⟩ := map_eq_ok.1 hload
  cases hxy
  have hfrom := Loader.make_from hmake
  simp only [entries, List.mem_append]
  cases x with
  | domainSet set => simp [Loaded.From, hset] at hfrom
  | ipSet set => simp [Loaded.From, hset] at hfrom
  | cache args => exact ⟨_, .inl (.inl (List.mem_filterMap.2 ⟨_, hx, rfl⟩)), rfl⟩
  | leaf q => exact ⟨_, .inl (.inl (List.mem_filterMap.2 ⟨_, hx, rfl⟩)), rfl⟩
  | fallback f => exact ⟨_, .inr (List.mem_filterMap.2 ⟨_, hx, rfl⟩), rfl⟩
  | sequence args =>
    obtain ⟨r, hr, hcompile⟩ := mem_mapM_of_mem hs (List.mem_filterMap.2 ⟨_, hx, rfl⟩)
    simp only [compile, bind_eq_ok] at hcompile
    obtain ⟨raw, -, seq, -, hr'⟩ := hcompile
    cases hr'
    exact ⟨_, .inl (.inr hr), rfl⟩

end Registered

/-! ### The calls of a run -/

section Linked

variable {plugins : List PluginConfig} {reg : Registry}
  (hrefer : ∀ tag p, reg.getExec tag = .ok p → ∀ b ∈ p.refs, Refers plugins tag b)
  (hdeclared : ∀ tag, Declared plugins tag → ∃ p, reg.getExec tag = .ok p)

include hrefer hdeclared

/-- The bound on chains of references is a bound on nested calls. -/
theorem fits_of_within (hl : WellLinked plugins) {n : ℕ} {tag : Tag} {p : Executable}
    (hw : Within (Refers plugins) n tag) (hp : reg.getExec tag = .ok p) : Nesting.Fits reg n p := by
  induction n generalizing tag p with
  | zero => exact hw.elim
  | succ n ih =>
    intro b hb
    have hab := hrefer tag p hp b hb
    obtain ⟨q, hq⟩ := hdeclared b (hl.declared tag b hab)
    exact ⟨q, hq, ih (hw b hab) hq⟩

end Linked

/-- A built runtime comes from plugins that are linked as checked. -/
theorem build_linked (h : build order l config = .ok rt) : WellLinked config.plugins ∧
    (∀ tag p, rt.registry.getExec tag = .ok p → ∀ b ∈ p.refs, Refers config.plugins tag b) ∧
    ∀ tag, Declared config.plugins tag → ∃ p, rt.registry.getExec tag = .ok p := by
  obtain ⟨normal, loaded, sequences, hnormal, hgraph, hloaded, hsequences, -, -, hreg, -, -⟩ :=
    build_eq_ok h
  rw [normalizeEntries_plugins hnormal] at hgraph hloaded
  refine ⟨((validate_eq_ok_iff order).1 hgraph).2, fun tag p hp b hb => ?_, fun tag ht => ?_⟩
  · rw [hreg] at hp
    obtain ⟨r, hr, hrp⟩ := mem_of_getExec hp
    have hrefer := entries_refer hloaded hsequences hr (b := b)
    rw [hrp] at hrefer
    exact hrefer hb
  · rw [hreg]
    exact getExec_ofList.2 (entries_declared hloaded hsequences ht)

/-- In every run no call is nested deeper than allowed, each plugin called finds the plugins it
looks up, and the result is no failed look-up and nothing left for a caller to look up. -/
structure Sound (reg : Registry) (run : Run Outcome) : Prop where
  bound : ∀ tr e k, Prog.Leads run tr (.act e k) → Nesting.Bound reg e
  settles : ∀ tr o, Prog.Ends run tr o → Nesting.Settles o.2

theorem sound_exec [Crates] (h : build order l config = .ok rt) {entry : Tag} {p : Executable}
    (hp : rt.registry.getExec entry = .ok p) (ctx : QueryContext) :
    Sound rt.registry (p.exec rt.registry maxPipelineDepth ctx) := by
  obtain ⟨hlinked, hrefer, hdeclared⟩ := build_linked h
  have hwithin : Within (Refers config.plugins) maxPipelineDepth entry :=
    within_iff.2 fun _ hl => hlinked.shallow _ hl
  have hsat := Nesting.exec_sat (fits_of_within hrefer hdeclared hlinked hwithin hp) ctx
  exact ⟨fun tr e k hl => (hsat.leads hl fun _ _ => trivial).2.1,
    fun tr o he => (hsat.ends he fun _ _ => trivial).2⟩

/-! ### Entries -/

theorem normalizeEntry_exec {s s' : ServerConfig} (h : s.normalizeEntry = .ok s') :
    trimStart (· == '$') s'.exec.toList = s'.exec.toList := by
  simp only [ServerConfig.normalizeEntry] at h
  split_ifs at h
  cases h
  simp only [String.toList_ofList, trimStart, List.dropWhile_idempotent]

theorem default_resolves (h : build order l config = .ok rt) {entry : Tag}
    (he : rt.defaultEntry = some entry) : ∃ p, rt.registry.getExec entry = .ok p := by
  obtain ⟨normal, loaded, sequences, hnormal, -, hloaded, hsequences, hdefault, hservers, hreg,
    hentries, -⟩ := build_eq_ok h
  rw [he] at hdefault
  simp only [pickDefaultEntry] at hdefault
  split at hdefault
  next named hfind =>
    -- the entry of a server is kept as it is, and was looked up
    cases hdefault
    obtain ⟨s, hs, rfl⟩ := List.mem_map.1 (List.mem_of_find?_eq_some hfind)
    obtain ⟨servers, hnames, rfl⟩ := map_eq_ok.1 hnormal
    obtain ⟨s', -, hs'⟩ := mem_of_mapM hnames hs
    have htrim := normalizeEntry_exec hs'
    obtain ⟨t, ht, hfill⟩ := mem_mapM_of_mem hservers hs
    have hne : s.exec ≠ "" := by
      intro hempty
      simpa [hempty, trimStart] using List.find?_some hfind
    simp only [fillEntry, if_neg hne] at hfill
    cases hfill
    rw [htrim, String.ofList_toList]
    exact hentries s ht
  next =>
    obtain ⟨e, hlast, rfl⟩ := Option.map_eq_some_iff.1 hdefault.symm
    obtain ⟨r, hr, hcompile⟩ := mem_mapM_of_mem hsequences (List.mem_of_getLast? hlast)
    simp only [compile, bind_eq_ok] at hcompile
    obtain ⟨raw, -, seq, -, hr'⟩ := hcompile
    cases hr'
    rw [hreg]
    exact getExec_ofList.2 ⟨_, List.mem_append_left _ (List.mem_append_right _ hr), rfl⟩

/-! ### The check and what it is for -/

/-- The check passes exactly for plugins linked as wanted, in whatever order maps are walked; and in
a runtime that was built, every entry can be executed and every run is sound. -/
theorem graph_checked [Crates] :
    (∀ (order : MapOrder) (plugins : List PluginConfig),
      (∀ p ∈ plugins, ValidTag p.name ∧ ∃ calls, p.calls = .ok calls) →
      (validatePluginGraph order plugins = .ok () ↔ WellLinked plugins)) ∧
    ∀ (order : MapOrder) (l : Loader) (config : Config) (rt : Runtime),
      build order l config = .ok rt →
      (∀ server ∈ rt.config.servers, ∃ p, rt.registry.getExec server.exec = .ok p) ∧
      (∀ entry, rt.defaultEntry = some entry → ∃ p, rt.registry.getExec entry = .ok p) ∧
      ∀ entry p ctx, rt.registry.getExec entry = .ok p →
        Sound rt.registry (p.exec rt.registry maxPipelineDepth ctx) := by
  refine ⟨fun order plugins hall => ?_, fun order l config rt h => ⟨?_, ?_, ?_⟩⟩
  · exact (validate_eq_ok_iff order).trans ⟨fun h => h.2, fun h => ⟨hall, h⟩⟩
  · obtain ⟨_, _, _, _, _, _, _, _, _, _, hentries, -⟩ := build_eq_ok h
    exact hentries
  · exact fun entry => default_resolves h
  · exact fun entry p ctx hp => sound_exec h hp ctx

/-! ### A small service -/

section Sample

/-- Maps are walked in the order of insertion. -/
def asInserted : MapOrder := ⟨id, fun _ => .refl _⟩

/-- A loader without files and addresses. -/
def offline : Loader where
  levelFilter _ := .ok ()
  socketAddr _ := .ok ()
  validateListener _ := .ok ()
  recordType _ := none
  domainSet _ _ := .error (.io "offline")
  ipSet _ _ := .error (.io "offline")
  hosts _ _ _ := .error (.io "offline")
  forward _ _ := .error (.io "offline")
  redirect _ := .error (.io "offline")
  ecs _ _ := .error (.io "offline")

def plugin (tag ty : String) (args : Value) : PluginConfig := ⟨some tag, ty, args, "."⟩

/-- A list of steps without matchers. -/
def steps (execs : List String) : Value := .sequence (execs.map fun s => .string s.toList)

/-- A sequence that jumps into another, which backs a refusal with a plain rejection. -/
def smallPlugins : List PluginConfig :=
  [plugin "cache" "cache" .null, plugin "refuse" "blackhole" .null,
    plugin "main" "sequence" (steps ["$cache", "goto rest"]),
    plugin "rest" "sequence" (steps ["$backed"]),
    plugin "reject" "sequence" (steps ["reject"]),
    plugin "backed" "fallback" (.mapping
      [(.string "primary".toList, .string "$refuse".toList),
        (.string "secondary".toList, .string "reject".toList)])]

def udpListener : ListenerConfig := ⟨"udp", "127.0.0.1:53", none, none, none, none, none⟩

def smallConfig : Config where
  log := ⟨"info", none⟩
  includes := []
  plugins := smallPlugins
  servers := [⟨"$main", 5, [udpListener]⟩, ⟨"", 5, []⟩]
  api := ⟨none⟩
  baseDir := "."

theorem graph_checked_small : WellLinked smallPlugins ∧
    ∃ rt p, build asInserted offline smallConfig = .ok rt ∧ rt.registry.getExec "main" = .ok p ∧
      Sound rt.registry (@Executable.exec (Sample.crates []) rt.registry maxPipelineDepth p
        (.new Sample.query none .Udp)) := by
  have hpass : validatePluginGraph asInserted smallPlugins = .ok () := by decide +kernel
  have hparse : ∀ p ∈ smallPlugins, ValidTag p.name ∧ p.calls = .ok (p.calls.toOption.getD []) := by
    decide +kernel
  have hnames : (build asInserted offline smallConfig).map
      (fun rt => rt.config.servers.map ServerConfig.exec) = .ok ["main", "main"] := by decide +kernel
  have checked := @graph_checked (Sample.crates [])
  refine ⟨(checked.1 asInserted smallPlugins fun p hp => ?_).1 hpass, ?_⟩
  · exact ⟨(hparse p hp).1, _, (hparse p hp).2⟩
  · obtain ⟨rt, hb, hexecs⟩ := map_eq_ok.1 hnames
    obtain ⟨hservers, -, hsound⟩ := checked.2 _ _ _ rt hb
    obtain ⟨server, hs, hmain⟩ : ∃ s ∈ rt.config.servers, s.exec = "main" :=
      List.mem_map.1 (hexecs ▸ List.mem_cons_self)
    obtain ⟨p, hp⟩ := hservers server hs
    rw [hmain] at hp
    exact ⟨rt, p, hb, hp, hsound _ _ _ hp⟩

end Sample

end Runtime

end FerrumDns
