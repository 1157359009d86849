import FerrumDns.Runtime.Checked

/-! Where the plugins of a runtime come from. Whatever is registered under a tag was made of
the plugin of that name in the configuration, and what a plugin was made into is registered
under its name. -/

namespace FerrumDns

open Text Fallible

/-- What a loaded plugin is registered as, with the sets that matchers name and the entry through
which caches refresh. -/
inductive Loaded.Becomes (sets : Sets) (entry : Option Tag) (tag : Tag) : Loaded → Executable → Prop
  | cache {args : Value} :
      Becomes sets entry tag (.cache args) (.cache { Cache.fromArgs tag args with refresh := entry })
  | leaf (q : Leaf) : Becomes sets entry tag (.leaf q) q.executable
  | sequence {args : Value} {raw : List RawStep} {seq : Sequence} (hraw : parseSteps args = .ok raw)
      (hseq : compileSteps sets tag raw = .ok seq) :
      Becomes sets entry tag (.sequence args) (.sequence seq)
  | fallback (f : Fallback) : Becomes sets entry tag (.fallback f) (.fallback f)

theorem Leaf.executable_injective : Function.Injective Leaf.executable := by
  intro a b h
  cases a <;> cases b <;> simp_all [executable]

/-- The types under which a plugin is made into such a leaf, and what it is read from. -/
def Leaf.From (l : Loader) (p : PluginConfig) : Leaf → Prop
  | blackhole b =>
    p.ty ∈ ["black_hole", "blackhole", "reject_any"] ∧ Blackhole.fromArgs p.args = b
  | redirect r => p.ty = "redirect" ∧ l.redirect p.args = .ok r
  | ecs e => p.ty = "ecs" ∧ l.ecs p.name p.args = .ok e
  | noEcs n => p.ty ∈ ["no_ecs", "_no_ecs"] ∧ n = ⟨p.name⟩
  | hosts h => p.ty = "hosts" ∧ l.hosts p.name p.args p.baseDir = .ok h
  | forward f => p.ty ∈ ["forward", "fast_forward"] ∧ l.forward p.name p.args = .ok f

theorem Loader.make_leaf {l : Loader} {p : PluginConfig} {q : Leaf} :
    l.make p = .ok (.leaf q) ↔ q.From l p := by
  constructor
  · intro h
    simp only [make] at h
    split at h
    next => obtain ⟨_, -, hx⟩ := map_eq_ok.1 h; cases hx
    next => obtain ⟨_, -, hx⟩ := map_eq_ok.1 h; cases hx
    next => cases h
    next ht => obtain ⟨_, hq, hx⟩ := map_eq_ok.1 h; cases hx; exact ⟨ht, hq⟩
    next ht => obtain ⟨_, hq, hx⟩ := map_eq_ok.1 h; cases hx; exact ⟨by simp [ht], hq⟩
    next ht => obtain ⟨_, hq, hx⟩ := map_eq_ok.1 h; cases hx; exact ⟨by simp [ht], hq⟩
    next ht => cases h; exact ⟨by simp [ht], rfl⟩
    next ht => cases h; exact ⟨by simp [ht], rfl⟩
    next ht => cases h; exact ⟨by simp [ht], rfl⟩
    next ht => obtain ⟨_, hq, hx⟩ := map_eq_ok.1 h; cases hx; exact ⟨ht, hq⟩
    next ht => obtain ⟨_, hq, hx⟩ := map_eq_ok.1 h; cases hx; exact ⟨ht, hq⟩
    next ht => cases h; exact ⟨by simp [ht], rfl⟩
    next ht => cases h; exact ⟨by simp [ht], rfl⟩
    next => cases h
    next => obtain ⟨_, -, hx⟩ := map_eq_ok.1 h; cases hx
    next => cases h
  · intro h
    cases q with
    | blackhole b =>
      obtain ⟨hty, rfl⟩ := h
      simp only [List.mem_cons, List.not_mem_nil, or_false] at hty
      rcases hty with hty | hty | hty <;> simp only [make, hty]
    | redirect r =>
      obtain ⟨hty, hr⟩ := h
      simp only [make, hty, hr]
      rfl
    | ecs e =>
      obtain ⟨hty, he⟩ := h
      simp only [make, hty, he]
      rfl
    | noEcs n =>
      obtain ⟨hty, rfl⟩ := h
      simp only [List.mem_cons, List.not_mem_nil, or_false] at hty
      rcases hty with hty | hty <;> simp only [make, hty]
    | hosts t =>
      obtain ⟨hty, ht⟩ := h
      simp only [make, hty, ht]
      rfl
    | forward f =>
      obtain ⟨hty, hf⟩ := h
      simp only [List.mem_cons, List.not_mem_nil, or_false] at hty
      rcases hty with hty | hty
      · simp only [make, hty, hf]
        rfl
      · simp only [make, hty, hf]
        rfl

namespace Runtime

variable {order : MapOrder} {l : Loader} {config : Config} {rt : Runtime}
  {plugins : List PluginConfig} {loaded : List (Tag × Loaded)} {sequences : List Registered}
  {entry : Option Tag}

theorem becomes_of_entries
    (hs : (loaded.filterMap Loaded.pending).mapM (compile (Loaded.sets l.recordType loaded)) =
      .ok sequences) {r : Registered} (hr : r ∈ entries entry loaded sequences) :
    ∃ x, (r.val.1, x) ∈ loaded ∧
      x.Becomes (Loaded.sets l.recordType loaded) entry r.val.1 r.val.2 := by
  rw [entries, List.mem_append, List.mem_append] at hr
  rcases hr with (hr | hr) | hr
  · obtain ⟨⟨tag, x⟩, hx, hready⟩ := List.mem_filterMap.1 hr
    cases x with
    | cache args =>
      cases hready
      exact ⟨_, hx, .cache⟩
    | leaf q =>
      cases hready
      exact ⟨_, hx, .leaf q⟩
    | _ => cases hready
  · obtain ⟨⟨tag, args⟩, hpend, hcompile⟩ := mem_of_mapM hs hr
    obtain ⟨⟨tag', x⟩, hx, hpending⟩ := List.mem_filterMap.1 hpend
    simp only [compile, bind_eq_ok] at hcompile
    obtain ⟨raw, hraw, seq, hseq, hdone⟩ := hcompile
    cases hdone
    cases x with
    | sequence args' =>
      cases hpending
      exact ⟨_, hx, .sequence hraw hseq⟩
    | _ => cases hpending
  · obtain ⟨⟨tag, x⟩, hx, hbacked⟩ := List.mem_filterMap.1 hr
    cases x with
    | fallback f =>
      cases hbacked
      exact ⟨_, hx, .fallback f⟩
    | _ => cases hbacked

/-- What was loaded under the tag of a plugin was made of it. -/
theorem make_of_mem_loaded (hn : (plugins.map PluginConfig.name).Nodup)
    (hl : plugins.mapM l.load = .ok loaded) {p : PluginConfig} (hp : p ∈ plugins) {x : Loaded}
    (hx : (p.name, x) ∈ loaded) : l.make p = .ok x := by
  obtain ⟨p', hp', hload⟩ := mem_of_mapM hl hx
  obtain ⟨y, hmake, heq⟩ := map_eq_ok.1 hload
  obtain ⟨hname, rfl⟩ := Prod.mk.inj heq
  rwa [← List.inj_on_of_nodup_map hn hp' hp hname]

/-- The plugins are kept as they were configured. -/
theorem build_plugins (h : build order l config = .ok rt) : rt.config.plugins = config.plugins := by
  obtain ⟨normal, _, _, hnormal, -, -, -, -, -, -, -, hsame⟩ := build_eq_ok h
  have hplugins := normalizeEntries_plugins hnormal
  exact (congrArg Config.plugins hsame).trans hplugins

/-- What is registered under the name of a plugin was made of it. -/
theorem made_of_registered (h : build order l config = .ok rt) {p : PluginConfig}
    (hp : p ∈ rt.config.plugins) {q : Executable} (hq : rt.registry.getExec p.name = .ok q) :
    ∃ x sets, l.make p = .ok x ∧ x.Becomes sets rt.defaultEntry p.name q := by
  obtain ⟨normal, loaded, sequences, -, hgraph, hloaded, hsequences, -, -, hreg, -, hsame⟩ :=
    build_eq_ok h
  rw [hsame] at hp
  rw [hreg] at hq
  obtain ⟨r, hr, hrq⟩ := mem_of_getExec hq
  obtain ⟨x, hx, hbecomes⟩ := becomes_of_entries hsequences hr
  rw [hrq] at hx hbecomes
  have hn := ((validate_eq_ok_iff order).1 hgraph).2.distinct
  exact ⟨x, _, make_of_mem_loaded hn hloaded hp hx, hbecomes⟩

/-- What is registered is named by a plugin, whose tag was checked. -/
theorem named_of_registered (h : build order l config = .ok rt) {tag : Tag} {q : Executable}
    (hq : rt.registry.getExec tag = .ok q) :
    ∃ p ∈ rt.config.plugins, p.name = tag ∧ ValidTag tag := by
  obtain ⟨normal, loaded, sequences, -, hgraph, hloaded, hsequences, -, -, hreg, -, hsame⟩ :=
    build_eq_ok h
  rw [hreg] at hq
  obtain ⟨r, hr, hrq⟩ := mem_of_getExec hq
  obtain ⟨x, hx, -⟩ := becomes_of_entries hsequences hr
  rw [hrq] at hx
  obtain ⟨p, hp, rfl, -⟩ := mem_loaded hloaded hx
  rw [hsame]
  exact ⟨p, hp, rfl, (((validate_eq_ok_iff order).1 hgraph).1 p hp).1⟩

/-- A plugin that calls nothing is registered as what was made of it. -/
theorem registered_leaf (h : build order l config = .ok rt) {p : PluginConfig}
    (hp : p ∈ rt.config.plugins) {q : Leaf} :
    rt.registry.getExec p.name = .ok q.executable ↔ l.make p = .ok (.leaf q) := by
  have becomes {x : Loaded} {e : Executable} {sets : Sets}
      (hx : x.Becomes sets rt.defaultEntry p.name e) : e = q.executable ↔ x = .leaf q := by
    cases hx with
    | leaf q' => rw [Leaf.executable_injective.eq_iff, Loaded.leaf.injEq]
    | _ => cases q <;> simp [Leaf.executable]
  constructor
  · intro hq
    obtain ⟨x, sets, hmake, hx⟩ := made_of_registered h hp hq
    rw [hmake, (becomes hx).1 rfl]
  · intro hmake
    have hset : p.isSet = false := Loader.make_from hmake
    obtain ⟨e, he⟩ := (build_linked h).2.2 p.name ⟨p, build_plugins h ▸ hp, rfl, hset⟩
    obtain ⟨x, sets, hmake', hx⟩ := made_of_registered h hp he
    rw [hmake] at hmake'
    rw [he, (becomes hx).2 (Except.ok.inj hmake').symm]

/-- The forwarder that a plugin is registered as is the one that was made of it. -/
theorem registered_forward (h : build order l config = .ok rt) {p : PluginConfig}
    (hp : p ∈ rt.config.plugins) {f : Forward} :
    rt.registry.getExec p.name = .ok (.forward f) ↔ l.make p = .ok (.leaf (.forward f)) :=
  registered_leaf h hp (q := .forward f)

/-- A plugin of one of these types was made a forwarder. -/
theorem made_forward (h : build order l config = .ok rt) {p : PluginConfig}
    (hp : p ∈ rt.config.plugins) (hty : p.ty ∈ ["forward", "fast_forward"]) :
    ∃ f, l.make p = .ok (.leaf (.forward f)) := by
  obtain ⟨normal, loaded, -, -, -, hloaded, -, -, -, -, -, hsame⟩ := build_eq_ok h
  rw [hsame] at hp
  obtain ⟨_, -, hload⟩ := mem_mapM_of_mem hloaded hp
  obtain ⟨x, hmake, -⟩ := map_eq_ok.1 hload
  simp only [List.mem_cons, List.not_mem_nil, or_false] at hty
  rcases hty with hty | hty
  · simp only [Loader.make, hty] at hmake
    obtain ⟨f, hf, -⟩ := map_eq_ok.1 hmake
    exact ⟨f, Loader.make_leaf.2 ⟨by simp [hty], hf⟩⟩
  · simp only [Loader.make, hty] at hmake
    obtain ⟨f, hf, -⟩ := map_eq_ok.1 hmake
    exact ⟨f, Loader.make_leaf.2 ⟨by simp [hty], hf⟩⟩

end Runtime

end FerrumDns
