import FerrumDns.Fallible
import FerrumDns.Graph.Walk
import FerrumDns.Runtime.Load

/-! What loading with includes gives. The includes of the files form a graph, over which
loading is a walk in pre-order; merging is associative, so the result is the root merged
with all that are walked after it. -/

namespace FerrumDns

namespace Config

open FerrumDns.Graph Fallible

/-! ### Merging -/

/-- The first address that is set stays. -/
theorem merge_eq (a b : Config) : a.merge b = { a with
    plugins := a.plugins ++ b.plugins
    servers := a.servers ++ b.servers
    api := ⟨a.api.http.or b.api.http⟩ } := by
  have hapi : (if a.api.http.isNone then ⟨b.api.http⟩ else a.api) =
      (⟨a.api.http.or b.api.http⟩ : ApiConfig) := by
    obtain ⟨http⟩ := a.api
    cases http <;> rfl
  rw [merge, hapi]

theorem merge_assoc (a b c : Config) : (a.merge b).merge c = a.merge (b.merge c) := by
  simp only [merge_eq, List.append_assoc, Option.or_assoc]

theorem foldl_merge (a b : Config) (l : List Config) :
    l.foldl merge (a.merge b) = a.merge (l.foldl merge b) := by
  induction l generalizing b with
  | nil => rfl
  | cons c l ih => rw [List.foldl_cons, List.foldl_cons, merge_assoc, ih]

theorem plugins_foldl (a : Config) (l : List Config) :
    (l.foldl merge a).plugins = a.plugins ++ l.flatMap plugins := by
  induction l generalizing a with
  | nil => simp
  | cons b l ih => rw [List.foldl_cons, ih, List.flatMap_cons, ← List.append_assoc]; rfl

theorem servers_foldl (a : Config) (l : List Config) :
    (l.foldl merge a).servers = a.servers ++ l.flatMap servers := by
  induction l generalizing a with
  | nil => simp
  | cons b l ih => rw [List.foldl_cons, ih, List.flatMap_cons, ← List.append_assoc]; rfl

theorem http_foldl (a : Config) (l : List Config) :
    (l.foldl merge a).api.http = (a :: l).findSome? fun c => c.api.http := by
  induction l generalizing a with
  | nil => cases h : a.api.http <;> simp [h]
  | cons b l ih =>
    rw [List.foldl_cons, ih, List.findSome?_cons, List.findSome?_cons, List.findSome?_cons, merge_eq]
    dsimp only
    cases a.api.http <;> rfl

theorem log_foldl (a : Config) (l : List Config) : (l.foldl merge a).log = a.log := by
  induction l generalizing a with
  | nil => rfl
  | cons b l ih => rw [List.foldl_cons, ih]; rfl

/-! ### Files -/

variable (src : ConfigSource)

/-- The file includes this one. -/
def Includes (path path' : String) : Prop :=
  ∃ config, readFile src path = .ok config ∧
    ∃ rel ∈ config.includes, path' = resolvePath (dirOf path) rel

def canonical (path : String) : Option String := (src.canonicalize path).toOption

/-- What a file says by itself, and the files it includes. -/
def node (path : String) : Option (Config × List String) :=
  (readFile src path).toOption.map fun config =>
    (config, config.includes.map (resolvePath (dirOf path)))

/-- A file's configuration with its paths resolved. -/
def stamped (file : String × Config) : Config := stampBase { file.2 with baseDir := dirOf file.1 }

variable {src}

theorem node_eq_some {path : String} {x : Config × List String} : node src path = some x ↔
    readFile src path = .ok x.1 ∧ x.2 = x.1.includes.map (resolvePath (dirOf path)) := by
  obtain ⟨config, below⟩ := x
  simp only [node, Option.map_eq_some_iff, toOption_eq_some, Prod.mk.injEq]
  constructor
  · rintro ⟨c, hc, rfl, rfl⟩
    exact ⟨hc, rfl⟩
  · rintro ⟨hc, rfl⟩
    exact ⟨config, hc, rfl, rfl⟩

theorem next_eq_includes : Next (node src) = Includes src := by
  funext path path'
  refine propext ⟨?_, ?_⟩
  · rintro ⟨x, hx, hmem⟩
    obtain ⟨hread, hbelow⟩ := node_eq_some.1 hx
    rw [hbelow] at hmem
    obtain ⟨rel, hrel, rfl⟩ := List.mem_map.1 hmem
    exact ⟨x.1, hread, rel, hrel, rfl⟩
  · rintro ⟨config, hread, rel, hrel, rfl⟩
    exact ⟨(config, _), node_eq_some.2 ⟨hread, rfl⟩, List.mem_map_of_mem hrel⟩

theorem ownFile_eq_ok {path : String} {config : Config} :
    ownFile src path = .ok config ↔ ∃ c, readFile src path = .ok c ∧ config = stamped (path, c) := by
  rw [ownFile, map_eq_ok]
  exact exists_congr fun c => and_congr_right fun _ => eq_comm

/-- What it takes to load one file. -/
theorem loadWithStack_eq_ok {path : String} {stack : List String} {config : Config} :
    loadWithStack src path stack = .ok config ↔ stack.length < maxIncludeDepth ∧
      ∃ k c, src.canonicalize path = .ok k ∧ k ∉ stack ∧ readFile src path = .ok c ∧
        c.includes.foldlM (fun acc rel => (loadWithStack src (resolvePath acc.baseDir rel)
          (stack ++ [k])).map acc.merge) (stamped (path, c)) = .ok config := by
  rw [loadWithStack]
  split_ifs with hdepth
  · exact ⟨nofun, fun h => absurd h.1 (not_lt.2 hdepth)⟩
  · rw [and_iff_right (not_le.1 hdepth), bind_eq_ok]
    refine exists_congr fun k => ?_
    have hk : (src.canonicalize path).mapError (fun e => Error.config ("resolve " ++ path ++ ": " ++ e)) =
        .ok k ↔ src.canonicalize path = .ok k := by
      cases src.canonicalize path <;> simp [Except.mapError]
    rw [hk]
    split_ifs with hseen
    · exact ⟨fun h => (by cases h.2), fun ⟨c, _, hnew, _⟩ => absurd hseen hnew⟩
    · simp only [bind_eq_ok, ownFile_eq_ok]
      constructor
      · rintro ⟨hcanon, _, ⟨c, hread, rfl⟩, hall⟩
        exact ⟨c, hcanon, hseen, hread, hall⟩
      · rintro ⟨c, hcanon, -, hread, hall⟩
        exact ⟨hcanon, _, ⟨c, hread, rfl⟩, hall⟩

/-! ### Loading is walking -/

/-- The root of a walk with the rest merged in. -/
def gathered : List (String × Config) → Option Config
  | [] => none
  | f :: files => some ((files.map stamped).foldl merge (stamped f))

theorem foldl_gathered {files : List (String × Config)} {extra : Config}
    (h : gathered files = some extra) (acc : Config) (rest : List Config) :
    rest.foldl merge (acc.merge extra) = (files.map stamped ++ rest).foldl merge acc := by
  cases files with
  | nil => cases h
  | cons f files =>
    obtain rfl := Option.some.inj h
    rw [List.map_cons, List.cons_append, List.foldl_cons, List.foldl_append, foldl_merge,
      foldl_merge, foldl_merge]

theorem exists_gathered {n : ℕ} {stack : List String} {path : String}
    {files : List (String × Config)}
    (h : walk (node src) (canonical src) n stack path = some files) :
    ∃ config, gathered files = some config := by
  cases n with
  | zero => cases h
  | succ n =>
    obtain ⟨_, _, _, -, -, -, -, rfl⟩ := walk_succ_eq_some.1 h
    exact ⟨_, rfl⟩

/-- Includes are merged in the order in which they are walked. -/
theorem foldlM_eq_ok {n : ℕ} {stack : List String} {base : String}
    (ih : ∀ path config, loadWithStack src path stack = .ok config ↔
      ∃ files, walk (node src) (canonical src) n stack path = some files ∧
        gathered files = some config)
    (rels : List String) (acc config : Config) (hbase : acc.baseDir = base) :
    rels.foldlM (fun acc rel =>
        (loadWithStack src (resolvePath acc.baseDir rel) stack).map acc.merge) acc = .ok config ↔
      ∃ ls, (rels.map (resolvePath base)).mapM (walk (node src) (canonical src) n stack) = some ls ∧
        config = (ls.flatten.map stamped).foldl merge acc := by
  induction rels generalizing acc with
  | nil =>
    simp [eq_comm, pure, Except.pure]
  | cons rel rels ih' =>
    simp only [List.foldlM_cons, bind_eq_ok, map_eq_ok, hbase, ih]
    simp only [List.map_cons, mapM_eq_some, List.forall₂_cons_left_iff]
    constructor
    · rintro ⟨_, ⟨extra, ⟨files, hwalk, hfiles⟩, rfl⟩, hrest⟩
      obtain ⟨ls, hls, rfl⟩ := (ih' (acc.merge extra) hbase).1 hrest
      refine ⟨files :: ls, ⟨files, ls, hwalk, mapM_eq_some.1 hls, rfl⟩, ?_⟩
      rw [List.flatten_cons, List.map_append, foldl_gathered hfiles]
    · rintro ⟨_, ⟨files, ls, hwalk, hls, rfl⟩, rfl⟩
      obtain ⟨extra, hfiles⟩ := exists_gathered hwalk
      refine ⟨_, ⟨extra, ⟨files, hwalk, hfiles⟩, rfl⟩, (ih' (acc.merge extra) hbase).2 ?_⟩
      refine ⟨ls, mapM_eq_some.2 hls, ?_⟩
      rw [List.flatten_cons, List.map_append, foldl_gathered hfiles]

/-- Loading a file walks its includes, as far as the stack leaves room. -/
theorem loadWithStack_walk {n : ℕ} {path : String} {stack : List String} {config : Config}
    (hn : n + stack.length = maxIncludeDepth) : loadWithStack src path stack = .ok config ↔
      ∃ files, walk (node src) (canonical src) n stack path = some files ∧
        gathered files = some config := by
  induction n generalizing path stack config with
  | zero =>
    rw [loadWithStack_eq_ok]
    exact ⟨fun h => absurd h.1 (by omega), fun ⟨_, h, _⟩ => (by cases h)⟩
  | succ n ih =>
    have below (k : String) := @foldlM_eq_ok src n (stack ++ [k]) (dirOf path)
      fun path config => @ih path (stack ++ [k]) config
        (by rw [List.length_append, List.length_singleton]; omega)
    rw [loadWithStack_eq_ok]
    simp only [walk_succ_eq_some]
    constructor
    · rintro ⟨-, k, c, hk, hnew, hread, hall⟩
      obtain ⟨ls, hls, rfl⟩ := (below k _ _ _ rfl).1 hall
      exact ⟨_, ⟨k, (c, _), ls, toOption_eq_some.2 hk, hnew, node_eq_some.2 ⟨hread, rfl⟩, hls, rfl⟩,
        rfl⟩
    · rintro ⟨_, ⟨k, x, ls, hk, hnew, hx, hls, rfl⟩, hgathered⟩
      obtain ⟨hread, hbelow⟩ := node_eq_some.1 hx
      rw [hbelow] at hls
      refine ⟨by omega, k, x.1, toOption_eq_some.1 hk, hnew, hread, (below k _ _ _ rfl).2 ⟨ls, hls, ?_⟩⟩
      exact (Option.some.inj hgathered).symm

/-! ### What a file says -/

theorem plugins_liftPlugin {config config' : Config} {p : PluginConfig}
    (h : liftPlugin config p = .ok config') : ∀ q ∈ config'.plugins, q ∈ config.plugins ∨ q = p := by
  rw [liftPlugin] at h
  cases hp : p.serverProtocol with
  | none =>
    rw [hp] at h
    obtain rfl := Except.ok.inj h
    intro q hq
    simpa using hq
  | some protocol =>
    rw [hp] at h
    obtain ⟨server, -, rfl⟩ := map_eq_ok.1 h
    exact fun q hq => .inl hq

theorem plugins_foldlM_lift {l : List PluginConfig} {acc config : Config}
    (h : l.foldlM liftPlugin acc = .ok config) : ∀ q ∈ config.plugins, q ∈ acc.plugins ∨ q ∈ l := by
  induction l generalizing acc with
  | nil =>
    obtain rfl := Except.ok.inj h
    exact fun q hq => .inl hq
  | cons p l ih =>
    rw [List.foldlM_cons] at h
    obtain ⟨next, hnext, hrest⟩ := bind_eq_ok.1 h
    intro q hq
    rcases ih hrest q hq with hq | hq
    · rcases plugins_liftPlugin hnext q hq with hq | rfl
      · exact .inl hq
      · exact .inr (by simp)
    · exact .inr (List.mem_cons_of_mem _ hq)

/-- Parsing leaves the directories of plugins open. -/
theorem baseDir_readFile {path : String} {config : Config} (h : readFile src path = .ok config) :
    ∀ p ∈ config.plugins, p.baseDir = "" := by
  obtain ⟨text, -, h⟩ := bind_eq_ok.1 h
  obtain ⟨raw, -, h⟩ := bind_eq_ok.1 h
  obtain ⟨lifted, hlift, h⟩ := bind_eq_ok.1 h
  obtain ⟨servers, -, rfl⟩ := map_eq_ok.1 h
  intro p hp
  rcases plugins_foldlM_lift hlift p hp with hp | hp
  · cases hp
  · obtain ⟨q, -, rfl⟩ := List.mem_map.1 hp
    rfl

/-- The plugins of a file get its directory. -/
theorem plugins_stamped {path : String} {config : Config} (h : readFile src path = .ok config) :
    (stamped (path, config)).plugins =
      config.plugins.map fun p => { p with baseDir := dirOf path } := by
  refine List.map_congr_left fun p hp => ?_
  rw [stampPlugin, if_pos (baseDir_readFile h p hp)]

theorem readFile_preorder {paths : List String} {files : List (String × Config)}
    (h : Preorder (node src) paths files) : ∀ f ∈ files, readFile src f.1 = .ok f.2 := by
  induction h with
  | nil => simp
  | cons hx _ _ ih ih' =>
    intro f hf
    rcases List.mem_cons.1 hf with rfl | hf
    · exact (node_eq_some.1 hx).1
    · rcases List.mem_append.1 hf with hf | hf
      · exact ih f hf
      · exact ih' f hf

theorem isSome_toOption {ε α : Type} {x : Except ε α} :
    x.toOption.isSome ↔ ∃ a, x = .ok a := by
  cases x <;> simp [Except.toOption]

theorem clear_iff {n : ℕ} {path : String} : Clear (node src) (canonical src) n [] path ↔
    ∀ l, (path :: l).IsChain (Includes src) →
      (∀ p ∈ path :: l, (∃ k, src.canonicalize p = .ok k) ∧ ∃ c, readFile src p = .ok c) ∧
      ((path :: l).filterMap (canonical src)).Nodup ∧ (path :: l).length ≤ n := by
  simp only [Clear, next_eq_includes, canonical, node, Option.isSome_map, isSome_toOption,
    List.nil_append]

theorem loadFile_isOk {path : String} : (∃ config, loadFile src path = .ok config) ↔
    Clear (node src) (canonical src) 64 [] path := by
  rw [← walk_isSome List.nodup_nil, Option.isSome_iff_exists]
  simp only [loadFile, @loadWithStack_walk src 64 _ [] _ rfl]
  constructor
  · rintro ⟨config, files, hwalk, -⟩
    exact ⟨files, hwalk⟩
  · rintro ⟨files, hwalk⟩
    obtain ⟨config, hfiles⟩ := exists_gathered hwalk
    exact ⟨config, files, hwalk, hfiles⟩

/-- Loading ends on every file system. It succeeds exactly if on every include path from the root
all files resolve, read and parse, no canonical path repeats, and there are at most 64 files. Then
plugins and servers are those of the files in pre-order, which is one list, the address of the
interface is the first that is set, the log settings are the root's, and every path was resolved
once, against the directory of the file that says it. -/
theorem load_file (src : ConfigSource) (path : String) :
    ((∃ config, loadFile src path = .ok config) ↔
      ∀ l, (path :: l).IsChain (Includes src) →
        (∀ p ∈ path :: l, (∃ k, src.canonicalize p = .ok k) ∧ ∃ c, readFile src p = .ok c) ∧
        ((path :: l).filterMap (canonical src)).Nodup ∧ (path :: l).length ≤ 64) ∧
    ∀ config, loadFile src path = .ok config → ∃ files root,
      Preorder (node src) [path] files ∧
      (∀ files', Preorder (node src) [path] files' → files' = files) ∧
      (∀ f ∈ files, readFile src f.1 = .ok f.2) ∧
      files.head? = some (path, root) ∧
      config.plugins = files.flatMap (fun f =>
        f.2.plugins.map fun p => { p with baseDir := dirOf f.1 }) ∧
      config.servers = files.flatMap (fun f => f.2.servers.map (stampServer (dirOf f.1))) ∧
      config.api.http = files.findSome? (fun f => f.2.api.http) ∧
      config.log = { root.log with file := root.log.file.map (resolvePath (dirOf path)) } := by
  refine ⟨loadFile_isOk.trans clear_iff, fun config h => ?_⟩
  obtain ⟨files, hwalk, hgathered⟩ := (@loadWithStack_walk src 64 _ [] _ rfl).1 h
  have hpre := walk_preorder hwalk
  have hread := readFile_preorder hpre
  cases files with
  | nil => cases hgathered
  | cons f files =>
    obtain rfl := Option.some.inj hgathered
    obtain ⟨file, root⟩ := f
    obtain rfl : file = path := by
      cases hpre
      rfl
    have hall {γ : Type} (g : Config → List γ) (g' : String × Config → List γ)
        (hg : ∀ f ∈ (file, root) :: files, g (stamped f) = g' f) :
        g (stamped (file, root)) ++ (files.map stamped).flatMap g =
          ((file, root) :: files).flatMap g' := by
      rw [List.flatMap_cons, List.flatMap_map, hg _ (by simp)]
      refine congrArg _ (List.flatMap_congr fun f hf => hg f (List.mem_cons_of_mem _ hf))
    refine ⟨(file, root) :: files, root, hpre, fun _ h => h.unique hpre, hread, rfl, ?_, ?_, ?_, ?_⟩
    · rw [plugins_foldl]
      exact hall plugins _ fun f hf => plugins_stamped (hread f hf)
    · rw [servers_foldl]
      exact hall servers _ fun f _ => rfl
    · rw [http_foldl, ← List.map_cons, List.findSome?_map]
      rfl
    · rw [log_foldl]
      rfl

end Config

end FerrumDns
