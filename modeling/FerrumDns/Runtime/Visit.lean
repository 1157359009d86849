import FerrumDns.Runtime.Graph

/-! What the check of the call graph decides. The depths it remembers are exact
heights of the call relation, so neither a cycle nor a chain that is too long
only when joined can hide behind them; and where all chains are short enough no
search runs into its limit, whatever order the roots are taken in. -/

namespace FerrumDns

open FerrumDns.Graph

/-- An executable plugin calls a tag. -/
def Refers (plugins : List PluginConfig) (a b : Tag) : Prop :=
  ∃ p ∈ plugins, p.name = a ∧ p.isSet = false ∧ ∃ calls, p.calls = .ok calls ∧ b ∈ calls

/-- A tag names an executable plugin. -/
def Declared (plugins : List PluginConfig) (tag : Tag) : Prop :=
  ∃ p ∈ plugins, p.name = tag ∧ p.isSet = false

theorem Refers.declared {plugins : List PluginConfig} {a b : Tag} (h : Refers plugins a b) :
    Declared plugins a := by
  obtain ⟨p, hp, hname, hs, -⟩ := h
  exact ⟨p, hp, hname, hs⟩

/-! ### Maps as lists -/

section Lookup

variable {α β : Type} [BEq α] [LawfulBEq α] {l : List (α × β)} {k : α} {v : β}

theorem mem_of_lookup (h : l.lookup k = some v) : (k, v) ∈ l := by
  obtain ⟨l₁, l₂, rfl, -⟩ := List.lookup_eq_some_iff.1 h
  simp

theorem lookup_of_mem (hn : (l.map Prod.fst).Nodup) (h : (k, v) ∈ l) : l.lookup k = some v := by
  obtain ⟨l₁, l₂, rfl⟩ := List.append_of_mem h
  refine List.lookup_eq_some_iff.2 ⟨l₁, l₂, rfl, fun p hp => ?_⟩
  have hne : p.1 ≠ k := by
    rw [List.map_append, List.nodup_append] at hn
    exact hn.2.2 p.1 (List.mem_map_of_mem hp) k (by simp)
  simpa using hne.symm

end Lookup

namespace Runtime

/-! ### Collecting -/

/-- The entries collected from plugins whose calls could be read. -/
def edgesOf (plugins : List PluginConfig) : Edges :=
  (plugins.filter fun p => !p.isSet).map fun p => (p.name, p.calls.toOption.getD [])

theorem calls_of_isSet {p : PluginConfig} (h : p.isSet) : p.calls = .ok [] := by
  simp only [PluginConfig.isSet, Bool.or_eq_true, decide_eq_true_eq] at h
  rcases h with h | h <;> simp [PluginConfig.calls, h]

theorem collect_eq_ok_iff {plugins : List PluginConfig} {tags : List Tag} {edges found : Edges} :
    collect plugins tags edges = .ok found ↔
      (∀ p ∈ plugins, ValidTag p.name ∧ ∃ calls, p.calls = .ok calls) ∧
      (∀ p ∈ plugins, p.name ∉ tags) ∧ (plugins.map PluginConfig.name).Nodup ∧
      found = edges ++ edgesOf plugins := by
  induction plugins generalizing tags edges with
  | nil => simp [collect, edgesOf, eq_comm]
  | cons p plugins ih =>
    -- what is collected after `p`, when `p` itself passes
    have rest {entries : Edges} (hv : ValidTag p.name) (hnew : p.name ∉ tags) (calls : List Tag)
        (hcalls : p.calls = .ok calls) (hentries : edges ++ edgesOf (p :: plugins) =
          entries ++ edgesOf plugins) : collect plugins (p.name :: tags) entries = .ok found ↔
        (∀ q ∈ p :: plugins, ValidTag q.name ∧ ∃ calls, q.calls = .ok calls) ∧
        (∀ q ∈ p :: plugins, q.name ∉ tags) ∧ ((p :: plugins).map PluginConfig.name).Nodup ∧
        found = edges ++ edgesOf (p :: plugins) := by
      rw [ih, hentries]
      simp only [List.mem_cons, not_or, forall_eq_or_imp, List.map_cons, List.nodup_cons,
        List.mem_map, not_exists, not_and]
      constructor
      · rintro ⟨hall, hdisj, hnodup, hf⟩
        exact ⟨⟨⟨hv, _, hcalls⟩, hall⟩, ⟨hnew, fun q hq => (hdisj q hq).2⟩,
          ⟨fun q hq => (hdisj q hq).1, hnodup⟩, hf⟩
      · rintro ⟨⟨-, hall⟩, ⟨-, hdisj⟩, ⟨hne, hnodup⟩, hf⟩
        exact ⟨hall, fun q hq => ⟨hne q hq, hdisj q hq⟩, hnodup, hf⟩
    rw [collect]
    by_cases hv : ValidTag p.name
    · rw [if_neg (not_not.2 hv)]
      split_ifs with hdup hset
      · simp only [false_iff, not_and]
        exact fun _ hdisj => absurd hdup (hdisj p (by simp))
      · exact rest hv hdup [] (calls_of_isSet hset) (by simp [edgesOf, hset])
      · cases hc : p.calls with
        | error e =>
          simp only [reduceCtorEq, false_iff, not_and]
          intro hall
          obtain ⟨-, calls, hcalls⟩ := hall p (by simp)
          simp [hc] at hcalls
        | ok calls => exact rest hv hdup calls hc (by simp [edgesOf, hset, hc, Except.toOption])
    · rw [if_pos hv]
      simp only [reduceCtorEq, false_iff, not_and]
      exact fun hall => absurd (hall p (by simp)).1 hv

theorem nodup_keys_edgesOf {plugins : List PluginConfig}
    (hn : (plugins.map PluginConfig.name).Nodup) : ((edgesOf plugins).map Prod.fst).Nodup := by
  refine hn.sublist ?_
  simp only [edgesOf, List.map_map]
  exact List.filter_sublist.map _

theorem lookup_edgesOf {plugins : List PluginConfig} (hn : (plugins.map PluginConfig.name).Nodup)
    {p : PluginConfig} (hp : p ∈ plugins) (hs : p.isSet = false) :
    (edgesOf plugins).lookup p.name = some (p.calls.toOption.getD []) :=
  lookup_of_mem (nodup_keys_edgesOf hn) (List.mem_map.2 ⟨p, by simp [hp, hs], rfl⟩)

theorem mem_keys_edgesOf {plugins : List PluginConfig} {tag : Tag} :
    tag ∈ (edgesOf plugins).map Prod.fst ↔ Declared plugins tag := by
  simp only [edgesOf, Declared, List.mem_map, List.mem_filter, Bool.not_eq_true']
  constructor
  · rintro ⟨_, ⟨p, ⟨hp, hs⟩, rfl⟩, rfl⟩
    exact ⟨p, hp, rfl, hs⟩
  · rintro ⟨p, hp, rfl, hs⟩
    exact ⟨_, ⟨p, ⟨hp, hs⟩, rfl⟩, rfl⟩

theorem mem_callsOf_edgesOf {plugins : List PluginConfig}
    (hn : (plugins.map PluginConfig.name).Nodup) {a b : Tag} :
    b ∈ callsOf (edgesOf plugins) a ↔ Refers plugins a b := by
  constructor
  · intro hb
    rw [callsOf] at hb
    cases hl : (edgesOf plugins).lookup a with
    | none => simp [hl] at hb
    | some calls =>
      have hmem : a ∈ (edgesOf plugins).map Prod.fst :=
        List.mem_map.2 ⟨_, mem_of_lookup hl, rfl⟩
      obtain ⟨p, hp, rfl, hs⟩ := mem_keys_edgesOf.1 hmem
      rw [lookup_edgesOf hn hp hs] at hb
      cases hc : p.calls with
      | error e => simp [hc, Except.toOption] at hb
      | ok calls => exact ⟨p, hp, rfl, hs, calls, hc, by simpa [hc, Except.toOption] using hb⟩
  · rintro ⟨p, hp, rfl, hs, calls, hc, hb⟩
    rw [callsOf, lookup_edgesOf hn hp hs, hc]
    exact hb

/-! ### Known tags -/

theorem checkKnown_eq_ok_iff {edges walked : Edges} : checkKnown edges walked = .ok () ↔
    ∀ e ∈ walked, ∀ target ∈ e.2, target ∈ edges.map Prod.fst := by
  simp only [checkKnown]
  split
  next tag target h =>
    obtain ⟨e, he, hf⟩ := List.exists_of_findSome?_eq_some h
    obtain ⟨t, ht, hpair⟩ := Option.map_eq_some_iff.1 hf
    have hmem := List.mem_of_find?_eq_some ht
    have hunknown : t ∉ edges.map Prod.fst := by simpa using List.find?_some ht
    simp only [reduceCtorEq, false_iff, not_forall]
    exact ⟨e, he, t, hmem, hunknown⟩
  next h =>
    simp only [List.findSome?_eq_none_iff, Option.map_eq_none_iff, List.find?_eq_none,
      decide_eq_true_eq, not_not] at h
    simpa using h

/-! ### The search -/

section Search

variable (edges : Edges)

/-- One tag calls another. -/
def Calls (a b : Tag) : Prop := b ∈ callsOf edges a

/-- Remembered depths are heights of the call relation, and allowed. -/
def Heights (depths : Depths) : Prop :=
  ∀ e ∈ depths, Height (Calls edges) e.2 e.1 ∧ e.2 ≤ maxPipelineDepth

/-- What a search that returns has found. -/
def Found (tag : Tag) (r : ℕ × Depths) : Prop :=
  Heights edges r.2 ∧ Height (Calls edges) r.1 tag ∧ r.1 ≤ maxPipelineDepth

variable {edges}

/-- After the loop the depth is one more than the greatest height of a target, if that is more than
the depth before. -/
theorem visitCalls_found {visit : Tag → Depths → Except Error (ℕ × Depths)}
    (hv : ∀ target depths r, Heights edges depths → visit target depths = .ok r →
      Found edges target r) {targets : List Tag} {depth d : ℕ} {depths ds : Depths}
    (hd : Heights edges depths) (h : visitCalls visit targets depth depths = .ok (d, ds)) :
    Heights edges ds ∧ depth ≤ d ∧ (∀ b ∈ targets, Within (Calls edges) (d - 1) b) ∧
      (d = depth ∨ ∃ b ∈ targets, Height (Calls edges) (d - 1) b) := by
  induction targets generalizing depth depths with
  | nil =>
    cases h
    exact ⟨hd, le_rfl, by simp, .inl rfl⟩
  | cons target targets ih =>
    rw [visitCalls] at h
    cases hvisit : visit target depths with
    | error e => simp [hvisit] at h
    | ok r =>
      obtain ⟨height, ds'⟩ := r
      obtain ⟨hds', hheight, -⟩ := hv _ _ _ hd hvisit
      simp only [hvisit] at h
      obtain ⟨hds, hle, hwithin, hmax⟩ := ih hds' h
      have htarget : height ≤ d - 1 := by omega
      refine ⟨hds, by omega, ?_, ?_⟩
      · exact List.forall_mem_cons.2 ⟨hheight.1.mono htarget, hwithin⟩
      · rcases hmax with heq | ⟨b, hb, hh⟩
        · rcases max_choice depth (1 + height) with hm | hm
          · exact .inl (heq.trans hm)
          · have hd' : height = d - 1 := by omega
            exact .inr ⟨target, by simp, hd' ▸ hheight⟩
        · exact .inr ⟨b, by simp [hb], hh⟩

theorem visitPlugin_found {room : ℕ} {active : List Tag} {tag : Tag} {depths : Depths}
    {r : ℕ × Depths} (hd : Heights edges depths)
    (h : visitPlugin edges room active tag depths = .ok r) : Found edges tag r := by
  induction room generalizing active tag depths r with
  | zero =>
    rw [visitPlugin] at h
    cases hl : depths.lookup tag with
    | none =>
      simp only [hl] at h
      split_ifs at h
    | some depth =>
      simp only [hl] at h
      cases h
      exact ⟨hd, hd _ (mem_of_lookup hl)⟩
  | succ room ih =>
    rw [visitPlugin] at h
    cases hl : depths.lookup tag with
    | some depth =>
      simp only [hl] at h
      cases h
      exact ⟨hd, hd _ (mem_of_lookup hl)⟩
    | none =>
      simp only [hl] at h
      split_ifs at h
      cases hloop : visitCalls (visitPlugin edges room (active ++ [tag])) (callsOf edges tag) 1
          depths with
      | error e => simp [hloop] at h
      | ok result =>
        obtain ⟨depth, ds⟩ := result
        simp only [hloop] at h
        split_ifs at h with hdeep
        cases h
        obtain ⟨hds, hpos, hwithin, hmax⟩ := visitCalls_found (fun _ _ _ => ih) hd hloop
        have hheight : Height (Calls edges) depth tag := .of_succ hpos hwithin hmax
        exact ⟨List.forall_mem_cons.2 ⟨⟨hheight, by omega⟩, hds⟩, hheight, by omega⟩

/-- Where no chain is too long, the search below a chain of calls returns. -/
theorem visitPlugin_returns (hc : ∀ l : List Tag, l.IsChain (Calls edges) →
      l.length ≤ maxPipelineDepth) {room : ℕ} {active : List Tag} {tag : Tag} {depths : Depths}
    (hroom : active.length + room = maxPipelineDepth) (hpath : (active ++ [tag]).IsChain (Calls edges))
    (hd : Heights edges depths) : ∃ r, visitPlugin edges room active tag depths = .ok r := by
  induction room generalizing active tag depths with
  | zero =>
    have hlong := hc _ hpath
    rw [List.length_append, List.length_singleton] at hlong
    omega
  | succ room ih =>
    rw [visitPlugin]
    cases hl : depths.lookup tag with
    | some depth => exact ⟨_, rfl⟩
    | none =>
      have hnew : tag ∉ active := fun hmem =>
        (within_iff.2 fun l hl => hc _ hl).acyclic (transGen_of_isChain hpath hmem)
      rw [if_neg hnew]
      have hbelow {target : Tag} (ht : target ∈ callsOf edges tag) :
          ((active ++ [tag]) ++ [target]).IsChain (Calls edges) := by
        rw [List.append_assoc, List.singleton_append, List.isChain_split]
        exact ⟨hpath, List.isChain_pair.2 ht⟩
      have hloop {targets : List Tag} (ht : ∀ t ∈ targets, t ∈ callsOf edges tag) {depth : ℕ}
          {ds : Depths} (hds : Heights edges ds) :
          ∃ r, visitCalls (visitPlugin edges room (active ++ [tag])) targets depth ds = .ok r := by
        induction targets generalizing depth ds with
        | nil => exact ⟨_, rfl⟩
        | cons target targets ihl =>
          obtain ⟨⟨height, ds'⟩, hvisit⟩ := ih (by simp; omega) (hbelow (ht target (by simp))) hds
          rw [visitCalls, hvisit]
          exact ihl (fun t hm => ht t (by simp [hm])) (visitPlugin_found hds hvisit).1
      obtain ⟨⟨depth, ds⟩, hr⟩ := hloop (fun _ ht => ht) hd
      obtain ⟨-, hpos, hwithin, hmax⟩ := visitCalls_found (fun _ _ _ => visitPlugin_found) hd hr
      have hheight : Height (Calls edges) depth tag := .of_succ hpos hwithin hmax
      have hshallow : ¬ maxPipelineDepth < depth := not_lt.2 (hheight.le hc)
      exact ⟨(depth, (tag, depth) :: ds), by simp only [hr, if_neg hshallow]⟩

theorem visitAll_within {tags : List Tag} {depths : Depths} (hd : Heights edges depths)
    (h : visitAll edges tags depths = .ok ()) :
    ∀ tag ∈ tags, Within (Calls edges) maxPipelineDepth tag := by
  induction tags generalizing depths with
  | nil => simp
  | cons tag tags ih =>
    rw [visitAll] at h
    cases hv : visitPlugin edges maxPipelineDepth [] tag depths with
    | error e => simp [hv] at h
    | ok r =>
      simp only [hv] at h
      obtain ⟨hds, hheight, hle⟩ := visitPlugin_found hd hv
      exact List.forall_mem_cons.2 ⟨hheight.1.mono hle, ih hds h⟩

theorem visitAll_returns (hc : ∀ l : List Tag, l.IsChain (Calls edges) →
      l.length ≤ maxPipelineDepth) {tags : List Tag} {depths : Depths} (hd : Heights edges depths) :
    visitAll edges tags depths = .ok () := by
  induction tags generalizing depths with
  | nil => rfl
  | cons tag tags ih =>
    have hroot : ([] ++ [tag]).IsChain (Calls edges) := .singleton tag
    obtain ⟨r, hv⟩ := visitPlugin_returns hc (Nat.zero_add _) hroot hd
    rw [visitAll, hv]
    exact ih (visitPlugin_found hd hv).1

/-- The search from all tags that call something succeeds when no chain of calls is too long. -/
theorem visitAll_eq_ok_iff {tags : List Tag} (hkeys : ∀ a b, Calls edges a b → a ∈ tags) :
    visitAll edges tags [] = .ok () ↔
      ∀ l : List Tag, l.IsChain (Calls edges) → l.length ≤ maxPipelineDepth := by
  have hd : Heights edges [] := by simp [Heights]
  refine ⟨fun h l hl => ?_, fun hc => visitAll_returns hc hd⟩
  match l with
  | [] => simp
  | [a] => exact Nat.succ_le_of_lt (by decide)
  | a :: b :: l =>
    have ha : a ∈ tags := hkeys a b (List.isChain_cons_cons.1 hl).1
    exact within_iff.1 (visitAll_within hd h a ha) (b :: l) hl

end Search

/-! ### The verdict -/

/-- The condition the check decides: every tag is that of one plugin, every reference names an
executable, and references neither form a cycle nor a chain of more than 64 plugins. -/
structure WellLinked (plugins : List PluginConfig) : Prop where
  distinct : (plugins.map PluginConfig.name).Nodup
  declared : ∀ a b, Refers plugins a b → Declared plugins b
  acyclic : ∀ a, ¬ Relation.TransGen (Refers plugins) a a
  shallow : ∀ l : List Tag, l.IsChain (Refers plugins) → l.length ≤ maxPipelineDepth

variable {plugins : List PluginConfig}

theorem calls_edgesOf (hn : (plugins.map PluginConfig.name).Nodup) :
    Calls (edgesOf plugins) = Refers plugins := by
  funext a b
  exact propext (mem_callsOf_edgesOf hn)

theorem known_iff (order : MapOrder) (hn : (plugins.map PluginConfig.name).Nodup) :
    (∀ e ∈ order.walk (edgesOf plugins), ∀ target ∈ e.2,
      target ∈ (edgesOf plugins).map Prod.fst) ↔ ∀ a b, Refers plugins a b → Declared plugins b := by
  simp only [(order.perm _).mem_iff, mem_keys_edgesOf]
  constructor
  · intro h a b hab
    obtain ⟨p, hp, rfl, hs, calls, hc, hb⟩ := hab
    exact h (p.name, _) (mem_of_lookup (lookup_edgesOf hn hp hs)) b (by rwa [hc])
  · rintro h ⟨a, calls⟩ he b hb
    refine h a b ?_
    have hkeys : ((edgesOf plugins).map Prod.fst).Nodup := nodup_keys_edgesOf hn
    rw [← mem_callsOf_edgesOf hn, callsOf, lookup_of_mem hkeys he]
    exact hb

theorem validate_eq_ok_iff (order : MapOrder) : validatePluginGraph order plugins = .ok () ↔
    (∀ p ∈ plugins, ValidTag p.name ∧ ∃ calls, p.calls = .ok calls) ∧ WellLinked plugins := by
  have search (hn : (plugins.map PluginConfig.name).Nodup) :
      visitAll (edgesOf plugins) ((order.walk (edgesOf plugins)).map Prod.fst) [] = .ok () ↔
        ∀ l : List Tag, l.IsChain (Refers plugins) → l.length ≤ maxPipelineDepth := by
    rw [← calls_edgesOf hn]
    refine visitAll_eq_ok_iff fun a b hab => ?_
    rw [calls_edgesOf hn] at hab
    exact ((order.perm _).map Prod.fst).mem_iff.2 (mem_keys_edgesOf.2 hab.declared)
  simp only [validatePluginGraph]
  constructor
  · intro h
    cases hcollect : collect plugins [] [] with
    | error e => simp [hcollect] at h
    | ok edges =>
      obtain ⟨hall, -, hn, rfl⟩ := collect_eq_ok_iff.1 hcollect
      simp only [hcollect, List.nil_append] at h
      cases hknown : checkKnown (edgesOf plugins) (order.walk (edgesOf plugins)) with
      | error e => simp [hknown] at h
      | ok u =>
        simp only [hknown] at h
        have hc := (search hn).1 h
        refine ⟨hall, hn, (known_iff order hn).1 (checkKnown_eq_ok_iff.1 hknown), fun a => ?_, hc⟩
        exact (within_iff.2 fun l hl => hc _ hl).acyclic
  · rintro ⟨hall, hl⟩
    have hcollect : collect plugins [] [] = .ok (edgesOf plugins) :=
      collect_eq_ok_iff.2 ⟨hall, by simp, hl.distinct, rfl⟩
    have hknown := checkKnown_eq_ok_iff.2 ((known_iff order hl.distinct).2 hl.declared)
    simp only [hcollect, hknown]
    exact (search hl.distinct).2 hl.shallow

end Runtime

end FerrumDns
