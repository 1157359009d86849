import FerrumDns.Fallible
import FerrumDns.Error
import FerrumDns.Matcher

/-! Domain sets rule by rule. What a rule says is read off its prefix; a set built from
rules contains exactly the names that one of its rules holds of. The tree of suffixes
stands for the set of its paths to terminal nodes: inserting adds one path, and a look-up
asks whether some path is a beginning of the reversed labels. -/

namespace FerrumDns

open Text

/-! ### The tree -/

namespace SuffixNode

/-- `SuffixNode::default()`. -/
def empty : SuffixNode := node [] false

/-- The children with this one put in. -/
def setChild (lab : Text) (n : SuffixNode) : List (Text × SuffixNode) → List (Text × SuffixNode)
  | [] => [(lab, n)]
  | (k, c) :: ch => if k = lab then (k, n) :: ch else (k, c) :: setChild lab n ch

/-- Walk down the labels, making the nodes that are missing, and end in a terminal node. -/
def insert : List Text → SuffixNode → SuffixNode
  | [], node ch _ => node ch true
  | lab :: labels, node ch t => node (setChild lab (insert labels ((ch.lookup lab).getD empty)) ch) t

/-- The path leads to a terminal node. -/
def ends : SuffixNode → List Text → Bool
  | n, [] => n.terminal
  | n, lab :: labels =>
    match n.children.lookup lab with
    | some next => next.ends labels
    | none => false

theorem lookup_setChild (lab k : Text) (n : SuffixNode) (ch : List (Text × SuffixNode)) :
    (setChild lab n ch).lookup k = if k = lab then some n else ch.lookup k := by
  have miss {a b : Text} (h : a ≠ b) : (a == b) = false := beq_false_of_ne h
  induction ch with
  | nil =>
    by_cases hk : k = lab
    · simp [setChild, hk]
    · simp [setChild, hk]
  | cons kc ch ih =>
    obtain ⟨k', c⟩ := kc
    by_cases hk' : k' = lab
    · subst hk'
      by_cases hk : k = k'
      · simp [setChild, hk]
      · simp [setChild, hk, List.lookup_cons, miss hk]
    · by_cases hk : k = k'
      · subst hk
        simp [setChild, hk']
      · simp [setChild, hk', List.lookup_cons, miss hk, ih]

theorem ends_empty (l : List Text) : empty.ends l = false := by
  cases l <;> rfl

/-- Inserting adds one path. -/
theorem ends_insert (path l : List Text) (n : SuffixNode) :
    (n.insert path).ends l = true ↔ l = path ∨ n.ends l = true := by
  induction path generalizing l n with
  | nil =>
    obtain ⟨ch, t⟩ := n
    cases l with
    | nil => simp [insert, ends, terminal]
    | cons lab l => simp [insert, ends, children]
  | cons lab path ih =>
    obtain ⟨ch, t⟩ := n
    cases l with
    | nil => simp [insert, ends, terminal]
    | cons k l =>
      simp only [insert, ends, children, lookup_setChild]
      by_cases hk : k = lab
      · subst hk
        simp only [if_true, ih]
        cases ch.lookup k with
        | none => simp [ends_empty]
        | some c => simp
      · simp [hk]

/-- A look-up stops at the first terminal node below the root. -/
theorem suffixMatch_iff (n : SuffixNode) (l : List Text) : n.suffixMatch l = true ↔
    (l = [] ∧ n.terminal = true) ∨ ∃ p, p ≠ [] ∧ p <+: l ∧ n.ends p = true := by
  induction l generalizing n with
  | nil =>
    simp [suffixMatch]
  | cons lab l ih =>
    rw [suffixMatch]
    constructor
    · intro h
      refine .inr ?_
      cases hc : n.children.lookup lab with
      | none => simp [hc] at h
      | some next =>
        simp only [hc, Bool.or_eq_true, ih] at h
        have step (p : List Text) (hp : p <+: l) (he : next.ends p = true) :
            ∃ p, p ≠ [] ∧ p <+: lab :: l ∧ n.ends p = true :=
          ⟨lab :: p, by simp, List.prefix_cons_inj lab |>.2 hp, by simpa [ends, hc] using he⟩
        rcases h with h | ⟨rfl, h⟩ | ⟨p, -, hp, he⟩
        · exact step [] (List.nil_prefix) h
        · exact step [] (List.nil_prefix) h
        · exact step p hp he
    · rintro (⟨h, -⟩ | ⟨p, hne, hp, he⟩)
      · cases h
      · obtain ⟨k, p, rfl⟩ := List.exists_cons_of_ne_nil hne
        obtain ⟨rfl, hpl⟩ := List.cons_prefix_cons.1 hp
        rw [ends] at he
        cases hc : n.children.lookup k with
        | none => simp [hc] at he
        | some next =>
          simp only [hc] at he
          simp only [Bool.or_eq_true, ih]
          by_cases hnil : p = []
          · subst hnil
            exact .inl he
          · exact .inr (.inr ⟨p, hnil, hpl, he⟩)

end SuffixNode

/-! ### Adding rules -/

namespace DomainSet

/-- `DomainSet::new`. -/
def new : DomainSet := ⟨.empty, [], [], []⟩

def insertSuffix (set : DomainSet) (domain : Text) : DomainSet :=
  { set with suffix := set.suffix.insert (labelsRev domain) }

/-- `compile` is `Regex::new`, an expression being the test it performs. -/
def addRule (compile : Text → Except String (Text → Bool)) (set : DomainSet) (raw : Text) :
    Except Error DomainSet :=
  let raw := trim raw
  if raw = [] ∨ raw.head? = some '#' then .ok set
  else match stripPrefix "full:".toList raw with
  | some rest => .ok { set with full := set.full.insert (normalizeDomain rest) }
  | none => match stripPrefix "keyword:".toList raw with
    | some rest => .ok { set with keywords := set.keywords ++ [lowercase rest] }
    | none => match stripPrefix "regexp:".toList raw with
      | some rest =>
        match compile rest with
        | .error e =>
          .error (.config ("bad regexp `" ++ String.ofList rest ++ "`: " ++ e))
        | .ok re => .ok { set with regexes := set.regexes ++ [re] }
      | none => match stripPrefix "domain:".toList raw with
        | some rest => .ok (set.insertSuffix (normalizeDomain rest))
        | none => .ok (set.insertSuffix (normalizeDomain raw))

/-- The rules added one after the other to the empty set. -/
def build (compile : Text → Except String (Text → Bool)) (rules : List Text) :
    Except Error DomainSet :=
  rules.foldlM (addRule compile) new

/-! ### What a rule says -/

/-- The labels of a domain: what stands between its dots. -/
def labels (d : Text) : List Text := (d.splitOn '.').filter (· ≠ [])

inductive Rule where
  | full (name : Text)
  | keyword (kw : Text)
  | regexp (expr : Text)
  | suffix (name : Text)
  deriving DecidableEq

/-- The rule on a line, unless it is blank or a comment. -/
def Rule.read (raw : Text) : Option Rule :=
  let raw := trim raw
  if raw = [] ∨ raw.head? = some '#' then none
  else some <|
    match stripPrefix "full:".toList raw with
    | some name => full name
    | none => match stripPrefix "keyword:".toList raw with
      | some kw => keyword kw
      | none => match stripPrefix "regexp:".toList raw with
        | some expr => regexp expr
        | none => match stripPrefix "domain:".toList raw with
          | some name => suffix name
          | none => suffix raw

/-- The rule holds of a normalized domain. -/
def Rule.Holds (compile : Text → Except String (Text → Bool)) (d : Text) : Rule → Prop
  | full name => normalizeDomain name = d
  | keyword kw => lowercase kw <:+: d
  | regexp expr => ∃ re, compile expr = .ok re ∧ re d = true
  | suffix name => labels (normalizeDomain name) <:+ labels d

/-- A suffix rule has a label. -/
def Rule.HasLabel : Rule → Prop
  | suffix name => labels (normalizeDomain name) ≠ []
  | _ => True

/-- A regular expression compiles. -/
def Rule.Compiles (compile : Text → Except String (Text → Bool)) : Rule → Prop
  | regexp expr => ∃ re, compile expr = .ok re
  | _ => True

variable {compile : Text → Except String (Text → Bool)}

theorem labelsRev_eq (d : Text) : labelsRev d = (labels d).reverse := by
  rw [labelsRev, labels, List.filter_reverse]

/-- The rule matches a normalized domain. A suffix without labels is the root of the tree, where a
look-up only stops that has no label to follow. -/
def Rule.Covers (compile : Text → Except String (Text → Bool)) (d : Text) (r : Rule) : Prop :=
  r.Holds compile d ∧ (r.HasLabel ∨ labels d = [])

/-- Some path of the tree is a beginning of the labels, last one first. -/
def Below (n : SuffixNode) (d : Text) : Prop :=
  ∃ p, p <+: labelsRev d ∧ (p ≠ [] ∨ labelsRev d = []) ∧ n.ends p = true

theorem contains_iff_below (set : DomainSet) (d : Text) :
    set.contains d = true ↔ normalizeDomain d ∈ set.full ∨ Below set.suffix (normalizeDomain d) ∨
      (∃ kw ∈ set.keywords, kw <:+: normalizeDomain d) ∨
        ∃ re ∈ set.regexes, re (normalizeDomain d) = true := by
  have hbelow : set.suffixMatch (normalizeDomain d) = true ↔
      Below set.suffix (normalizeDomain d) := by
    rw [suffixMatch, SuffixNode.suffixMatch_iff]
    constructor
    · rintro (⟨hd, ht⟩ | ⟨p, hne, hp, he⟩)
      · exact ⟨[], List.nil_prefix, .inr hd, ht⟩
      · exact ⟨p, hp, .inl hne, he⟩
    · rintro ⟨p, hp, hroot, he⟩
      by_cases hne : p = []
      · subst hne
        exact .inl ⟨hroot.resolve_left fun h => h rfl, he⟩
      · exact .inr ⟨p, hne, hp, he⟩
  simp only [contains, Bool.or_eq_true, decide_eq_true_eq, hbelow, List.any_eq_true, or_assoc]

/-! ### One rule -/

/-- Put in what a rule says. -/
def install (compile : Text → Except String (Text → Bool)) (set : DomainSet) :
    Rule → Except Error DomainSet
  | .full name => .ok { set with full := set.full.insert (normalizeDomain name) }
  | .keyword kw => .ok { set with keywords := set.keywords ++ [lowercase kw] }
  | .regexp expr =>
    match compile expr with
    | .error e => .error (.config ("bad regexp `" ++ String.ofList expr ++ "`: " ++ e))
    | .ok re => .ok { set with regexes := set.regexes ++ [re] }
  | .suffix name => .ok (set.insertSuffix (normalizeDomain name))

theorem addRule_eq (set : DomainSet) (raw : Text) : addRule compile set raw =
    match Rule.read raw with
    | none => .ok set
    | some r => install compile set r := by
  simp only [addRule, Rule.read]
  by_cases hblank : trim raw = [] ∨ (trim raw).head? = some '#'
  · rw [if_pos hblank, if_pos hblank]
  · rw [if_neg hblank, if_neg hblank]
    cases stripPrefix "full:".toList (trim raw) with
    | some name => rfl
    | none =>
      cases stripPrefix "keyword:".toList (trim raw) with
      | some kw => rfl
      | none =>
        cases stripPrefix "regexp:".toList (trim raw) with
        | some expr => rfl
        | none =>
          cases stripPrefix "domain:".toList (trim raw) with
          | some name => rfl
          | none => rfl

theorem below_insert (n : SuffixNode) (name d : Text) :
    Below (n.insert (labelsRev name)) d ↔
      Below n d ∨ (labels name <:+ labels d ∧ (labels name ≠ [] ∨ labels d = [])) := by
  simp only [Below, SuffixNode.ends_insert]
  constructor
  · rintro ⟨p, hp, hroot, rfl | he⟩
    · rw [labelsRev_eq, labelsRev_eq, List.reverse_prefix] at hp
      simp only [labelsRev_eq, ne_eq, List.reverse_eq_nil_iff] at hroot
      exact .inr ⟨hp, hroot⟩
    · exact .inl ⟨p, hp, hroot, he⟩
  · rintro (⟨p, hp, hroot, he⟩ | ⟨hs, hroot⟩)
    · exact ⟨p, hp, hroot, .inr he⟩
    · refine ⟨labelsRev name, ?_, ?_, .inl rfl⟩
      · rw [labelsRev_eq, labelsRev_eq, List.reverse_prefix]
        exact hs
      · simpa only [labelsRev_eq, ne_eq, List.reverse_eq_nil_iff] using hroot

/-- A rule adds the names it covers. -/
theorem contains_install {set set' : DomainSet} {r : Rule}
    (h : set.install compile r = .ok set') (d : Text) :
    set'.contains d = true ↔ set.contains d = true ∨ r.Covers compile (normalizeDomain d) := by
  cases r with
  | full name =>
    have hnew := Except.ok.inj h
    rw [contains_iff_below, contains_iff_below, ← hnew]
    simp only [Rule.Covers, Rule.Holds, Rule.HasLabel, true_or, and_true, List.mem_insert_iff,
      eq_comm (a := normalizeDomain d)]
    simp only [or_assoc, or_left_comm, or_comm]
  | keyword kw =>
    have hnew := Except.ok.inj h
    rw [contains_iff_below, contains_iff_below, ← hnew]
    simp only [Rule.Covers, Rule.Holds, Rule.HasLabel, true_or, and_true, List.mem_append,
      List.mem_singleton, or_and_right, exists_or, exists_eq_left]
    simp only [or_assoc, or_comm, or_left_comm]
  | regexp expr =>
    rw [install] at h
    cases hc : compile expr with
    | error e => simp [hc] at h
    | ok re =>
      rw [hc] at h
      have hnew := Except.ok.inj h
      rw [contains_iff_below, contains_iff_below, ← hnew]
      simp only [Rule.Covers, Rule.Holds, Rule.HasLabel, true_or, and_true, List.mem_append,
        List.mem_singleton, or_and_right, exists_or, exists_eq_left, hc, Except.ok.injEq,
        exists_eq_left']
      simp only [or_comm, or_left_comm]
  | suffix name =>
    have hnew := Except.ok.inj h
    rw [contains_iff_below, contains_iff_below, ← hnew]
    simp only [insertSuffix, below_insert, Rule.Covers, Rule.Holds, Rule.HasLabel]
    simp only [or_assoc, or_comm, or_left_comm]

/-! ### Lists of rules -/

/-- Some rule of the list holds of the normalized domain. -/
def SomeHolds (compile : Text → Except String (Text → Bool)) (rules : List Text) (d : Text) :
    Prop :=
  ∃ raw ∈ rules, ∃ r, Rule.read raw = some r ∧ r.Holds compile (normalizeDomain d)

/-- Some rule of the list covers the normalized domain. -/
def SomeCovers (compile : Text → Except String (Text → Bool)) (rules : List Text) (d : Text) :
    Prop :=
  ∃ raw ∈ rules, ∃ r, Rule.read raw = some r ∧ r.Covers compile (normalizeDomain d)

/-- Every suffix rule of the list has a label. -/
def Labelled (rules : List Text) : Prop := ∀ raw ∈ rules, ∀ r, Rule.read raw = some r → r.HasLabel

theorem Labelled.someCovers {rules : List Text} (hl : Labelled rules) (d : Text) :
    SomeCovers compile rules d ↔ SomeHolds compile rules d := by
  constructor
  · rintro ⟨raw, hm, r, hr, hholds, -⟩
    exact ⟨raw, hm, r, hr, hholds⟩
  · rintro ⟨raw, hm, r, hr, hholds⟩
    exact ⟨raw, hm, r, hr, hholds, .inl (hl raw hm r hr)⟩

theorem contains_foldlM {rules : List Text} {set set' : DomainSet}
    (h : rules.foldlM (addRule compile) set = .ok set') (d : Text) :
    set'.contains d = true ↔ set.contains d = true ∨ SomeCovers compile rules d := by
  induction rules generalizing set with
  | nil =>
    cases h
    simp [SomeCovers]
  | cons raw rules ih =>
    obtain ⟨mid, hstep, hrest⟩ := Fallible.bind_eq_ok.1 h
    rw [addRule_eq] at hstep
    cases hr : Rule.read raw with
    | none =>
      rw [hr] at hstep
      cases hstep
      rw [ih hrest]
      simp [SomeCovers, hr]
    | some r =>
      rw [hr] at hstep
      rw [ih hrest, contains_install hstep]
      simp [SomeCovers, hr, or_assoc]

theorem contains_new (d : Text) : new.contains d = false := by
  have hroot : SuffixNode.empty.suffixMatch (labelsRev (normalizeDomain d)) = false := by
    cases labelsRev (normalizeDomain d) <;> rfl
  simp [contains, new, suffixMatch, hroot]

/-- A set contains the domains that one of its rules covers. -/
theorem contains_build {rules : List Text} {set : DomainSet} (h : build compile rules = .ok set)
    (d : Text) : set.contains d = true ↔ SomeCovers compile rules d := by
  rw [contains_foldlM h, contains_new]
  simp

theorem install_eq_ok {set : DomainSet} {r : Rule} :
    (∃ set', set.install compile r = .ok set') ↔ r.Compiles compile := by
  cases r with
  | regexp expr =>
    cases hc : compile expr with
    | error e => simp [install, Rule.Compiles, hc]
    | ok re => simp [install, Rule.Compiles, hc]
  | _ => simp [install, Rule.Compiles]

/-- Whether rules are accepted depends on each of them alone. -/
theorem foldlM_eq_ok {rules : List Text} {set : DomainSet} :
    (∃ set', rules.foldlM (addRule compile) set = .ok set') ↔
      ∀ raw ∈ rules, ∀ r, Rule.read raw = some r → r.Compiles compile := by
  induction rules generalizing set with
  | nil => simp [pure, Except.pure]
  | cons raw rules ih =>
    rw [List.foldlM_cons, List.forall_mem_cons]
    simp only [Fallible.bind_eq_ok, addRule_eq]
    cases hr : Rule.read raw with
    | none =>
      simp only [reduceCtorEq, false_implies, implies_true, true_and]
      rw [← @ih set]
      simp
    | some r =>
      simp only [Option.some.injEq, forall_eq']
      rw [← install_eq_ok]
      constructor
      · rintro ⟨set', mid, hmid, hrest⟩
        exact ⟨⟨mid, hmid⟩, ih.1 ⟨set', hrest⟩⟩
      · rintro ⟨⟨mid, hmid⟩, hrules⟩
        obtain ⟨set', hrest⟩ := ih.2 hrules
        exact ⟨set', mid, hmid, hrest⟩

/-- A set contains the domains that one of its rules holds of, whatever the order of the rules, and
more rules contain no less. -/
theorem contains_iff_rules {rules : List Text} {set : DomainSet}
    (h : build compile rules = .ok set) (hl : Labelled rules) :
    (∀ d, set.contains d = true ↔ SomeHolds compile rules d) ∧
    (∀ rules', rules'.Perm rules → ∃ set', build compile rules' = .ok set' ∧
      ∀ d, set'.contains d = set.contains d) ∧
    ∀ rules' set', rules ⊆ rules' → Labelled rules' → build compile rules' = .ok set' →
      ∀ d, set.contains d = true → set'.contains d = true := by
  have holds {rules : List Text} {set : DomainSet} (h : build compile rules = .ok set)
      (hl : Labelled rules) (d : Text) : set.contains d = true ↔ SomeHolds compile rules d :=
    (contains_build h d).trans (hl.someCovers d)
  refine ⟨holds h hl, fun rules' hperm => ?_, fun rules' set' hsub hl' h' d hd => ?_⟩
  · have hcompiles := foldlM_eq_ok.1 ⟨set, h⟩
    obtain ⟨set', h'⟩ := foldlM_eq_ok.2 fun raw hm => hcompiles raw (hperm.mem_iff.1 hm)
    refine ⟨set', h', fun d => Bool.eq_iff_iff.2 ?_⟩
    rw [holds h hl, holds h' fun raw hm => hl raw (hperm.mem_iff.1 hm)]
    simp only [SomeHolds, hperm.mem_iff]
  · rw [holds h' hl']
    obtain ⟨raw, hm, hr⟩ := (holds h hl d).1 hd
    exact ⟨raw, hsub hm, hr⟩

/-- A full name, a comment and a suffix. -/
theorem contains_iff_rules_comment : ∃ set,
    build (fun _ => .error "no expressions")
      ["full:a.test".toList, "# b.test".toList, "Example.com.".toList] = .ok set ∧
    set.contains "www.example.COM".toList = true := by
  have hfull : Rule.read "full:a.test".toList = some (.full "a.test".toList) := by decide +kernel
  have hcomment : Rule.read "# b.test".toList = none := by decide +kernel
  have hsuffix : Rule.read "Example.com.".toList = some (.suffix "Example.com.".toList) := by
    decide +kernel
  have hl : Labelled ["full:a.test".toList, "# b.test".toList, "Example.com.".toList] := by
    simp only [Labelled, List.forall_mem_cons, hfull, hcomment, hsuffix, Option.some.injEq,
      forall_eq', Rule.HasLabel, true_and, reduceCtorEq, false_implies, implies_true]
    exact ⟨by decide +kernel, nofun⟩
  have hread : ∀ raw ∈ ["full:a.test".toList, "# b.test".toList, "Example.com.".toList],
      ∀ r, Rule.read raw = some r → r.Compiles fun _ => .error "no expressions" := by
    simp only [List.forall_mem_cons, hfull, hcomment, hsuffix, Option.some.injEq, forall_eq',
      Rule.Compiles, true_and, reduceCtorEq, false_implies, implies_true]
    nofun
  obtain ⟨set, h⟩ := foldlM_eq_ok.2 hread
  refine ⟨set, h, ((contains_iff_rules h hl).1 _).2 ?_⟩
  refine ⟨"Example.com.".toList, by simp, _, hsuffix, ?_⟩
  rw [Rule.Holds]
  decide +kernel

end DomainSet

end FerrumDns
