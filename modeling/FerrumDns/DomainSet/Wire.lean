import FerrumDns.Config
import FerrumDns.Dns.Pieces
import FerrumDns.Plugin.Actions
import FerrumDns.Sample

/-! Names from the wire against a rule. A set with one suffix rule compares parts of printed
names, a redirect with one rule compares the ends of printed names. Both find a rule whose
labels end the query's, unless it is the root's. Beyond that, a set finds a rule whose pieces
end the query's though labels begin at others of them, and a redirect finds a rule that is
printed as what follows a dot inside one of the query's labels. -/

namespace FerrumDns

open Text Escape

/-! ### Rules of a redirect -/

namespace Redirect

variable [Crates]

/-- A rule for a source and a target that are parsed. -/
def rule (source target : Name) : Text × Name :=
  (lowercase (trimDots (Crates.toAscii source)), target)

/-- `fromAscii` is `Name::from_ascii`. -/
def add (fromAscii : Text → Except String Name) (source target : Text) :
    Except Error (Text × Name) :=
  match fromAscii source with
  | .error e => .error (.config ("bad redirect source `" ++ String.ofList source ++ "`: " ++ e))
  | .ok s =>
    match fromAscii target with
    | .error e => .error (.config ("bad redirect target `" ++ String.ofList target ++ "`: " ++ e))
    | .ok t => .ok (rule s t)

def addEntry (fromAscii : Text → Except String Name) (entry : Value × Value) :
    Except Error (Text × Name) :=
  match entry.1.asStr with
  | none => .error (.config "redirect source must be a string")
  | some source =>
    match entry.2.asStr with
    | none => .error (.config "redirect target must be a string")
    | some target => add fromAscii source target

def addLine (fromAscii : Text → Except String Name) (item : Value) : Except Error (Text × Name) :=
  match item.asStr with
  | none => .error (.config "redirect rule must be a string")
  | some s =>
    match words s with
    | [source, target] => add fromAscii source target
    | _ => .error (.config "redirect rule needs source and target")

def fromArgs (fromAscii : Text → Except String Name) (args : Value) : Except Error Redirect :=
  match args.get "rules" with
  | none => .ok ⟨[]⟩
  | some (.mapping entries) => (entries.mapM (addEntry fromAscii)).map Redirect.mk
  | some (.sequence items) => (items.mapM (addLine fromAscii)).map Redirect.mk
  | some _ => .error (.config "redirect rules must be a map or list")

theorem eq_rule_of_add {fromAscii : Text → Except String Name} {source target : Text}
    {x : Text × Name} (h : add fromAscii source target = .ok x) : ∃ s t, x = rule s t := by
  unfold add at h
  split at h
  next => cases h
  next s _ =>
    split at h
    next => cases h
    next t _ => exact ⟨s, t, (Except.ok.inj h).symm⟩

/-- Every rule of a redirect is one for two names. -/
theorem eq_rule_of_fromArgs {fromAscii : Text → Except String Name} {args : Value} {r : Redirect}
    (h : fromArgs fromAscii args = .ok r) : ∀ x ∈ r.rules, ∃ s t, x = rule s t := by
  intro x hx
  unfold fromArgs at h
  split at h
  next =>
    cases h
    cases hx
  next entries _ =>
    obtain ⟨rules, hrules, rfl⟩ := Fallible.map_eq_ok.1 h
    obtain ⟨entry, -, hentry⟩ := Fallible.mem_of_mapM hrules hx
    unfold addEntry at hentry
    split at hentry
    next => cases hentry
    next =>
      split at hentry
      next => cases hentry
      next => exact eq_rule_of_add hentry
  next items _ =>
    obtain ⟨rules, hrules, rfl⟩ := Fallible.map_eq_ok.1 h
    obtain ⟨item, -, hitem⟩ := Fallible.mem_of_mapM hrules hx
    unfold addLine at hitem
    split at hitem
    next => cases hitem
    next =>
      split at hitem
      next => exact eq_rule_of_add hitem
      next => cases hitem
  next => cases h

end Redirect

namespace DomainSet

/-! ### One suffix rule -/

/-- A set with one suffix rule contains what ends in the rule's parts, the root's rule only what
has no parts. -/
theorem contains_suffix {compile : Text → Except String (Text → Bool)} {raw name : Text}
    {set : DomainSet} (hraw : Rule.read raw = some (.suffix name))
    (h : build compile [raw] = .ok set) (d : Text) :
    set.contains d = true ↔
      (labels (normalizeDomain name) = [] → labels (normalizeDomain d) = []) ∧
        labels (normalizeDomain name) <:+ labels (normalizeDomain d) := by
  have hset : set = new.insertSuffix (normalizeDomain name) := by
    rw [build, List.foldlM_cons, addRule_eq, hraw] at h
    exact (Except.ok.inj h).symm
  subst hset
  have hmatch : (new.insertSuffix (normalizeDomain name)).contains d = true ↔
      (SuffixNode.empty.insert (labelsRev (normalizeDomain name))).suffixMatch
        (labelsRev (normalizeDomain d)) = true := by
    simp [contains, insertSuffix, new, suffixMatch]
  rw [hmatch, SuffixNode.suffixMatch_iff]
  simp only [SuffixNode.ends_insert, SuffixNode.ends_empty, labelsRev_eq, List.reverse_eq_nil_iff]
  generalize labels (normalizeDomain name) = rule
  generalize labels (normalizeDomain d) = parts
  by_cases hrule : rule = []
  · subst hrule
    constructor
    · rintro (⟨hparts, -⟩ | ⟨p, hne, -, hp⟩)
      · exact ⟨fun _ => hparts, List.nil_suffix⟩
      · simp [hne] at hp
    · rintro ⟨hparts, -⟩
      exact .inl ⟨hparts rfl, rfl⟩
  · constructor
    · rintro (⟨-, hterminal⟩ | ⟨p, -, hp, heq⟩)
      · obtain ⟨lab, path, hpath⟩ := List.exists_cons_of_ne_nil (mt List.reverse_eq_nil_iff.1 hrule)
        rw [hpath] at hterminal
        cases hterminal
      · have hp' : p = rule.reverse := by simpa using heq
        rw [hp', List.reverse_prefix] at hp
        exact ⟨fun h => absurd h hrule, hp⟩
    · rintro ⟨-, hsuffix⟩
      exact .inr ⟨rule.reverse, by simpa using hrule, List.reverse_prefix.2 hsuffix, .inl rfl⟩

end DomainSet

/-! ### Labels and text -/

namespace Escape

variable {octet : Bool → UInt8 → Text}

/-- Where the query's pieces end in the rule's, labels begin at the same ones. -/
def Aligned (octet : Bool → UInt8 → Text) (q r : Name) : Prop :=
  ∀ v, v <:+ pieces q.labels → v.map (pieceText octet) = (pieces r.labels).map (pieceText octet) →
    v.map begins = (pieces r.labels).map begins

/-- What follows some dot inside a label of the query is printed as the rule. -/
def Hidden (octet : Bool → UInt8 → Text) (q r : Name) : Prop :=
  ∃ before first after, tokens q.labels = before ++ some (first, 46) :: after ∧
    spell octet after = lowercase (trimDots (printName octet r))

theorem pieces_eq_nil {labels : List Bytes} (hne : ∀ label ∈ labels, label ≠ []) :
    pieces labels = [] ↔ labels = [] := by
  constructor
  · intro h
    cases labels with
    | nil => rfl
    | cons label labels =>
      rw [pieces, List.flatMap_cons, List.append_eq_nil_iff] at h
      exact absurd h.1 (cut_ne_nil (flagged_ne_nil (hne label (by simp))))
  · rintro rfl
    rfl

/-- Parts that end in the rule's say that its labels end the query's as long as labels begin
at the same parts. -/
theorem Dotted.parts_iff (h : Dotted octet) (q r : Name) :
    ((((pieces r.labels).map (pieceText octet) = [] → (pieces q.labels).map (pieceText octet) = []) ∧
      (pieces r.labels).map (pieceText octet) <:+ (pieces q.labels).map (pieceText octet)) ↔
        r.lower.labels <:+ q.lower.labels) ↔
      (r.labels = [] → q.labels = []) ∧ Aligned octet q r := by
  simp only [List.map_eq_nil_iff, pieces_eq_nil q.nonempty, pieces_eq_nil r.nonempty,
    h.suffix_iff_pieces q r]
  have hsuffix : (pieces r.labels).map (pieceText octet) <:+ (pieces q.labels).map (pieceText octet) ↔
      ∃ v, v <:+ pieces q.labels ∧
        v.map (pieceText octet) = (pieces r.labels).map (pieceText octet) := by
    rw [List.suffix_map_iff]
    simp only [eq_comm]
  rw [hsuffix]
  constructor
  · intro hiff
    have hroot : r.labels = [] → q.labels = [] := by
      intro hr
      refine (hiff.2 ⟨[], List.nil_suffix, ?_, ?_⟩).1 hr
      all_goals
        rw [hr]
        rfl
    refine ⟨hroot, fun v hv htext => ?_⟩
    obtain ⟨w, hw, htext', hbegins⟩ := hiff.1 ⟨hroot, v, hv, htext⟩
    have hlength : v.length = w.length := by
      have hlen := congrArg List.length (htext.trans htext'.symm)
      rwa [List.length_map, List.length_map] at hlen
    have hvw : v <:+ w := List.suffix_of_suffix_length_le hv hw hlength.le
    rwa [hvw.eq_of_length hlength]
  · rintro ⟨hroot, haligned⟩
    constructor
    · rintro ⟨-, v, hv, htext⟩
      exact ⟨v, hv, htext, haligned v hv htext⟩
    · rintro ⟨v, hv, htext, -⟩
      exact ⟨hroot, v, hv, htext⟩

/-! ### Ends of a text -/

theorem Dotted.value_tokens (h : Dotted octet) (n : Name) :
    (tokens n.labels).map value = spelled n.labels := by
  rw [← h.read_spell (closed_tokens n.nonempty), ← h.spell_name, h.read_name]

theorem Dotted.spell_eq_iff (h : Dotted octet) (q r : Name) :
    spell octet (tokens q.labels) = spell octet (tokens r.labels) ↔
      q.lower.labels = r.lower.labels := by
  rw [← h.spell_name, ← h.spell_name, h.name_inj]

theorem closed_after {q : Name} {a b : List (Option (Bool × UInt8))} {x : Option (Bool × UInt8)}
    (hq : tokens q.labels = a ++ x :: b) : Closed b := by
  by_cases hb : b = []
  · subst hb
    simp [Closed]
  · have hall := closed_tokens q.nonempty
    rw [hq] at hall
    exact (hall.of_append (by simp)).tail hb

theorem tokens_append {a b : List Bytes} (ha : a ≠ []) (hb : b ≠ []) :
    tokens (a ++ b) = tokens a ++ none :: tokens b := by
  induction a with
  | nil => exact absurd rfl ha
  | cons label a ih =>
    by_cases hnil : a = []
    · subst hnil
      rw [List.cons_append, List.nil_append, tokens_cons hb]
      simp [tokens]
    · rw [List.cons_append, tokens_cons (by simp [hnil]), tokens_cons hnil, ih hnil]
      simp

/-- The last labels of a query, under the name they are of. -/
theorem tokens_of_suffix {q r : Name} (hr : r.labels ≠ [])
    (hs : r.lower.labels <:+ q.lower.labels) : ∃ b : Name, b.labels ≠ [] ∧
      b.lower.labels = r.lower.labels ∧ (tokens q.labels = tokens b.labels ∨
        ∃ a, tokens q.labels = a ++ none :: tokens b.labels) := by
  obtain ⟨u, hu⟩ := hs
  obtain ⟨a, b, hq, -, hb⟩ := List.map_eq_append_iff.1 hu.symm
  have hne : ∀ label ∈ b, label ≠ [] := fun label hl =>
    q.nonempty label (hq ▸ List.mem_append_right a hl)
  have hbne : b ≠ [] := by
    rintro rfl
    exact hr (List.map_eq_nil_iff.1 hb.symm)
  refine ⟨⟨b, true, hne⟩, hbne, hb, ?_⟩
  by_cases ha : a = []
  · subst ha
    exact .inl (congrArg tokens hq)
  · exact .inr ⟨tokens a, by rw [hq, tokens_append ha hbne]⟩

/-- A rule that has labels and ends the query is at the end of the query's text. -/
theorem Dotted.ends_of_suffix (h : Dotted octet) {q r : Name} (hr : r.labels ≠ [])
    (hs : r.lower.labels <:+ q.lower.labels) :
    spell octet (tokens q.labels) = spell octet (tokens r.labels) ∨
      '.' :: spell octet (tokens r.labels) <:+ spell octet (tokens q.labels) := by
  obtain ⟨b, hbne, hb, htokens⟩ := tokens_of_suffix hr hs
  rw [← (h.spell_eq_iff b r).2 hb]
  rcases htokens with htokens | ⟨a, htokens⟩
  · exact .inl (congrArg _ htokens)
  · rw [htokens]
    exact .inr (h.suffix_spell (.inl rfl) (tokens_ne_nil hbne b.nonempty))

/-- Behind a dot in the query's text the rule's text is that of its last labels, or hidden. -/
theorem Dotted.suffix_of_ends (h : Dotted octet) {q r : Name}
    (hs : '.' :: spell octet (tokens r.labels) <:+ spell octet (tokens q.labels)) :
    r.lower.labels <:+ q.lower.labels ∨ Hidden octet q r := by
  obtain ⟨u, hu⟩ := hs
  obtain ⟨a, x, b, hq, hb, hrest, hx⟩ := h.spell_eq_append hu.symm
  rcases hx with rfl | ⟨first, rfl⟩
  · have hvalue : b.map value = spelled r.labels := by
      rw [← h.read_spell (closed_after hq), ← hrest, h.read_spell (closed_tokens r.nonempty),
        h.value_tokens]
    have hspelled := h.value_tokens q
    rw [hq, List.map_append, List.map_cons, hvalue] at hspelled
    refine .inl (suffix_of_spelled ?_ ?_ hspelled.symm)
    · intro hnil
      rw [hnil] at hspelled
      simp [spelled] at hspelled
    · intro hnil
      rw [hnil] at hvalue
      exact hb (List.map_eq_nil_iff.1 hvalue)
  · exact .inr ⟨a, first, b, hq, by rw [← hrest, h.spell_name]⟩

/-- A hidden rule does not end the query. -/
theorem Dotted.not_suffix_of_hidden (h : Dotted octet) {q r : Name} (hh : Hidden octet q r)
    (hr : r.labels ≠ []) : ¬ r.lower.labels <:+ q.lower.labels := by
  intro hs
  obtain ⟨before, first, after, hq, hafter⟩ := hh
  obtain ⟨b, -, hb, htokens⟩ := tokens_of_suffix hr hs
  have hread := congrArg read hafter
  rw [h.read_spell (closed_after hq), h.read_name] at hread
  have hhidden := h.value_tokens q
  rw [hq, List.map_append, List.map_cons, hread] at hhidden
  have hsame : spelled b.labels = spelled r.labels := by
    rw [← h.read_name, ← h.read_name, (h.name_inj b r).2 hb]
  have hspelled := h.value_tokens q
  rcases htokens with htokens | ⟨a, htokens⟩
  · rw [htokens, h.value_tokens, hsame] at hspelled
    have hlen := congrArg List.length (hhidden.trans hspelled.symm)
    simp at hlen
    omega
  · rw [htokens, List.map_append, List.map_cons, h.value_tokens, hsame] at hspelled
    have hends := List.append_inj_right' (hhidden.trans hspelled.symm) (by simp)
    cases (List.cons.inj hends).1

/-- Only the root's own text is the root's, or ends in it after a dot. -/
theorem Dotted.ends_root (h : Dotted octet) (q : Name) {r : Name} (hr : r.labels = []) :
    (spell octet (tokens q.labels) = spell octet (tokens r.labels) ∨
      '.' :: spell octet (tokens r.labels) <:+ spell octet (tokens q.labels)) ↔ q.labels = [] := by
  have hnil : spell octet (tokens r.labels) = [] := by
    rw [hr]
    rfl
  constructor
  · rintro (heq | ⟨u, hu⟩)
    · have hlower := (h.spell_eq_iff q r).1 heq
      have hr' : r.lower.labels = [] := List.map_eq_nil_iff.2 hr
      exact List.map_eq_nil_iff.1 (hlower.trans hr')
    · obtain ⟨a, x, b, hq, hb, hrest, -⟩ := h.spell_eq_append hu.symm
      have hread := h.read_spell (closed_after hq)
      rw [← hrest, hnil] at hread
      exact absurd (List.map_eq_nil_iff.1 hread.symm) hb
  · intro hq
    exact .inl (by rw [hq, hr])

/-- A rule hidden in a query ends its text after a dot. -/
theorem Dotted.ends_of_hidden (h : Dotted octet) {q r : Name} (hr : r.labels ≠ [])
    (hh : Hidden octet q r) :
    '.' :: spell octet (tokens r.labels) <:+ spell octet (tokens q.labels) := by
  obtain ⟨before, first, after, hq, hafter⟩ := hh
  have hne : after ≠ [] := by
    rintro rfl
    have hread := congrArg read hafter
    rw [h.read_name] at hread
    exact hr ((spelled_eq_nil r.nonempty).1 hread.symm)
  have hends := h.suffix_spell (a := before) (.inr ⟨first, rfl⟩) hne
  rwa [← hq, hafter, h.spell_name] at hends

/-- A query's text is the rule's, or ends in it after a dot, exactly when the rule's labels end the
query's, unless the rule is the root's or is hidden in the query. -/
theorem Dotted.ends_iff (h : Dotted octet) (q r : Name) :
    ((spell octet (tokens q.labels) = spell octet (tokens r.labels) ∨
      '.' :: spell octet (tokens r.labels) <:+ spell octet (tokens q.labels)) ↔
        r.lower.labels <:+ q.lower.labels) ↔
      (r.labels = [] → q.labels = []) ∧ ¬ Hidden octet q r := by
  constructor
  · intro hiff
    have hroots : r.labels = [] → q.labels = [] := by
      intro hr
      have hr' : r.lower.labels = [] := List.map_eq_nil_iff.2 hr
      exact (h.ends_root q hr).1 (hiff.2 (hr' ▸ List.nil_suffix))
    refine ⟨hroots, fun hh => ?_⟩
    by_cases hr : r.labels = []
    · obtain ⟨before, first, after, hq, -⟩ := hh
      rw [hroots hr] at hq
      simp [tokens] at hq
    · exact h.not_suffix_of_hidden hh hr (hiff.1 (.inr (h.ends_of_hidden hr hh)))
  · rintro ⟨hroots, hh⟩
    constructor
    · rintro (heq | hs)
      · rw [(h.spell_eq_iff q r).1 heq]
      · exact (h.suffix_of_ends hs).resolve_right hh
    · intro hs
      by_cases hr : r.labels = []
      · exact (h.ends_root q hr).2 (hroots hr)
      · exact h.ends_of_suffix hr hs

end Escape

/-! ### Queries and rules -/

namespace Wire

section Rules

variable [Crates] {octet : Bool → UInt8 → Text} {ctx : QueryContext} {q r : Name}

/-- A set with one suffix rule respects labels where pieces and labels are aligned. -/
theorem set_iff (h : Dotted octet) (hascii : ∀ n, Crates.toAscii n = printName octet n)
    (hq : ctx.qname = some q) {compile : Text → Except String (Text → Bool)} {raw name : Text}
    {set : DomainSet} (hraw : DomainSet.Rule.read raw = some (.suffix name))
    (hname : DomainSet.normalizeDomain name = DomainSet.normalizeDomain (Crates.toAscii r))
    (hset : DomainSet.build compile [raw] = .ok set) :
    ((Matcher.Qname set).matches ctx = true ↔ r.lower.labels <:+ q.lower.labels) ↔
      (r.labels = [] → q.labels = []) ∧ Aligned octet q r := by
  have hstr : ctx.qnameStr = printName octet q := by
    rw [QueryContext.qnameStr, hq, Option.map_some, Option.getD_some, hascii]
  rw [Matcher.matches, hstr, DomainSet.contains_suffix hraw hset, hname, hascii,
    h.labels_normalize, h.labels_normalize]
  exact h.parts_iff q r

theorem covers_rule (r target : Name) (qn : Text) :
    Redirect.covers (Redirect.rule r target).1 qn = true ↔
      qn = lowercase (trimDots (Crates.toAscii r)) ∨
        '.' :: lowercase (trimDots (Crates.toAscii r)) <:+ qn := by
  have htrim : trimDots (lowercase (trimDots (Crates.toAscii r))) =
      lowercase (trimDots (Crates.toAscii r)) := by
    rw [lowercase_trimDots]
    exact List.rdropWhile_idempotent _ _
  rw [Redirect.covers, Redirect.rule, htrim, Bool.or_eq_true, beq_iff_eq, List.isSuffixOf_iff_suffix]

/-- A redirect with one rule respects labels where the rule is not hidden. -/
theorem redirect_iff (h : Dotted octet) (hascii : ∀ n, Crates.toAscii n = printName octet n)
    (hq : ctx.qname = some q) (target : Name) :
    (((Redirect.mk [Redirect.rule r target]).target ctx).isSome = true ↔
      r.lower.labels <:+ q.lower.labels) ↔
        (r.labels = [] → q.labels = []) ∧ ¬ Hidden octet q r := by
  have hsubject : Redirect.subject ctx = spell octet (tokens q.labels) := by
    rw [Redirect.subject, QueryContext.qnameStr, hq, Option.map_some, Option.getD_some, hascii,
      h.spell_name]
  have htarget : ((Redirect.mk [Redirect.rule r target]).target ctx).isSome = true ↔
      Redirect.covers (Redirect.rule r target).1 (Redirect.subject ctx) = true := by
    rw [Redirect.target, Option.isSome_map, List.find?_singleton]
    split_ifs with hc <;> simp [hc]
  rw [htarget, covers_rule, hsubject, hascii, h.spell_name]
  exact h.ends_iff q r

/-- A rule for a name matches a query exactly when its labels end the query's, in a set, if it is
not the root's and labels begin at the same pieces where pieces end in the rule's, in a redirect,
if it is not the root's and is not printed behind a dot inside a label. -/
theorem matches_iff_labels (h : Dotted octet) (hascii : ∀ n, Crates.toAscii n = printName octet n)
    (hq : ctx.qname = some q) {compile : Text → Except String (Text → Bool)} {raw name : Text}
    {set : DomainSet} (hraw : DomainSet.Rule.read raw = some (.suffix name))
    (hname : DomainSet.normalizeDomain name = DomainSet.normalizeDomain (Crates.toAscii r))
    (hset : DomainSet.build compile [raw] = .ok set) (target : Name) :
    (((Matcher.Qname set).matches ctx = true ↔ r.lower.labels <:+ q.lower.labels) ↔
      (r.labels = [] → q.labels = []) ∧ Aligned octet q r) ∧
    ((((Redirect.mk [Redirect.rule r target]).target ctx).isSome = true ↔
      r.lower.labels <:+ q.lower.labels) ↔
        (r.labels = [] → q.labels = []) ∧ ¬ Hidden octet q r) :=
  ⟨set_iff h hascii hq hraw hname hset, redirect_iff h hascii hq target⟩

end Rules

/-! ### A dot inside a label -/

namespace Sample

open FerrumDns.Sample

/-- `x.test`. -/
def rule : Name := { labels := [[120], [116, 101, 115, 116]], fqdn := true }

/-- The labels `a.x` and `test`. -/
def dotted : Name := { labels := [[97, 46, 120], [116, 101, 115, 116]], fqdn := true }

def context : QueryContext := .new { Message.new with queries := [⟨dotted, .A, .IN⟩] } none .Udp

def compile : Text → Except String (Text → Bool) := fun _ => .error "no expressions"

theorem dotted_printOctet : Dotted printOctet := { escaping with dot := by decide +kernel }

def ruleSet : DomainSet := DomainSet.new.insertSuffix (DomainSet.normalizeDomain "x.test".toList)

theorem read_rule : DomainSet.Rule.read "x.test".toList = some (.suffix "x.test".toList) := by
  decide +kernel

theorem build_rule : DomainSet.build compile ["x.test".toList] = .ok ruleSet := by
  rw [DomainSet.build, List.foldlM_cons, DomainSet.addRule_eq, read_rule]
  rfl

theorem set_matches : @Matcher.matches codec (.Qname ruleSet) context = true := by
  decide +kernel

theorem redirect_matches :
    (@Redirect.target codec ⟨[@Redirect.rule codec rule nsTest]⟩ context).isSome = true := by
  decide +kernel

theorem not_suffix : ¬ rule.lower.labels <:+ dotted.lower.labels := by decide

/-- Both matchers find a rule behind the dot of a label. -/
theorem matched_in_label : ∃ set, DomainSet.build compile ["x.test".toList] = .ok set ∧
    ¬ (@Matcher.matches codec (.Qname set) context = true ↔
      rule.lower.labels <:+ dotted.lower.labels) ∧
    ¬ ((@Redirect.target codec ⟨[@Redirect.rule codec rule nsTest]⟩ context).isSome = true ↔
      rule.lower.labels <:+ dotted.lower.labels) := by
  refine ⟨ruleSet, build_rule, fun h => ?_, fun h => ?_⟩
  · exact not_suffix (h.1 set_matches)
  · exact not_suffix (h.1 redirect_matches)

/-- The rule's labels begin at other pieces than the query's, and the rule is hidden in it. -/
theorem matches_iff_labels_dotted :
    ¬ Aligned printOctet dotted rule ∧ Hidden printOctet dotted rule := by
  have hname : DomainSet.normalizeDomain "x.test".toList =
      DomainSet.normalizeDomain (@Crates.toAscii codec rule) := by decide +kernel
  obtain ⟨hset, hredirect⟩ := @matches_iff_labels codec printOctet context dotted rule
    dotted_printOctet (fun _ => rfl) rfl compile _ _ ruleSet read_rule hname build_rule nsTest
  have hroot : rule.labels = [] → dotted.labels = [] := by simp [rule]
  constructor
  · intro haligned
    exact not_suffix ((hset.2 ⟨hroot, haligned⟩).1 set_matches)
  · by_contra hhidden
    exact not_suffix ((hredirect.2 ⟨hroot, hhidden⟩).1 redirect_matches)

end Sample

end Wire

end FerrumDns
