import FerrumDns.Cache.Key
import FerrumDns.Plugin.Actions
import FerrumDns.Transparency.Aging

/-! Redirects one after the other. What they make of a query depends on its questions
alone, and not on the ASCII case of their names. So requests with one cache key are
rewritten in parallel, along the same aliases. -/

namespace FerrumDns

open Dnsutil QueryContext

/-! ### Following redirects -/

/-- Give the first question this name. -/
def rename (name : Name) : List Query → List Query
  | [] => []
  | x :: rest => { x with name } :: rest

section Follow

variable [Crates]

/-- The alias that a redirect makes of the first question. -/
def Redirect.hop (r : Redirect) : List Query → Option (Name × Name)
  | [] => none
  | x :: _ => (r.rules.find? fun rule => covers rule.1 (Cache.keyName x.name)).bind fun rule =>
      let name : Name := { rule.2 with fqdn := true }
      if x.name.Same name then none else some (x.name, name)

/-- The questions behind some redirects, with the aliases made on the way. -/
def follow : List Redirect → List Query → List Query × List (Name × Name)
  | [], l => (l, [])
  | r :: rs, l =>
    match r.hop l with
    | none => follow rs l
    | some hop => ((follow rs (rename hop.2 l)).1, hop :: (follow rs (rename hop.2 l)).2)

theorem follow_none {r : Redirect} {l : List Query} (h : r.hop l = none) (rs : List Redirect) :
    follow (r :: rs) l = follow rs l := by
  rw [follow, h]

theorem follow_some {r : Redirect} {l : List Query} {hop : Name × Name} (h : r.hop l = some hop)
    (rs : List Redirect) : follow (r :: rs) l =
      ((follow rs (rename hop.2 l)).1, hop :: (follow rs (rename hop.2 l)).2) := by
  rw [follow, h]

theorem length_follow (rs : List Redirect) (l : List Query) :
    (follow rs l).1.length = l.length := by
  have hrename (name : Name) (l : List Query) : (rename name l).length = l.length := by
    cases l <;> rfl
  induction rs generalizing l with
  | nil => rfl
  | cons r rs ih =>
    cases hh : r.hop l with
    | none => rw [follow_none hh, ih]
    | some hop => rw [follow_some hh, ih, hrename]

theorem follow_append (rs rs' : List Redirect) (l : List Query) : follow (rs ++ rs') l =
    ((follow rs' (follow rs l).1).1, (follow rs l).2 ++ (follow rs' (follow rs l).1).2) := by
  induction rs generalizing l with
  | nil => rfl
  | cons r rs ih =>
    rw [List.cons_append]
    cases hh : r.hop l with
    | none => rw [follow_none hh, follow_none hh, ih]
    | some hop => rw [follow_some hh, follow_some hh, ih, List.cons_append]

end Follow

/-! ### Contexts -/

namespace QueryContext

/-- The contexts differ in their traces at most. -/
def Traced (a b : QueryContext) : Prop := ∃ trace, b = { a with trace }

@[refl] theorem Traced.refl (a : QueryContext) : Traced a a := ⟨a.trace, rfl⟩

theorem Traced.trans {a b c : QueryContext} (h : Traced a b) (h' : Traced b c) : Traced a c := by
  obtain ⟨t, rfl⟩ := h
  obtain ⟨t', rfl⟩ := h'
  exact ⟨t', rfl⟩

theorem Traced.push {a b : QueryContext} (h : Traced a b) (plugin event : String) :
    Traced a (b.pushTrace plugin event) :=
  h.trans (b.pushTrace_eq plugin event)

theorem Traced.hasResp {a b : QueryContext} (h : Traced a b) : b.hasResp = a.hasResp := by
  obtain ⟨t, rfl⟩ := h
  rfl

/-- The context with its questions as redirects leave them. -/
def moved (ctx : QueryContext) (target : List Query × List (Name × Name)) : QueryContext :=
  { ctx with
    query := { ctx.query with queries := target.1 }
    rewrites := ctx.rewrites ++ target.2 }

theorem moved_moved (ctx : QueryContext) (l l' : List Query) (as bs : List (Name × Name)) :
    (ctx.moved (l, as)).moved (l', bs) = ctx.moved (l', as ++ bs) := by
  simp [moved]

theorem Traced.moved {a b : QueryContext} (h : Traced a b)
    (target : List Query × List (Name × Name)) : Traced (a.moved target) (b.moved target) := by
  obtain ⟨t, rfl⟩ := h
  exact ⟨t, rfl⟩

end QueryContext

section Redirects

variable [Crates]

/-- A redirect moves the context along its alias, if it makes one. -/
theorem Redirect.exec_traced (r : Redirect) (ctx : QueryContext) :
    Traced (ctx.moved (follow [r] ctx.query.queries)) (r.exec ctx) := by
  have stay : ctx.moved (ctx.query.queries, []) = ctx := by
    simp [moved]
  cases hl : ctx.query.queries with
  | nil =>
    rw [follow_none rfl, follow, ← hl, stay, exec]
    cases r.target ctx with
    | none => exact .refl _
    | some name =>
      have hsame : ctx.rewriteName name = ctx := by rw [rewriteName, hl]
      simp only [hsame]
      exact (Traced.refl ctx).push _ _
  | cons x rest =>
    have htarget : r.target ctx = (r.rules.find? fun rule =>
        covers rule.1 (Cache.keyName x.name)).map Prod.snd := by
      rw [target, subject, qnameStr, qname, hl]
      rfl
    rw [exec, htarget]
    cases hf : r.rules.find? fun rule => covers rule.1 (Cache.keyName x.name) with
    | none =>
      rw [follow_none (by simp [hop, hf]), follow, ← hl, stay]
      exact .refl _
    | some rule =>
      by_cases hs : x.name.Same { rule.2 with fqdn := true }
      · have hsame : ctx.rewriteName rule.2 = ctx := by
          simp only [rewriteName, hl, if_pos hs]
        rw [follow_none (by simp [hop, hf, hs]), follow, ← hl, stay]
        simp only [Option.map_some, hsame]
        exact (Traced.refl ctx).push _ _
      · have hmoved : ctx.rewriteName rule.2 = ctx.moved
            (rename { rule.2 with fqdn := true } (x :: rest),
              [(x.name, { rule.2 with fqdn := true })]) := by
          simp only [rewriteName, hl, if_neg hs]
          rfl
        have hhop : r.hop (x :: rest) = some (x.name, { rule.2 with fqdn := true }) := by
          simp [hop, hf, hs]
        rw [follow_some hhop, follow]
        simp only [Option.map_some, hmoved]
        exact (Traced.refl _).push _ _

end Redirects

/-! ### Parallel chains -/

theorem Name.same_of_labels {a b : Name} (h : a.lower.labels = b.lower.labels)
    (hf : a.fqdn = b.fqdn) : a.Same b := by
  obtain ⟨l, f, hl⟩ := a
  obtain ⟨l', f', hl'⟩ := b
  obtain rfl : f = f' := hf
  simp only [Same, lower] at h ⊢
  simp only [h]

/-- The names of these questions are absolute, as they are in messages from the wire. -/
def Absolute (l : List Query) : Prop := ∀ x ∈ l, x.name.fqdn = true

theorem absolute_rename {name : Name} (hn : name.fqdn = true) {l : List Query} (h : Absolute l) :
    Absolute (rename name l) := by
  cases l with
  | nil => exact h
  | cons x rest =>
    intro y hy
    rcases List.mem_cons.1 hy with rfl | hy
    · exact hn
    · exact h y (by simp [hy])

theorem sameQueries_rename {l l' : List Query} (h : SameQueries l l') (name : Name) :
    SameQueries (rename name l) (rename name l') := by
  cases h with
  | nil => exact .nil
  | cons hxy h => exact .cons ⟨.refl _, hxy.2⟩ h

section Parallel

variable [Crates]

theorem Redirect.hop_absolute {r : Redirect} {l : List Query} {hop : Name × Name}
    (h : r.hop l = some hop) : hop.2.fqdn = true := by
  cases l with
  | nil => cases h
  | cons x rest =>
    obtain ⟨rule, -, hr⟩ := Option.bind_eq_some_iff.1 h
    dsimp only at hr
    split_ifs at hr
    cases hr
    rfl

theorem absolute_follow (rs : List Redirect) {l : List Query} (h : Absolute l) :
    Absolute (follow rs l).1 := by
  induction rs generalizing l with
  | nil => exact h
  | cons r rs ih =>
    cases hh : r.hop l with
    | none =>
      rw [follow_none hh]
      exact ih h
    | some hop =>
      rw [follow_some hh]
      exact ih (absolute_rename (r.hop_absolute hh) h)

/-- Redirects do not look at the ASCII case of a name. -/
theorem Redirect.hop_same (hprints : Crates.Prints) (r : Redirect) {l l' : List Query}
    (h : SameQueries l l') : Option.Rel SameHop (r.hop l) (r.hop l') := by
  cases h with
  | nil => exact .none
  | @cons x y l l' hxy _ =>
    have hkey : Cache.keyName x.name = Cache.keyName y.name :=
      (Cache.keyName_inj hprints).2 (congrArg Name.labels hxy.1)
    rw [hop, hop, hkey]
    cases r.rules.find? fun rule => covers rule.1 (Cache.keyName y.name) with
    | none => exact .none
    | some rule =>
      have hiff := same_congr hxy.1 (Name.Same.refl { rule.2 with fqdn := true })
      simp only [Option.bind_some, hiff]
      split_ifs
      · exact .none
      · exact .some ⟨hxy.1, rfl⟩

theorem follow_same (hprints : Crates.Prints) (rs : List Redirect) {l l' : List Query}
    (h : SameQueries l l') : SameQueries (follow rs l).1 (follow rs l').1 ∧
      List.Forall₂ SameHop (follow rs l).2 (follow rs l').2 := by
  induction rs generalizing l l' with
  | nil => exact ⟨h, .nil⟩
  | cons r rs ih =>
    have hrel := r.hop_same hprints h
    cases hh : r.hop l with
    | none =>
      rw [hh] at hrel
      cases hh' : r.hop l' with
      | some hop' => rw [hh'] at hrel; cases hrel
      | none =>
        rw [follow_none hh, follow_none hh']
        exact ih h
    | some hop =>
      rw [hh] at hrel
      cases hh' : r.hop l' with
      | none => rw [hh'] at hrel; cases hrel
      | some hop' =>
        rw [hh'] at hrel
        cases hrel with
        | some hsame =>
          obtain ⟨hu, hops⟩ := ih (sameQueries_rename h hop.2)
          rw [follow_some hh, follow_some hh', ← hsame.2]
          exact ⟨hu, .cons hsame hops⟩

end Parallel

/-! ### Requests with one key -/

namespace Cache

/-- Requests that agree on what their key is made of: on the fields of a simple key, or on all but
the id. -/
inductive SameFields (q q₀ : Message) : Prop
  | simple (hs : isSimple q = true) (hs₀ : isSimple q₀ = true) (ha : Agree q q₀)
  | whole (h : { q with id := 0 } = { q₀ with id := 0 })

theorem queries_of_whole {q q₀ : Message}
    (h : ({ q with id := 0 } : Message) = { q₀ with id := 0 }) : q.queries = q₀.queries := by
  have hq : ({ q with id := 0 } : Message).queries = ({ q₀ with id := 0 } : Message).queries := by
    rw [h]
  exact hq

namespace SameFields

variable {q q₀ : Message}

/-- Absolute names that agree up to ASCII case and final dot are the same. -/
theorem queries (h : SameFields q q₀) (ha : Absolute q.queries) (ha₀ : Absolute q₀.queries) :
    SameQueries q.queries q₀.queries := by
  cases h with
  | whole h =>
    rw [queries_of_whole h]
    exact List.forall₂_same.2 fun x _ => ⟨.refl _, rfl, rfl⟩
  | simple hs hs₀ h =>
    obtain ⟨x, y, hx, hy, hxy⟩ := h.question
    rw [hx] at ha ⊢
    rw [hy] at ha₀ ⊢
    have hfqdn : x.name.fqdn = y.name.fqdn := (ha x (by simp)).trans (ha₀ y (by simp)).symm
    exact .cons ⟨Name.same_of_labels hxy.name hfqdn, hxy.queryType, hxy.queryClass⟩ .nil

theorem edns (h : SameFields q q₀) : q.edns.isSome = q₀.edns.isSome := by
  cases h with
  | whole h =>
    have hedns : ({ q with id := 0 } : Message).edns = ({ q₀ with id := 0 } : Message).edns := by
      rw [h]
    exact congrArg Option.isSome hedns
  | simple hs hs₀ h => simpa [ednsVersion] using congrArg Option.isSome h.edns

theorem askedClass (h : SameFields q q₀) : askedClass q = askedClass q₀ := by
  cases h with
  | whole h => rw [FerrumDns.askedClass, FerrumDns.askedClass, queries_of_whole h]
  | simple hs hs₀ h =>
    obtain ⟨x, y, hx, hy, hxy⟩ := h.question
    simp [FerrumDns.askedClass, hx, hy, hxy.queryClass]

variable [Crates]

/-- Requests with one key do. -/
theorem of_keyOf (hprints : Crates.Prints) (hrt : Crates.RoundTrip)
    {everything everything₀ : Bool} {key : Text} (hq : keyOf q everything = some key)
    (hq₀ : keyOf q₀ everything₀ = some key) : SameFields q q₀ := by
  rcases (sameRequest_of_keyOf hprints hq hq₀).same with ⟨hs, hs₀, ha⟩ | ⟨-, -, wire, hw, hw₀⟩
  · exact .simple hs hs₀ ha
  · exact .whole (Except.ok.inj ((decode_of_encode hrt hw).symm.trans (decode_of_encode hrt hw₀)))

/-- They still do behind the same redirects. -/
theorem follow (hprints : Crates.Prints) (h : SameFields q q₀) (ha : Absolute q.queries)
    (ha₀ : Absolute q₀.queries) (rs : List Redirect) :
    SameFields { q with queries := (FerrumDns.follow rs q.queries).1 }
      { q₀ with queries := (FerrumDns.follow rs q₀.queries).1 } := by
  have hsame := (follow_same hprints rs (h.queries ha ha₀)).1
  cases h with
  | whole h =>
    rw [queries_of_whole h]
    have hrest (l : List Query) : ({ q with id := 0, queries := l } : Message) =
        { q₀ with id := 0, queries := l } :=
      congrArg (fun m : Message => { m with queries := l }) h
    exact .whole (hrest _)
  | simple hs hs₀ h =>
    obtain ⟨x, y, hx, hy, -⟩ := h.question
    obtain ⟨x', hx'⟩ := List.length_eq_one_iff.1 (length_follow rs q.queries |>.trans (by simp [hx]))
    obtain ⟨y', hy'⟩ := List.length_eq_one_iff.1 (length_follow rs q₀.queries |>.trans (by simp [hy]))
    rw [hx', hy'] at hsame ⊢
    cases hsame with
    | cons hxy _ =>
      refine .simple ?_ ?_ { h with question := ⟨x', y', rfl, rfl, ?_⟩ }
      · simpa [isSimple, hx] using hs
      · simpa [isSimple, hy] using hs₀
      · exact ⟨congrArg Name.labels hxy.1, hxy.2.1, hxy.2.2⟩

end SameFields

end Cache

end FerrumDns
