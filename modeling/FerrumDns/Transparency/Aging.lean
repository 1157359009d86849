import FerrumDns.Context

/-! Messages that differ in age only. A response bound to one question with the aliases
made after a point, aged, and bound to another question with the aliases made before that
point, is the response bound once with all of the aliases, aged: binding keeps the
smallest TTL, which the aliases take, and it adds no alias twice. -/

namespace FerrumDns

open Dnsutil QueryContext

/-! ### Ages -/

/-- The record with `s` seconds less to live, the ASCII case of its owner aside. -/
structure Record.Aged (s : ℕ) (r r' : Record) : Prop where
  name : r.name.Same r'.name
  dnsClass : r.dnsClass = r'.dnsClass
  ttl : r'.ttl.val = r.ttl.val - s
  rdata : r.rdata = r'.rdata

/-- Sections with the records of `l` aged, in order. -/
abbrev Aged (s : ℕ) (l l' : List Record) : Prop := List.Forall₂ (Record.Aged s) l l'

namespace Message

/-- What an upstream says: flags, code and records. -/
structure AgedBody (s : ℕ) (m m' : Message) : Prop where
  authoritative : m.authoritative = m'.authoritative
  truncated : m.truncated = m'.truncated
  recursionAvailable : m.recursionAvailable = m'.recursionAvailable
  authenticData : m.authenticData = m'.authenticData
  responseCode : m.responseCode = m'.responseCode
  answers : Aged s m.answers m'.answers
  nameServers : Aged s m.nameServers m'.nameServers
  additionals : Aged s m.additionals m'.additionals

/-- The whole message with its records aged. -/
structure Aged (s : ℕ) (m m' : Message) : Prop extends AgedBody s m m' where
  edns : m.edns = m'.edns
  id : m.id = m'.id
  messageType : m.messageType = m'.messageType
  opCode : m.opCode = m'.opCode
  recursionDesired : m.recursionDesired = m'.recursionDesired
  checkingDisabled : m.checkingDisabled = m'.checkingDisabled
  queries : m.queries = m'.queries

/-- No OPT record stands among those of a section. -/
def OptApart (m : Message) : Prop :=
  ∀ r ∈ m.answers ++ m.nameServers ++ m.additionals, r.recordType ≠ .OPT

end Message

theorem Record.Aged.trans {s t : ℕ} {a b c : Record} (h : a.Aged s b) (h' : b.Aged t c) :
    a.Aged (s + t) c where
  name := h.name.trans h'.name
  dnsClass := h.dnsClass.trans h'.dnsClass
  ttl := by rw [h'.ttl, h.ttl, Nat.sub_sub]
  rdata := h.rdata.trans h'.rdata

theorem Aged.trans {s t : ℕ} {l l' l'' : List Record} (h : Aged s l l') (h' : Aged t l' l'') :
    Aged (s + t) l l'' := by
  induction h generalizing l'' with
  | nil =>
    cases h'
    exact .nil
  | cons hr _ ih =>
    cases h' with
    | cons hr' h' => exact .cons (hr.trans hr') (ih h')

/-- Subtracting the age. -/
theorem aged_bump {l : List Record} (h : ∀ r ∈ l, r.recordType ≠ .OPT) (s : U32) :
    Aged s.val l (l.map (bump s)) := by
  rw [Aged, List.forall₂_map_right_iff, List.forall₂_same]
  intro r hr
  rw [bump, if_neg (h r hr)]
  exact ⟨.refl _, rfl, rfl, rfl⟩

/-! ### The smallest TTL -/

/-- The smallest of some TTLs, 0 if there are none. -/
def least (l : List U32) : U32 := l.min?.getD 0

theorem least_cons (x : U32) {l : List U32} (h : l ≠ []) : least (x :: l) = min x (least l) := by
  obtain ⟨m, hm⟩ := Option.isSome_iff_exists.1 (List.isSome_min?_of_ne_nil h)
  rw [least, least, List.min?_cons, hm]
  rfl

theorem least_aged {s : ℕ} {l l' : List Record} (h : Aged s l l') :
    (least (l'.map Record.ttl)).val = (least (l.map Record.ttl)).val - s := by
  induction h with
  | nil => simp [least]
  | @cons r r' l l' hr h ih =>
    by_cases hnil : l = []
    · subst hnil
      cases h
      simpa [least] using hr.ttl
    · have hnil' : l' ≠ [] := by
        rintro rfl
        exact hnil (List.forall₂_nil_right_iff.1 h)
      rw [List.map_cons, List.map_cons, least_cons _ (by simpa using hnil'),
        least_cons _ (by simpa using hnil), Fin.coe_min, Fin.coe_min, ih, hr.ttl]
      omega

/-- Records with the smallest TTL of a list do not change it. -/
theorem least_append {l l' : List U32} (h : ∀ x ∈ l, x = least l') :
    least (l ++ l') = least l' := by
  induction l with
  | nil => rfl
  | cons x l ih =>
    have hx : x = least l' := h x (by simp)
    have hl := ih fun y hy => h y (by simp [hy])
    by_cases hnil : l ++ l' = []
    · obtain ⟨rfl, rfl⟩ := List.append_eq_nil_iff.1 hnil
      exact hx
    · rw [List.cons_append, least_cons _ hnil, hl, hx, min_self]

theorem minTtl_eq (m : Message) :
    minTtl m = least (m.answers.map Record.ttl ++ m.nameServers.map Record.ttl) := by
  rw [minTtl, least, List.map_append]

theorem Message.AgedBody.minTtl {s : ℕ} {m m' : Message} (h : m.AgedBody s m') :
    (Dnsutil.minTtl m').val = (Dnsutil.minTtl m).val - s := by
  have hl := least_aged (List.rel_append h.answers h.nameServers)
  simpa only [minTtl_eq, List.map_append] using hl

theorem Message.AgedBody.trans {s t : ℕ} {a b c : Message} (h : a.AgedBody s b)
    (h' : b.AgedBody t c) : a.AgedBody (s + t) c where
  authoritative := h.authoritative.trans h'.authoritative
  truncated := h.truncated.trans h'.truncated
  recursionAvailable := h.recursionAvailable.trans h'.recursionAvailable
  authenticData := h.authenticData.trans h'.authenticData
  responseCode := h.responseCode.trans h'.responseCode
  answers := h.answers.trans h'.answers
  nameServers := h.nameServers.trans h'.nameServers
  additionals := h.additionals.trans h'.additionals

theorem agedBody_subtractTtl {m : Message} (h : m.OptApart) (s : U32) :
    m.AgedBody s.val (subtractTtl m s) where
  authoritative := rfl
  truncated := rfl
  recursionAvailable := rfl
  authenticData := rfl
  responseCode := rfl
  answers := aged_bump (fun r hr => h r (by simp [hr])) s
  nameServers := aged_bump (fun r hr => h r (by simp [hr])) s
  additionals := aged_bump (fun r hr => h r (by simp [hr])) s

/-- Rebinding touches the header and the EDNS record only. -/
theorem Message.AgedBody.rebind {s : ℕ} {m m' : Message} (h : m.AgedBody s m') (q : Message) :
    m.AgedBody s (rebindResponse m' q) :=
  { h with }

/-! ### Aliases -/

/-- Aliases that differ in the ASCII case of the name they leave. -/
def SameHop (a b : Name × Name) : Prop := a.1.Same b.1 ∧ a.2 = b.2

/-- The class that aliases are made in. -/
def askedClass (q : Message) : DNSClass := (q.queries.head?.map Query.queryClass).getD .IN

theorem aliasRecord_eq (q : Message) (ttl : U32) (hop : Name × Name) :
    aliasRecord q ttl hop = ⟨hop.1, askedClass q, ttl, .CNAME hop.2⟩ := by
  simp only [aliasRecord, askedClass]
  cases q.queries.head? <;> rfl

theorem same_congr {a a' b b' : Name} (h : a.Same a') (h' : b.Same b') : a.Same b ↔ a'.Same b' :=
  ⟨fun hs => (h.symm.trans hs).trans h', fun hs => (h.trans hs).trans h'.symm⟩

theorem hasAlias_aged {s : ℕ} {l l' : List Record} (h : Aged s l l') {a b : Name × Name}
    (hab : SameHop a b) : hasAlias l a = hasAlias l' b := by
  obtain ⟨a₁, a₂⟩ := a
  obtain ⟨b₁, b₂⟩ := b
  obtain ⟨hname, rfl⟩ : a₁.Same b₁ ∧ a₂ = b₂ := hab
  rw [hasAlias, hasAlias]
  induction h with
  | nil => rfl
  | cons hr _ ih => simp only [List.any_cons, ih, hr.rdata, same_congr hr.name hname]

theorem hasAlias_append (l l' : List Record) (hop : Name × Name) :
    hasAlias (l ++ l') hop = (hasAlias l hop || hasAlias l' hop) :=
  List.any_append

/-- No record of this owner is an alias. -/
theorem hasAlias_of_owner {l : List Record} {hop : Name × Name}
    (h : ∀ r ∈ l, ¬ r.name.Same hop.1) : hasAlias l hop = false := by
  rw [hasAlias, List.any_eq_false]
  intro r hr
  simp [h r hr]

theorem aliasRecords_append (m q : Message) (as bs : List (Name × Name)) :
    aliasRecords m q (as ++ bs) = aliasRecords m q as ++ aliasRecords m q bs := by
  simp [aliasRecords]

/-- Aliases are aged with the response that they take their TTL from. -/
theorem aliasRecords_aged {s : ℕ} {m m' q q' : Message} {as as' : List (Name × Name)}
    (h : m.AgedBody s m') (hclass : askedClass q = askedClass q')
    (hops : List.Forall₂ SameHop as as') : Aged s (aliasRecords m q as) (aliasRecords m' q' as') := by
  induction hops with
  | nil => exact .nil
  | @cons a b as as' hab _ ih =>
    have hkept : hasAlias m.answers a = hasAlias m'.answers b := hasAlias_aged h.answers hab
    simp only [aliasRecords, List.filter_cons] at ih ⊢
    rw [← hkept]
    split_ifs
    · refine .cons ?_ ih
      rw [aliasRecord_eq, aliasRecord_eq]
      exact ⟨hab.1, hclass, h.minTtl, congrArg RData.CNAME hab.2⟩
    · exact ih

theorem mem_aliasRecords {m q : Message} {as : List (Name × Name)} {r : Record}
    (h : r ∈ aliasRecords m q as) : ∃ a ∈ as, r = ⟨a.1, askedClass q, minTtl m, .CNAME a.2⟩ := by
  obtain ⟨a, ha, rfl⟩ := List.mem_map.1 h
  exact ⟨a, (List.mem_filter.1 ha).1, aliasRecord_eq q _ a⟩

/-! ### Binding -/

/-- Binding a response whose code leaves room for aliases. -/
theorem bindResponse_eq {m : Message}
    (hcode : m.responseCode = .NoError ∨ m.responseCode = .NXDomain) (q : Message)
    (as : List (Name × Name)) : bindResponse m q as = { rebindResponse m q with
      answers := aliasRecords m q as ++ m.answers
      authenticData := m.authenticData && as.isEmpty } := by
  simp only [bindResponse]
  cases as with
  | nil =>
    rw [if_neg (by simp)]
    simp [rebindResponse, aliasRecords]
  | cons a as =>
    rw [if_pos ⟨by simp, hcode⟩]
    simp only [List.isEmpty_cons, Bool.and_false]
    rfl

theorem responseCode_bindResponse (m q : Message) (as : List (Name × Name)) :
    (bindResponse m q as).responseCode = m.responseCode := by
  simp only [bindResponse]
  split_ifs <;> rfl

theorem Message.AgedBody.bind {s : ℕ} {m m' q q' : Message} {as as' : List (Name × Name)}
    (h : m.AgedBody s m') (hcode : m.responseCode = .NoError) (hclass : askedClass q = askedClass q')
    (hops : List.Forall₂ SameHop as as') :
    (bindResponse m q as).AgedBody s (bindResponse m' q' as') := by
  rw [bindResponse_eq (.inl hcode), bindResponse_eq (.inl (h.responseCode ▸ hcode))]
  have hnil : as.isEmpty = as'.isEmpty := by
    cases hops <;> rfl
  exact
    { h with
      answers := List.rel_append (aliasRecords_aged h hclass hops) h.answers
      authenticData := by rw [h.authenticData, hnil] }

theorem Message.OptApart.bind {m : Message} (h : m.OptApart) (q : Message)
    (as : List (Name × Name)) (hcode : m.responseCode = .NoError) :
    (bindResponse m q as).OptApart := by
  intro r hr
  rw [bindResponse_eq (.inl hcode)] at hr
  simp only [rebindResponse, List.append_assoc, List.mem_append] at hr
  rcases hr with hr | hr
  · obtain ⟨a, -, rfl⟩ := mem_aliasRecords hr
    simp [Record.recordType, RData.recordType]
  · exact h r (by simpa using hr)

theorem rebindEdns_rebindEdns (r : Option Edns) {e e' : Option Edns} (h : e.isSome = e'.isSome) :
    rebindEdns (rebindEdns r e) e' = rebindEdns r e' := by
  cases r <;> cases e <;> cases e' <;> first | rfl | cases h

/-- Aliases may be added in two turns, the later ones first, if none is made twice. -/
theorem bindResponse_bindResponse {m : Message} (hcode : m.responseCode = .NoError) (q : Message)
    {as bs : List (Name × Name)} (h : ∀ a ∈ as, ∀ b ∈ bs, ¬ b.1.Same a.1) :
    bindResponse (bindResponse m q bs) q as = bindResponse m q (as ++ bs) := by
  have hcode' := (responseCode_bindResponse m q bs).trans hcode
  have hmin : minTtl (bindResponse m q bs) = minTtl m := by
    rw [bindResponse_eq (.inl hcode), minTtl_eq, minTtl_eq]
    simp only [List.map_append, List.append_assoc]
    apply least_append
    intro ttl httl
    obtain ⟨r, hr, rfl⟩ := List.mem_map.1 httl
    obtain ⟨b, -, rfl⟩ := mem_aliasRecords hr
    exact minTtl_eq m
  have hkept : ∀ a ∈ as, hasAlias (bindResponse m q bs).answers a = hasAlias m.answers a := by
    intro a ha
    rw [bindResponse_eq (.inl hcode), hasAlias_append, hasAlias_of_owner, Bool.false_or]
    intro r hr
    obtain ⟨b, hb, rfl⟩ := mem_aliasRecords hr
    exact h a ha b hb
  have hsame : aliasRecords (bindResponse m q bs) q as = aliasRecords m q as := by
    rw [aliasRecords, aliasRecords, hmin]
    congr 1
    exact List.filter_congr fun a ha => by rw [hkept a ha]
  rw [bindResponse_eq (.inl hcode'), hsame, bindResponse_eq (.inl hcode), bindResponse_eq (.inl hcode),
    aliasRecords_append]
  have hempty : (as ++ bs).isEmpty = (bs.isEmpty && as.isEmpty) := by
    cases as <;> cases bs <;> rfl
  simp only [rebindResponse, rebindEdns_rebindEdns, List.append_assoc, hempty, Bool.and_assoc]

/-- Replies to one query are equal but for their age when what they say is. -/
theorem Message.AgedBody.replied {s : ℕ} {m m' q : Message} {as as' : List (Name × Name)}
    (h : (bindResponse m q as).AgedBody s (bindResponse m' q as'))
    (hedns : rebindEdns m.edns q.edns = rebindEdns m'.edns q.edns) :
    (bindResponse m q as).Aged s (bindResponse m' q as') := by
  have header (m : Message) (as : List (Name × Name)) :
      (bindResponse m q as).id = q.id ∧ (bindResponse m q as).messageType = .Response ∧
        (bindResponse m q as).opCode = q.opCode ∧
        (bindResponse m q as).recursionDesired = q.recursionDesired ∧
        (bindResponse m q as).checkingDisabled = q.checkingDisabled ∧
        (bindResponse m q as).queries = q.queries ∧
        (bindResponse m q as).edns = rebindEdns m.edns q.edns := by
    simp only [bindResponse]
    split_ifs <;> exact ⟨rfl, rfl, rfl, rfl, rfl, rfl, rfl⟩
  obtain ⟨hid, htype, hop, hrd, hcd, hqueries, he⟩ := header m as
  obtain ⟨hid', htype', hop', hrd', hcd', hqueries', he'⟩ := header m' as'
  exact
    { h with
      id := hid.trans hid'.symm
      messageType := htype.trans htype'.symm
      opCode := hop.trans hop'.symm
      recursionDesired := hrd.trans hrd'.symm
      checkingDisabled := hcd.trans hcd'.symm
      queries := hqueries.trans hqueries'.symm
      edns := he.trans (hedns.trans he'.symm) }

/-- The identifier and the type of a response do not matter to binding. -/
theorem bindResponse_stamped (m q : Message) (as : List (Name × Name)) (id : UInt16) :
    bindResponse { m with id, messageType := .Response } q as = bindResponse m q as :=
  rfl

/-- A response stored for one question with the aliases made behind it, aged, and served to another
with the aliases made before it, is the other's response with all aliases, aged. -/
theorem bound_aged {m₁ m₂ q₁ q₂ q : Message} {as bs₁ bs₂ : List (Name × Name)} (s : U32)
    (hbody : m₂.AgedBody 0 m₁) (hedns : m₂.edns = m₁.edns) (hopt : m₁.OptApart)
    (hcode : m₁.responseCode = .NoError) (hclass : askedClass q = askedClass q₁)
    (hq₁ : q₁.edns.isSome = q.edns.isSome) (hq₂ : q₂.edns.isSome = q.edns.isSome)
    (hops : List.Forall₂ SameHop bs₂ bs₁) (hleft : ∀ a ∈ as, ∀ b ∈ bs₂, ¬ b.1.Same a.1) :
    (bindResponse m₂ q (as ++ bs₂)).Aged s.val
      (bindResponse (rebindResponse (subtractTtl (bindResponse m₁ q₁ bs₁) s) q₂) q as) := by
  have hcode₂ : m₂.responseCode = .NoError := hbody.responseCode.trans hcode
  have hstored : (bindResponse m₂ q bs₂).AgedBody 0 (bindResponse m₁ q₁ bs₁) :=
    hbody.bind hcode₂ hclass hops
  have hserved := hstored.trans (agedBody_subtractTtl (hopt.bind q₁ bs₁ hcode) s)
  rw [Nat.zero_add] at hserved
  have hfinal : (bindResponse (bindResponse m₂ q bs₂) q as).AgedBody s.val (bindResponse
      (rebindResponse (subtractTtl (bindResponse m₁ q₁ bs₁) s) q₂) q as) :=
    (hserved.rebind q₂).bind ((responseCode_bindResponse m₂ q bs₂).trans hcode₂) rfl
      (List.forall₂_same.2 fun a _ => ⟨.refl _, rfl⟩)
  rw [bindResponse_bindResponse hcode₂ q hleft] at hfinal
  have hstoredEdns : (bindResponse m₁ q₁ bs₁).edns = rebindEdns m₁.edns q₁.edns := by
    rw [bindResponse_eq (.inl hcode)]
    rfl
  refine hfinal.replied ?_
  change _ = rebindEdns (rebindEdns (bindResponse m₁ q₁ bs₁).edns q₂.edns) q.edns
  rw [hstoredEdns, rebindEdns_rebindEdns _ hq₂, rebindEdns_rebindEdns _ hq₁, hedns]

end FerrumDns
