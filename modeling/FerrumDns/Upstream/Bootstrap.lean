import FerrumDns.Upstream.Target
import Mathlib.Data.List.Destutter

/-! Looking up the host of an upstream over a bootstrap server. The addresses of both
look-ups are sorted by family, which keeps the order of arrival within a family, and
neighbours that are equal are merged. An address that comes back after another one of its
family stays a duplicate. -/

namespace FerrumDns

open Text
open scoped List

section Lists

variable {α : Type} [DecidableEq α]

/-! ### Merging equal neighbours -/

theorem mem_destutter_ne {a : α} {l : List α} : a ∈ l.destutter (· ≠ ·) ↔ a ∈ l := by
  induction l with
  | nil => rfl
  | cons x l ih =>
    cases l with
    | nil => rfl
    | cons y l =>
      rw [List.destutter_cons_cons, ← List.destutter_cons', ← List.destutter_cons']
      by_cases hxy : x = y
      · subst hxy
        rw [if_neg (by simp), ih]
        simp
      · rw [if_pos hxy, List.mem_cons, ih, ← List.mem_cons]

/-- Merging neighbours leaves no duplicates when no element comes back after another one. -/
theorem nodup_destutter_ne {l : List α} :
    (l.destutter (· ≠ ·)).Nodup ↔ ∀ a b, a ≠ b → ¬ [a, b, a] <+ l := by
  induction l with
  | nil => simp
  | cons x l ih =>
    cases l with
    | nil => simp [List.sublist_cons_iff]
    | cons y l =>
      rw [List.destutter_cons_cons, ← List.destutter_cons', ← List.destutter_cons']
      by_cases hxy : x = y
      · subst hxy
        rw [if_neg (by simp), ih]
        refine forall_congr' fun a => forall_congr' fun b => imp_congr_right fun hab => not_congr ?_
        refine ⟨fun h => h.trans (List.sublist_cons_self _ _), fun h => ?_⟩
        rcases List.sublist_cons_iff.1 h with h | ⟨r, hr, h⟩
        · exact h
        · -- The first element is `x`, and the second one is not.
          obtain ⟨rfl, rfl⟩ := List.cons.inj hr
          rcases List.sublist_cons_iff.1 h with h | ⟨r, hr, -⟩
          · exact h.cons_cons _
          · exact absurd (List.cons.inj hr).1.symm hab
      · rw [if_pos hxy, List.nodup_cons, mem_destutter_ne, ih]
        constructor
        · rintro ⟨hx, hl⟩ a b hab h
          rcases List.sublist_cons_iff.1 h with h | ⟨r, hr, h⟩
          · exact hl a b hab h
          · obtain ⟨rfl, rfl⟩ := List.cons.inj hr
            exact hx (h.subset (by simp))
        · intro hl
          refine ⟨fun hx => ?_, fun a b hab h => hl a b hab (h.trans (List.sublist_cons_self _ _))⟩
          have hx' : x ∈ l := by simpa [hxy] using hx
          exact hl x y hxy (((List.singleton_sublist.2 hx').cons_cons y).cons_cons x)

/-! ### Sorting by a flag -/

omit [DecidableEq α] in
theorem filter_append_filter {p : α → Bool} {l : List α} (h : l.Pairwise fun a b => p a || !p b) :
    l.filter p ++ l.filter (!p ·) = l := by
  induction l with
  | nil => rfl
  | cons x l ih =>
    rw [List.pairwise_cons] at h
    by_cases hx : p x = true
    · simp [hx, ih h.2]
    · have hall : ∀ y ∈ l, ¬ p y = true := fun y hy => by simpa [hx] using h.1 y hy
      rw [List.filter_eq_nil_iff.2 (List.forall_mem_cons.2 ⟨hx, hall⟩), List.nil_append,
        List.filter_eq_self]
      simpa [hx] using hall

omit [DecidableEq α] in
/-- A stable sort by a flag keeps the order of those with the flag and of those without. -/
theorem mergeSort_flag (p : α → Bool) (l : List α) :
    l.mergeSort (fun a b => p a || !p b) = l.filter p ++ l.filter (!p ·) := by
  have htrans : ∀ a b c : α, (p a || !p b) = true → (p b || !p c) = true → (p a || !p c) = true := by
    intro a b c
    cases p a <;> cases p b <;> simp
  have htotal : ∀ a b : α, ((p a || !p b) || (p b || !p a)) = true := by
    intro a b
    cases p a <;> cases p b <;> rfl
  have hkeep {q : α → Bool} (hq : ∀ a b, q a = true → q b = true → (p a || !p b) = true) :
      (l.mergeSort fun a b => p a || !p b).filter q = l.filter q := by
    have hpair : (l.filter q).Pairwise fun a b => (p a || !p b) = true := by
      refine List.pairwise_of_forall_mem_list fun a ha b hb => ?_
      exact hq a b (List.of_mem_filter ha) (List.of_mem_filter hb)
    have hsub := (List.sublist_mergeSort htrans htotal hpair List.filter_sublist).filter q
    rw [List.filter_filter, List.filter_congr fun a _ => Bool.and_self (q a)] at hsub
    refine (hsub.eq_of_length ?_).symm
    exact ((List.mergeSort_perm l _).filter q).length_eq.symm
  have hsorted := List.pairwise_mergeSort htrans htotal l
  rw [← filter_append_filter hsorted, hkeep, hkeep]
  · intro a b ha hb
    rw [Bool.not_eq_true'] at hb
    simp [hb]
  · intro a b ha hb
    simp [ha]

end Lists

namespace Bootstrap

/-! ### The look-ups -/

/-- How the look-up of one family ends. -/
inductive Lookup where
  | answered (ips : List IpAddr)
  | failed (e : Error)
  | timedOut
  deriving DecidableEq, Repr

def Lookup.ips : Lookup → List IpAddr
  | answered ips => ips
  | failed _ | timedOut => []

/-- `sort_by_key`, by whether an address is not of the first family. -/
def sortByFamily (ips : List IpAddr) : List IpAddr := ips.mergeSort fun a b => a.isIpv4 || !b.isIpv4

/-- `dedup`. -/
def dedup (ips : List IpAddr) : List IpAddr := ips.destutter (· ≠ ·)

/-- The addresses of both look-ups, in the order of arrival. -/
def arrived (lookup : RecordType → Lookup) (ended : List RecordType) : List IpAddr :=
  ended.flatMap fun qtype => (lookup qtype).ips

/-- The look-ups of both types, in the order in which they end. -/
def bootstrapIps (bootstrap hostname : Text) (lookup : RecordType → Lookup)
    (ended : List RecordType) : Except Error (List IpAddr) := do
  let _boot ← Target.bootstrapSocket bootstrap
  let ips := arrived lookup ended
  if ips ≠ [] then .ok (dedup (sortByFamily ips))
  else
    .error (.config ("bootstrap " ++ String.ofList bootstrap ++ " could not resolve " ++
      String.ofList hostname))

/-- The two orders in which the look-ups can end. -/
def orders : List (List RecordType) := [[.A, .AAAA], [.AAAA, .A]]

/-- Both families, the first one before the second. -/
def FamiliesInOrder (ips : List IpAddr) : Prop :=
  ∃ v4 v6, ips = v4 ++ v6 ∧ (∀ ip ∈ v4, ip.isIpv4 = true) ∧ ∀ ip ∈ v6, ip.isIpv4 = false

/-- What the look-ups should come to: addresses if there are any, each of them once. -/
structure Canonical (boot hostname : Text) (lookup : RecordType → Lookup) : Prop where
  succeeds : ∀ ended ∈ orders, (∃ ips, bootstrapIps boot hostname lookup ended = .ok ips) ↔
    (lookup .A).ips ≠ [] ∨ (lookup .AAAA).ips ≠ []
  returned : ∀ ended ∈ orders, ∀ ips, bootstrapIps boot hostname lookup ended = .ok ips →
    (∀ ip, ip ∈ ips ↔ ip ∈ (lookup .A).ips ∨ ip ∈ (lookup .AAAA).ips) ∧ ips.Nodup ∧
      FamiliesInOrder ips
  same : (∀ ip ∈ (lookup .A).ips, ip.isIpv4 = true) →
    (∀ ip ∈ (lookup .AAAA).ips, ip.isIpv4 = false) →
      bootstrapIps boot hostname lookup [.A, .AAAA] = bootstrapIps boot hostname lookup [.AAAA, .A]

/-- No address comes back after another one of its family. -/
def NoReturn (ips : List IpAddr) : Prop :=
  ∀ a b, a ≠ b → a.isIpv4 = b.isIpv4 → ¬ [a, b, a] <+ ips

theorem sortByFamily_eq (ips : List IpAddr) :
    sortByFamily ips = ips.filter IpAddr.isIpv4 ++ ips.filter (!·.isIpv4) :=
  mergeSort_flag _ _

theorem familiesInOrder_dedup (ips : List IpAddr) : FamiliesInOrder (dedup (sortByFamily ips)) := by
  have hsub : dedup (sortByFamily ips) <+ ips.filter IpAddr.isIpv4 ++ ips.filter (!·.isIpv4) :=
    sortByFamily_eq ips ▸ List.destutter_sublist _ _
  obtain ⟨v4, v6, heq, h4, h6⟩ := List.sublist_append_iff.1 hsub
  refine ⟨v4, v6, heq, fun ip hip => List.of_mem_filter (h4.subset hip), fun ip hip => ?_⟩
  simpa using List.of_mem_filter (h6.subset hip)

/-- Duplicates are left exactly when an address comes back after another one of its family. -/
theorem nodup_dedup_sortByFamily {ips : List IpAddr} :
    (dedup (sortByFamily ips)).Nodup ↔ NoReturn ips := by
  rw [dedup, nodup_destutter_ne, sortByFamily_eq]
  constructor
  · intro h a b hab hfamily hsub
    refine h a b hab ?_
    by_cases ha : a.isIpv4 = true
    · have hfilter := hsub.filter IpAddr.isIpv4
      simp only [List.filter_cons, ha, ← hfamily, if_true, List.filter_nil] at hfilter
      exact hfilter.trans (List.sublist_append_left _ _)
    · have hfilter := hsub.filter (!·.isIpv4)
      simp only [List.filter_cons, ← hfamily, Bool.eq_false_iff.2 ha, Bool.not_false, if_true,
        List.filter_nil] at hfilter
      exact hfilter.trans (List.sublist_append_right _ _)
  · intro h a b hab hsub
    -- The first family comes first, so both addresses are of one family.
    have hsorted : (ips.filter IpAddr.isIpv4 ++ ips.filter (!·.isIpv4)).Pairwise
        fun x y => x.isIpv4 = true ∨ y.isIpv4 = false := by
      refine List.pairwise_append.2 ⟨?_, ?_, fun x hx y hy => .inl (List.of_mem_filter hx)⟩
      · exact List.pairwise_of_forall_mem_list fun x hx y hy => .inl (List.of_mem_filter hx)
      · exact List.pairwise_of_forall_mem_list fun x hx y hy =>
          .inr (by simpa using List.of_mem_filter hy)
    have hpair := hsorted.sublist hsub
    simp only [List.pairwise_cons, List.mem_cons, List.not_mem_nil, or_false, forall_eq_or_imp,
      forall_eq] at hpair
    obtain ⟨⟨hfirst, -⟩, hsecond, -⟩ := hpair
    have hfamily : a.isIpv4 = b.isIpv4 := by
      cases ha : a.isIpv4 <;> simp_all
    refine h a b hab hfamily ?_
    by_cases ha : a.isIpv4 = true
    · have hfilter := hsub.filter IpAddr.isIpv4
      simp only [List.filter_cons, ha, ← hfamily, if_true, List.filter_nil, List.filter_append,
        List.filter_filter, Bool.and_self, Bool.and_not_self, List.filter_false,
        List.append_nil] at hfilter
      exact hfilter.trans List.filter_sublist
    · have hfilter := hsub.filter (!·.isIpv4)
      simp only [List.filter_cons, ← hfamily, Bool.eq_false_iff.2 ha, Bool.not_false, if_true,
        List.filter_nil, List.filter_append, List.filter_filter, Bool.and_self, Bool.not_and_self,
        List.filter_false, List.nil_append] at hfilter
      exact hfilter.trans List.filter_sublist

/-- Look-ups that keep to their families come to the same list in either order. -/
theorem sortByFamily_arrived {lookup : RecordType → Lookup}
    (h4 : ∀ ip ∈ (lookup .A).ips, ip.isIpv4 = true)
    (h6 : ∀ ip ∈ (lookup .AAAA).ips, ip.isIpv4 = false) :
    sortByFamily (arrived lookup [.A, .AAAA]) = sortByFamily (arrived lookup [.AAAA, .A]) := by
  have ha4 := List.filter_eq_self.2 h4
  have ha6 : (lookup .A).ips.filter (!·.isIpv4) = [] :=
    List.filter_eq_nil_iff.2 fun ip hip => by simp [h4 ip hip]
  have hb4 : (lookup .AAAA).ips.filter IpAddr.isIpv4 = [] :=
    List.filter_eq_nil_iff.2 fun ip hip => by simp [h6 ip hip]
  have hb6 : (lookup .AAAA).ips.filter (!·.isIpv4) = (lookup .AAAA).ips :=
    List.filter_eq_self.2 fun ip hip => by simp [h6 ip hip]
  simp [sortByFamily_eq, arrived, ha4, ha6, hb4, hb6]

theorem mem_arrived {lookup : RecordType → Lookup} {ended : List RecordType} (h : ended ∈ orders)
    (ip : IpAddr) : ip ∈ arrived lookup ended ↔ ip ∈ (lookup .A).ips ∨ ip ∈ (lookup .AAAA).ips := by
  simp only [orders, List.mem_cons, List.not_mem_nil, or_false] at h
  rcases h with rfl | rfl
  · simp [arrived]
  · simp [arrived, or_comm]

section Asked

variable {boot hostname : Text} {dest : SocketAddr} {lookup : RecordType → Lookup}
  {ended : List RecordType}

theorem bootstrapIps_eq (hboot : Target.bootstrapSocket boot = .ok dest) :
    bootstrapIps boot hostname lookup ended =
      if arrived lookup ended ≠ [] then .ok (dedup (sortByFamily (arrived lookup ended)))
      else .error (.config ("bootstrap " ++ String.ofList boot ++ " could not resolve " ++
        String.ofList hostname)) := by
  rw [bootstrapIps, hboot]
  rfl

theorem bootstrapIps_eq_ok (hboot : Target.bootstrapSocket boot = .ok dest) {ips : List IpAddr} :
    bootstrapIps boot hostname lookup ended = .ok ips ↔
      arrived lookup ended ≠ [] ∧ dedup (sortByFamily (arrived lookup ended)) = ips := by
  rw [bootstrapIps_eq hboot]
  split_ifs with h
  · simp [h]
  · simp [h]

end Asked

/-- The result is canonical exactly when, in both orders of arrival, no address comes back after
another one of its family. -/
theorem canonical_iff {boot hostname : Text} {dest : SocketAddr}
    (hboot : Target.bootstrapSocket boot = .ok dest) (lookup : RecordType → Lookup) :
    Canonical boot hostname lookup ↔ ∀ ended ∈ orders, NoReturn (arrived lookup ended) := by
  constructor
  · intro hcanonical ended h
    by_cases hempty : arrived lookup ended = []
    · intro a b _ _ hsub
      rw [hempty] at hsub
      cases hsub
    · have hrun := (@bootstrapIps_eq_ok _ hostname _ lookup ended hboot _).2 ⟨hempty, rfl⟩
      exact nodup_dedup_sortByFamily.1 (hcanonical.returned ended h _ hrun).2.1
  · intro hreturn
    refine ⟨fun ended h => ?_, fun ended h ips hips => ?_, fun h4 h6 => ?_⟩
    · simp only [bootstrapIps_eq_ok hboot, exists_and_left, exists_eq', and_true, Ne,
        List.eq_nil_iff_forall_not_mem, mem_arrived h, not_or, forall_and, not_and_or]
    · obtain ⟨-, rfl⟩ := (bootstrapIps_eq_ok hboot).1 hips
      refine ⟨fun ip => ?_, nodup_dedup_sortByFamily.2 (hreturn ended h), familiesInOrder_dedup _⟩
      rw [dedup, mem_destutter_ne, sortByFamily, List.mem_mergeSort, mem_arrived h]
    · have hne : arrived lookup [.A, .AAAA] = [] ↔ arrived lookup [.AAAA, .A] = [] := by
        simp [arrived, and_comm]
      rw [bootstrapIps_eq hboot, bootstrapIps_eq hboot, sortByFamily_arrived h4 h6]
      simp only [Ne, hne]

namespace Sample

def server : Text := "9.9.9.9".toList

theorem bootstrapSocket_server : Target.bootstrapSocket server = .ok ⟨.v4 0x09090909, 53⟩ := by
  decide +kernel

/-- The first look-up answers with these addresses, the second one not at all. -/
def only (ips : List IpAddr) : RecordType → Lookup
  | .A => .answered ips
  | _ => .timedOut

theorem canonical_iff_repeated :
    Canonical server "dns.test".toList (only [.v4 0x01010101, .v4 0x01010101]) := by
  refine (canonical_iff bootstrapSocket_server _).2 fun ended h a b _ _ hsub => ?_
  have hlen := hsub.length_le
  simp only [orders, List.mem_cons, List.not_mem_nil, or_false] at h
  rcases h with rfl | rfl
  · simp [arrived, only, Lookup.ips] at hlen
  · simp [arrived, only, Lookup.ips] at hlen

/-- An address that comes back is left twice. -/
theorem returning_twice : ¬ Canonical server "dns.test".toList
    (only [.v4 0x01010101, .v4 0x01000001, .v4 0x01010101]) := by
  intro h
  have hsorted : sortByFamily [.v4 0x01010101, .v4 0x01000001, .v4 0x01010101] =
      [.v4 0x01010101, .v4 0x01000001, .v4 0x01010101] := by
    rw [sortByFamily_eq]
    decide
  have hrun : bootstrapIps server "dns.test".toList
      (only [.v4 0x01010101, .v4 0x01000001, .v4 0x01010101]) [.A, .AAAA] =
        .ok [.v4 0x01010101, .v4 0x01000001, .v4 0x01010101] := by
    rw [bootstrapIps, bootstrapSocket_server]
    change Except.ok (dedup (sortByFamily
      [.v4 0x01010101, .v4 0x01000001, .v4 0x01010101])) = _
    rw [hsorted]
    decide
  exact absurd (h.returned _ (by decide) _ hrun).2.1 (by decide)

end Sample

end Bootstrap

end FerrumDns
