import Mathlib.Data.List.Chain
import Mathlib.Data.List.Nodup
import Mathlib.Data.Nat.Notation

/-! Walking a graph in pre-order along all paths from a point. Nodes are looked up as
they are met; a walk fails if one cannot be found, if a path meets one key twice, or if
a path gets too long. So it ends on any graph, and succeeds exactly if every path is
short, without repetition, and made of nodes that can be found. -/

namespace FerrumDns

namespace Graph

variable {α β κ : Type} (node : α → Option (β × List α))

/-- One of the successors of a node that can be found. -/
def Next (a b : α) : Prop := ∃ x, node a = some x ∧ b ∈ x.2

/-- The nodes below these, each before those below it, once for every path that leads to it. -/
inductive Preorder : List α → List (α × β) → Prop
  | nil : Preorder [] []
  | cons {a x l rest l'} (h : node a = some x) (hin : Preorder x.2 l) (hrest : Preorder rest l') :
      Preorder (a :: rest) ((a, x.1) :: (l ++ l'))

variable {node}

theorem Preorder.unique {as : List α} {l l' : List (α × β)} (h : Preorder node as l)
    (h' : Preorder node as l') : l = l' := by
  induction h generalizing l' with
  | nil =>
    cases h'
    rfl
  | @cons a x l rest l₁ h hin hrest ih ih' =>
    cases h' with
    | @cons _ y m _ m' hy hin' hrest' =>
      obtain rfl : x = y := Option.some.inj (h.symm.trans hy)
      rw [ih hin', ih' hrest']

theorem Preorder.append {as as' : List α} {l l' : List (α × β)} (h : Preorder node as l)
    (h' : Preorder node as' l') : Preorder node (as ++ as') (l ++ l') := by
  induction h with
  | nil => exact h'
  | cons h hin hrest ih ih' =>
    rw [List.cons_append, List.cons_append, List.append_assoc]
    exact .cons h hin ih'

theorem Preorder.flatten {as : List α} {ls : List (List (α × β))}
    (h : List.Forall₂ (fun a l => Preorder node [a] l) as ls) : Preorder node as ls.flatten := by
  induction h with
  | nil => exact .nil
  | cons ha _ ih => exact ha.append ih

/-! ### Walks -/

variable [DecidableEq κ] (key : α → Option κ) (node)

/-- The pre-order below a node, along paths of at most so many nodes whose keys are new. -/
def walk : ℕ → List κ → α → Option (List (α × β))
  | 0, _, _ => none
  | n + 1, seen, a =>
    (key a).bind fun k => if k ∈ seen then none else
      (node a).bind fun x => (x.2.mapM (walk n (seen ++ [k]))).map fun ls => (a, x.1) :: ls.flatten

/-- Every path from here can be walked: its nodes can be found, its keys are new and its length is
at most `n`. -/
def Clear (n : ℕ) (seen : List κ) (a : α) : Prop :=
  ∀ l, (a :: l).IsChain (Next node) → (∀ b ∈ a :: l, (key b).isSome ∧ (node b).isSome) ∧
    (seen ++ (a :: l).filterMap key).Nodup ∧ (a :: l).length ≤ n

variable {key node} {n : ℕ} {seen : List κ} {a : α}

/-- What it takes to walk one node further. -/
theorem walk_succ_eq_some {l : List (α × β)} : walk node key (n + 1) seen a = some l ↔
    ∃ k x ls, key a = some k ∧ k ∉ seen ∧ node a = some x ∧
      x.2.mapM (walk node key n (seen ++ [k])) = some ls ∧ l = (a, x.1) :: ls.flatten := by
  simp only [walk, Option.bind_eq_some_iff]
  constructor
  · rintro ⟨k, hk, h⟩
    split_ifs at h with hseen
    obtain ⟨x, hx, h⟩ := Option.bind_eq_some_iff.1 h
    obtain ⟨ls, hls, rfl⟩ := Option.map_eq_some_iff.1 h
    exact ⟨k, x, ls, hk, hseen, hx, hls, rfl⟩
  · rintro ⟨k, x, ls, hk, hseen, hx, hls, rfl⟩
    refine ⟨k, hk, ?_⟩
    rw [if_neg hseen, hx, Option.bind_some, hls]
    rfl

theorem mapM_eq_some {f : α → Option β} {l : List α} {r : List β} :
    l.mapM f = some r ↔ List.Forall₂ (fun a b => f a = some b) l r := by
  induction l generalizing r with
  | nil => simp [eq_comm]
  | cons a l ih =>
    rw [List.mapM_cons, List.forall₂_cons_left_iff]
    simp only [Option.bind_eq_bind, Option.bind_eq_some_iff, Option.pure_def, Option.some.injEq, ih]
    constructor
    · rintro ⟨b, hb, r, hr, rfl⟩
      exact ⟨b, r, hb, hr, rfl⟩
    · rintro ⟨b, r, hb, hr, rfl⟩
      exact ⟨b, hb, r, hr, rfl⟩

/-- A walk that succeeds lists the nodes in pre-order. -/
theorem walk_preorder {l : List (α × β)} (h : walk node key n seen a = some l) :
    Preorder node [a] l := by
  induction n generalizing seen a l with
  | zero => cases h
  | succ n ih =>
    obtain ⟨k, x, ls, -, -, hx, hls, rfl⟩ := walk_succ_eq_some.1 h
    have hall : Preorder node x.2 ls.flatten := .flatten ((mapM_eq_some.1 hls).imp fun _ _ => ih)
    simpa using Preorder.cons hx hall .nil

/-! ### When a walk succeeds -/

omit [DecidableEq κ] in
/-- A node is clear if it can be found, its key is new, and its successors are clear behind it. -/
theorem clear_succ : Clear node key (n + 1) seen a ↔ ∃ k x, key a = some k ∧ node a = some x ∧
    (seen ++ [k]).Nodup ∧ ∀ b ∈ x.2, Clear node key n (seen ++ [k]) b := by
  constructor
  · intro h
    obtain ⟨hfound, hnodup, -⟩ := h [] (.singleton a)
    obtain ⟨hk, hx⟩ := hfound a (by simp)
    obtain ⟨k, hk⟩ := Option.isSome_iff_exists.1 hk
    obtain ⟨x, hx⟩ := Option.isSome_iff_exists.1 hx
    refine ⟨k, x, hk, hx, by simpa [hk] using hnodup, fun b hb l hl => ?_⟩
    obtain ⟨hfound, hnodup, hlen⟩ := h (b :: l) (List.isChain_cons_cons.2 ⟨⟨x, hx, hb⟩, hl⟩)
    refine ⟨fun c hc => hfound c (List.mem_cons_of_mem _ hc), ?_, by simpa using hlen⟩
    rwa [List.filterMap_cons_some hk, List.append_cons] at hnodup
  · rintro ⟨k, x, hk, hx, hnodup, hbelow⟩ l hl
    cases l with
    | nil => exact ⟨by simp [hk, hx], by simpa [hk] using hnodup, by simp⟩
    | cons b l =>
      obtain ⟨⟨y, hy, hb⟩, hl⟩ := List.isChain_cons_cons.1 hl
      obtain rfl : x = y := Option.some.inj (hx.symm.trans hy)
      obtain ⟨hfound, hnodup, hlen⟩ := hbelow b hb l hl
      refine ⟨fun c hc => ?_, ?_, by simpa using hlen⟩
      · rcases List.mem_cons.1 hc with rfl | hc
        · exact ⟨by rw [hk]; rfl, by rw [hx]; rfl⟩
        · exact hfound c hc
      · rwa [List.filterMap_cons_some hk, List.append_cons]

theorem isSome_mapM {f : α → Option β} {l : List α} :
    (l.mapM f).isSome ↔ ∀ a ∈ l, (f a).isSome := by
  induction l with
  | nil => simp
  | cons a l ih =>
    rw [List.mapM_cons, List.forall_mem_cons, ← ih]
    cases f a <;> cases l.mapM f <;> simp

omit [DecidableEq κ] in
theorem nodup_snoc {k : κ} (h : seen.Nodup) : (seen ++ [k]).Nodup ↔ k ∉ seen := by
  rw [List.nodup_append_comm, List.singleton_append, List.nodup_cons]
  exact and_iff_left h

/-- A walk succeeds exactly if every path can be walked. -/
theorem walk_isSome (hseen : seen.Nodup) :
    (walk node key n seen a).isSome ↔ Clear node key n seen a := by
  induction n generalizing seen a with
  | zero =>
    refine ⟨fun h => (by cases h), fun h => ?_⟩
    have hlen := (h [] (.singleton a)).2.2
    simp at hlen
  | succ n ih =>
    rw [clear_succ, Option.isSome_iff_exists]
    simp only [walk_succ_eq_some]
    constructor
    · rintro ⟨l, k, x, ls, hk, hnew, hx, hls, -⟩
      have hnodup := (nodup_snoc hseen).2 hnew
      refine ⟨k, x, hk, hx, hnodup, fun b hb => (ih hnodup).1 ?_⟩
      exact isSome_mapM.1 (by rw [hls]; rfl) b hb
    · rintro ⟨k, x, hk, hx, hnodup, hbelow⟩
      have hnew := (nodup_snoc hseen).1 hnodup
      obtain ⟨ls, hls⟩ := Option.isSome_iff_exists.1
        (isSome_mapM.2 fun b hb => (ih hnodup).2 (hbelow b hb))
      exact ⟨_, k, x, ls, hk, hnew, hx, hls, rfl⟩

end Graph

end FerrumDns
