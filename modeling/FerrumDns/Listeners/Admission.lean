import Mathlib.Data.List.Count
import Mathlib.Data.List.Perm.Basic
import Mathlib.Tactic.SplitIfs

/-! Admission to a room of bounded size. Whoever comes while the room is full is turned
away, others wait inside until they pass or fail, and those who passed leave when they
like. Implementations differ in how they know that the room is full; one is right when
each of its steps is none or some of these. Nothing here depends on who comes. -/

namespace FerrumDns

namespace Admission

variable {ι : Type}

inductive Event (ι : Type) where
  | come (x : ι)
  | pass (x : ι)
  | fail (x : ι)
  | leave (x : ι)

/-- Who waits, who passed and is still there, and who was turned away, failed or left. -/
structure Room (ι : Type) where
  waiting : List ι
  passed : List ι
  refused : List ι
  failed : List ι
  left : List ι

def Room.empty : Room ι := ⟨[], [], [], [], []⟩

/-- One step at a room for `cap`. -/
inductive Step (cap : ℕ) : Room ι → Event ι → Room ι → Prop
  | accept {r x} (h : r.waiting.length < cap) :
      Step cap r (.come x) { r with waiting := r.waiting ++ [x] }
  | refuse {r x} (h : cap ≤ r.waiting.length) :
      Step cap r (.come x) { r with refused := r.refused ++ [x] }
  | pass {r x l l'} (h : r.waiting = l ++ x :: l') :
      Step cap r (.pass x) { r with waiting := l ++ l', passed := r.passed ++ [x] }
  | fail {r x l l'} (h : r.waiting = l ++ x :: l') :
      Step cap r (.fail x) { r with waiting := l ++ l', failed := r.failed ++ [x] }
  | leave {r x l l'} (h : r.passed = l ++ x :: l') :
      Step cap r (.leave x) { r with passed := l ++ l', left := r.left ++ [x] }

inductive Run (cap : ℕ) (r : Room ι) : List (Event ι) → Room ι → Prop
  | refl : Run cap r [] r
  | step {evs r' ev r''} (h : Run cap r evs r') (hs : Step cap r' ev r'') :
      Run cap r (evs ++ [ev]) r''

variable {cap : ℕ} {r r' : Room ι} {evs evs' : List (Event ι)}

theorem Run.append {r'' : Room ι} (h : Run cap r evs r') (h' : Run cap r' evs' r'') :
    Run cap r (evs ++ evs') r'' := by
  induction h' with
  | refl => simpa using h
  | step _ hs ih => simpa using ih.step hs

/-- Those who came, in order. -/
def came (evs : List (Event ι)) : List ι :=
  evs.filterMap fun
    | .come x => some x
    | _ => none

/-- Everybody who came. -/
def Room.all (r : Room ι) : List ι := r.waiting ++ r.passed ++ r.refused ++ r.failed ++ r.left

theorem Step.bounded {ev : Event ι} (h : Step cap r ev r') (hr : r.waiting.length ≤ cap) :
    r'.waiting.length ≤ cap := by
  cases h with
  | accept h =>
    simp only [List.length_append, List.length_singleton]
    omega
  | refuse h => exact hr
  | pass h | fail h =>
    simp only [h, List.length_append, List.length_cons] at hr ⊢
    omega
  | leave h => exact hr

/-- The room is never fuller than it may be. -/
theorem Run.bounded (h : Run cap r evs r') (hr : r.waiting.length ≤ cap) :
    r'.waiting.length ≤ cap := by
  induction h with
  | refl => exact hr
  | step _ hs ih => exact hs.bounded ih

theorem Step.accounts {ev : Event ι} (h : Step cap r ev r') :
    r'.all.Perm (r.all ++ came [ev]) := by
  classical
  rw [List.perm_iff_count]
  intro y
  cases h with
  | accept h =>
    simp only [Room.all, came, List.filterMap_cons, List.filterMap_nil, List.count_append]
    omega
  | refuse h =>
    simp only [Room.all, came, List.filterMap_cons, List.filterMap_nil, List.count_append]
    omega
  | pass h | fail h | leave h =>
    simp only [Room.all, came, h, List.filterMap_cons, List.filterMap_nil, List.count_append,
      List.count_cons, List.count_nil]
    omega

/-- Each one who came is in one place, and nobody else is. -/
theorem Run.accounts (h : Run cap Room.empty evs r) : r.all.Perm (came evs) := by
  induction h with
  | refl => exact .refl _
  | step _ hs ih =>
    have hall := hs.accounts.trans (ih.append_right _)
    simpa [came, List.filterMap_append] using hall

/-! ### Implementations -/

/-- Every step of an implementation is a run of the room it stands for. -/
def Implements {S : Type} (cap : ℕ) (step : S → List (Event ι) → S → Prop)
    (stands : S → Room ι → Prop) : Prop :=
  ∀ {s evs s' r}, step s evs s' → stands s r → ∃ r', Run cap r evs r' ∧ stands s' r'

/-- Runs of an implementation, with what happened in them. -/
inductive Steps {S : Type} (step : S → List (Event ι) → S → Prop) (s : S) :
    List (Event ι) → S → Prop
  | refl : Steps step s [] s
  | step {evs s' evs' s''} (h : Steps step s evs s') (hs : step s' evs' s'') :
      Steps step s (evs ++ evs') s''

/-- An implementation stands for a room along each of its runs. -/
theorem Implements.run {S : Type} {step : S → List (Event ι) → S → Prop}
    {stands : S → Room ι → Prop} (h : Implements cap step stands) {s s' : S}
    (hrun : Steps step s evs s') (hs : stands s r) : ∃ r', Run cap r evs r' ∧ stands s' r' := by
  induction hrun with
  | refl => exact ⟨r, .refl, hs⟩
  | step _ hstep ih =>
    obtain ⟨mid, hmid, hstands⟩ := ih
    obtain ⟨r', hr', hstands'⟩ := h hstep hstands
    exact ⟨r', hmid.append hr', hstands'⟩

end Admission

end FerrumDns
