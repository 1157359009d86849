import FerrumDns.Prog.Counted
import Mathlib.Data.List.Perm.Basic

/-! Who keeps a runtime. Requests hold the runtime they were started with, and the sequences and
fallbacks in it reach its registry over a weak reference, which would fail were the registry
gone; caches reach the runtime over a weak reference too, when they refresh an entry. A
reload puts another runtime in the live place at any time. No request ever finds its
registry gone, and a runtime is there for just as long as something other than its own
plugins holds it. -/

namespace FerrumDns

open Counted

/-- A request or a refresh that is being handled: the runtime it was given, and how many sequences and
fallbacks have its registry at the moment. -/
structure Handling where
  rt : ℕ
  regs : ℕ
  deriving DecidableEq, Repr

/-- The runtimes by the addresses they were allocated at. Refreshes that were spawned but did not run
yet hold a weak reference; whoever else looks at the live runtime for a while is a reader. -/
structure Runtimes where
  live : ℕ
  fresh : ℕ
  cells : Cells ℕ
  handling : List Handling
  kicked : List ℕ
  readers : List ℕ
  built : List ℕ
  notReady : ℕ

namespace Runtimes

/-- `Live::new` of the first runtime. -/
def start : Runtimes where
  live := 0
  fresh := 1
  cells := Cells.alloc ⟨fun _ => 0, fun _ => 0⟩ 0
  handling := []
  kicked := []
  readers := []
  built := []
  notReady := 0

/-- `Live::get` for a request. -/
def request (s : Runtimes) : Runtimes :=
  { s with cells := s.cells.clone s.live, handling := ⟨s.live, 0⟩ :: s.handling }

/-- `SlotSequence::exec` and `SlotFallback::exec` upgrade the registry, or fail. -/
def enter (s : Runtimes) (r : Handling) (others : List Handling) : Runtimes :=
  match s.cells.upgradeInner r.rt with
  | some cells => { s with cells, handling := { r with regs := r.regs + 1 } :: others }
  | none => { s with notReady := s.notReady + 1 }

/-- The end of such an `exec`. -/
def leave (s : Runtimes) (r : Handling) (others : List Handling) : Runtimes :=
  { s with
    cells := s.cells.dropInner r.rt
    handling := { r with regs := r.regs - 1 } :: others }

/-- The end of a request, or its being dropped wherever it is. -/
def finish (s : Runtimes) (r : Handling) (others : List Handling) : Runtimes :=
  { s with
    cells := (s.cells.dropInners r.rt r.regs).drop r.rt
    handling := others }

/-- The task of `kick_refresh` runs: without its runtime it does nothing. -/
def refresh (s : Runtimes) (a : ℕ) (others : List ℕ) : Runtimes :=
  match s.cells.upgrade a with
  | some cells => { s with cells, kicked := others, handling := ⟨a, 0⟩ :: s.handling }
  | none => { s with kicked := others }

/-- `Runtime::build`. -/
def build (s : Runtimes) : Runtimes :=
  { s with cells := s.cells.alloc s.fresh, fresh := s.fresh + 1, built := s.fresh :: s.built }

/-- `Live::swap`. -/
def swap (s : Runtimes) (a : ℕ) (others : List ℕ) : Runtimes :=
  { s with live := a, cells := s.cells.drop s.live, built := others }

/-- One step of anything that runs. -/
inductive Step : Runtimes → Runtimes → Prop
  | request {s} : Step s s.request
  | enter {s r others} (h : s.handling.Perm (r :: others)) : Step s (s.enter r others)
  | leave {s r others} (h : s.handling.Perm (r :: others)) (hr : 0 < r.regs) :
      Step s (s.leave r others)
  | finish {s r others} (h : s.handling.Perm (r :: others)) : Step s (s.finish r others)
  | kick {s r} (h : r ∈ s.handling) : Step s { s with kicked := r.rt :: s.kicked }
  | refresh {s a others} (h : s.kicked.Perm (a :: others)) : Step s (s.refresh a others)
  | read {s} : Step s { s with cells := s.cells.clone s.live, readers := s.live :: s.readers }
  | forget {s a others} (h : s.readers.Perm (a :: others)) :
      Step s { s with cells := s.cells.drop a, readers := others }
  | build {s} : Step s s.build
  | swap {s a others} (h : s.built.Perm (a :: others)) : Step s (s.swap a others)
  | reject {s a others} (h : s.built.Perm (a :: others)) :
      Step s { s with cells := s.cells.drop a, built := others }

inductive Run (s : Runtimes) : Runtimes → Prop
  | refl : Run s s
  | step {s' s''} (h : Run s s') (hs : Step s' s'') : Run s s''

/-! ### Owners -/

/-- Everything that holds a runtime. -/
def owners (s : Runtimes) : List ℕ :=
  s.live :: (s.handling.map Handling.rt ++ s.readers ++ s.built)

/-- Everything outside its runtime that holds a registry. -/
def holders (s : Runtimes) : List ℕ := s.handling.flatMap fun r => List.replicate r.regs r.rt

structure Sound (s : Runtimes) : Prop where
  owned : Owned s.cells s.owners s.holders
  ready : s.notReady = 0
  old : ∀ a ∈ s.owners, a < s.fresh

variable {s s' : Runtimes}

theorem mem_owners_of_mem_holders {a : ℕ} (h : a ∈ s.holders) : a ∈ s.owners := by
  obtain ⟨r, hr, ha⟩ := List.mem_flatMap.1 h
  rw [List.eq_of_mem_replicate ha]
  simp only [owners, List.mem_cons, List.mem_append, List.mem_map]
  exact .inr (.inl (.inl ⟨r, hr, rfl⟩))

theorem owners_perm {r : Handling} {others : List Handling} (h : s.handling.Perm (r :: others)) :
    s.owners.Perm (r.rt :: { s with handling := others }.owners) := by
  rw [List.perm_iff_count]
  intro b
  have hcount := (h.map Handling.rt).count_eq b
  simp only [List.map_cons, List.count_cons] at hcount
  simp only [owners, List.count_cons, List.count_append]
  omega

theorem holders_perm {r : Handling} {others : List Handling} (h : s.handling.Perm (r :: others)) :
    s.holders.Perm (List.replicate r.regs r.rt ++ { s with handling := others }.holders) := by
  simpa [holders] using h.flatMap_right fun r => List.replicate r.regs r.rt

/-- What a step does to the owners: nobody holds a runtime again that nobody held. -/
structure Keeps (s s' : Runtimes) : Prop where
  sound : Sound s'
  fresh : s.fresh ≤ s'.fresh
  owners : ∀ a ∈ s'.owners, a ∈ s.owners ∨ s.fresh ≤ a

theorem keeps_of_subset (h : Sound s) (howned : Owned s'.cells s'.owners s'.holders)
    (hready : s'.notReady = s.notReady) (hfresh : s'.fresh = s.fresh)
    (hsub : ∀ a ∈ s'.owners, a ∈ s.owners) : Keeps s s' where
  sound := ⟨howned, hready.trans h.ready, fun a ha => hfresh ▸ h.old a (hsub a ha)⟩
  fresh := Nat.le_of_eq hfresh.symm
  owners a ha := .inl (hsub a ha)

theorem keeps_clone (h : Sound s) {a : ℕ} (ha : a ∈ s.owners) (hcells : s'.cells = s.cells.clone a)
    (howners : s'.owners.Perm (a :: s.owners)) (hholders : s'.holders = s.holders)
    (hready : s'.notReady = s.notReady) (hfresh : s'.fresh = s.fresh) : Keeps s s' := by
  refine keeps_of_subset h ?_ hready hfresh fun b hb => ?_
  · rw [hcells, hholders]
    exact (h.owned.clone ha).perm howners.symm (.refl _)
  · rcases List.mem_cons.1 (howners.mem_iff.1 hb) with rfl | hb
    · exact ha
    · exact hb

theorem keeps_drop (h : Sound s) {a : ℕ} (hcells : s'.cells = s.cells.drop a)
    (howners : s.owners.Perm (a :: s'.owners)) (hholders : s'.holders = s.holders)
    (hready : s'.notReady = s.notReady) (hfresh : s'.fresh = s.fresh) : Keeps s s' := by
  refine keeps_of_subset h ?_ hready hfresh fun b hb =>
    howners.mem_iff.2 (List.mem_cons_of_mem _ hb)
  rw [hcells, hholders]
  exact (h.owned.perm howners (.refl _)).drop

theorem keeps_of_step (h : Sound s) (hs : Step s s') : Keeps s s' := by
  have hlive : s.live ∈ s.owners := List.mem_cons_self
  cases hs with
  | request => exact keeps_clone h hlive rfl (.swap _ _ _) rfl rfl rfl
  | @enter r others hr =>
    have hmem : r.rt ∈ s.owners := (owners_perm hr).mem_iff.2 List.mem_cons_self
    rw [enter, h.owned.upgradeInner hmem]
    have howners := owners_perm hr
    have hnew : s.owners.Perm
        { s with handling := { r with regs := r.regs + 1 } :: others }.owners :=
      howners.trans (.swap _ _ _)
    refine keeps_of_subset h ?_ rfl rfl fun a ha => hnew.mem_iff.2 ha
    refine h.owned.cloneInner.perm hnew ?_
    exact (holders_perm hr).cons r.rt
  | @leave r others hr hpos =>
    have hnew : s.owners.Perm
        { s with handling := { r with regs := r.regs - 1 } :: others }.owners :=
      (owners_perm hr).trans (.swap _ _ _)
    refine keeps_of_subset h ?_ rfl rfl fun a ha => hnew.mem_iff.2 ha
    have hholders := holders_perm hr
    obtain ⟨n, hn⟩ : ∃ n, r.regs = n + 1 := ⟨r.regs - 1, by omega⟩
    rw [hn, List.replicate_succ] at hholders
    have hleft := (h.owned.perm hnew hholders).dropInner
    simpa [leave, holders, owners, hn] using hleft
  | @finish r others hr =>
    refine keeps_of_subset h ?_ rfl rfl fun a ha =>
      (owners_perm hr).mem_iff.2 (List.mem_cons_of_mem _ ha)
    exact (h.owned.perm (owners_perm hr) (holders_perm hr)).dropInners.drop
  | kick hr => exact keeps_of_subset h h.owned rfl rfl fun a ha => ha
  | @refresh a others ha =>
    rw [refresh, h.owned.upgrade]
    by_cases hmem : a ∈ s.owners
    · rw [if_pos hmem]
      exact keeps_clone h hmem rfl (.swap _ _ _) rfl rfl rfl
    · rw [if_neg hmem]
      exact keeps_of_subset h h.owned rfl rfl fun a ha => ha
  | read =>
    refine keeps_clone h hlive rfl ?_ rfl rfl rfl
    rw [List.perm_iff_count]
    intro b
    simp only [owners, List.count_cons, List.count_append]
    omega
  | @forget a others ha =>
    refine keeps_drop h rfl ?_ rfl rfl rfl
    rw [List.perm_iff_count]
    intro b
    have hcount := ha.count_eq b
    simp only [owners, List.count_cons, List.count_append] at hcount ⊢
    omega
  | build =>
    have hnew : s.fresh ∉ s.owners := fun hmem => Nat.lt_irrefl _ (h.old _ hmem)
    have hperm : s.build.owners.Perm (s.fresh :: s.owners) := by
      rw [List.perm_iff_count]
      intro b
      simp only [build, owners, List.count_cons, List.count_append]
      omega
    have howned := h.owned.alloc hnew fun hmem => hnew (mem_owners_of_mem_holders hmem)
    refine ⟨⟨howned.perm hperm.symm (.refl _), h.ready, fun a ha => ?_⟩, Nat.le_succ _,
      fun a ha => ?_⟩
    · rcases List.mem_cons.1 (hperm.mem_iff.1 ha) with rfl | ha
      · exact Nat.lt_succ_self _
      · exact Nat.lt_succ_of_lt (h.old a ha)
    · rcases List.mem_cons.1 (hperm.mem_iff.1 ha) with rfl | ha
      · exact .inr (Nat.le_refl _)
      · exact .inl ha
  | @swap a others ha =>
    refine keeps_drop h rfl ?_ rfl rfl rfl
    rw [List.perm_iff_count]
    intro b
    have hcount := ha.count_eq b
    simp only [swap, owners, List.count_cons, List.count_append] at hcount ⊢
    omega
  | @reject a others ha =>
    refine keeps_drop h rfl ?_ rfl rfl rfl
    rw [List.perm_iff_count]
    intro b
    have hcount := ha.count_eq b
    simp only [owners, List.count_cons, List.count_append] at hcount ⊢
    omega

theorem keeps_of_run (h : Sound s) (hrun : Run s s') : Keeps s s' := by
  induction hrun with
  | refl => exact ⟨h, Nat.le_refl _, fun a ha => .inl ha⟩
  | step _ hs ih =>
    obtain ⟨hsound, hfresh, howners⟩ := keeps_of_step ih.sound hs
    refine ⟨hsound, Nat.le_trans ih.fresh hfresh, fun a ha => ?_⟩
    rcases howners a ha with ha | ha
    · exact ih.owners a ha
    · exact .inr (Nat.le_trans ih.fresh ha)

theorem sound_start : Sound start where
  owned := by
    have hnone : Owned (⟨fun _ => 0, fun _ => 0⟩ : Cells ℕ) [] [] := ⟨fun _ => rfl, fun _ => rfl⟩
    exact hnone.alloc (a := 0) List.not_mem_nil List.not_mem_nil
  ready := rfl
  old a ha := by
    obtain rfl : a = 0 := by simpa [owners, start] using ha
    exact Nat.one_pos

/-- However requests, refreshes and reloads overlap, no request is told that the runtime is not ready;
a runtime is there just while it is live or held, and its registry as long as it; and once it is
gone it stays gone, whatever still refers to it. -/
theorem held_while_used (h : Run start s) : s.notReady = 0 ∧
    (∀ a, 0 < s.cells.outer a ↔
      a = s.live ∨ (∃ r ∈ s.handling, r.rt = a) ∨ a ∈ s.readers ∨ a ∈ s.built) ∧
    (∀ a, 0 < s.cells.inner a ↔ 0 < s.cells.outer a) ∧
    ∀ a < s.fresh, s.cells.outer a = 0 → ∀ s', Run s s' →
      s'.cells.outer a = 0 ∧ s'.live ≠ a ∧ ∀ r ∈ s'.handling, r.rt ≠ a := by
  have hsound := (keeps_of_run sound_start h).sound
  refine ⟨hsound.ready, fun a => ?_, fun a => ?_, fun a ha hgone s' hrun => ?_⟩
  · rw [hsound.owned.outer_pos]
    simp [owners]
  · rw [hsound.owned.inner_pos fun b hb => mem_owners_of_mem_holders hb,
      hsound.owned.outer_pos]
  · obtain ⟨hsound', -, howners⟩ := keeps_of_run hsound hrun
    have hnot : a ∉ s'.owners := by
      intro hmem
      rcases howners a hmem with hmem | hmem
      · have hpos := hsound.owned.outer_pos.2 hmem
        omega
      · omega
    have hzero : s'.cells.outer a = 0 := by
      rw [hsound'.owned.outer, List.count_eq_zero.2 hnot]
    refine ⟨hzero, fun heq => hnot (heq ▸ List.mem_cons_self), fun r hr heq => hnot ?_⟩
    simp only [owners, List.mem_cons, List.mem_append, List.mem_map]
    exact .inr (.inl (.inl ⟨r, hr, heq⟩))

/-- A request in a sequence outlives the reload that replaces its runtime, which goes when it ends. -/
theorem held_while_used_reload : ∃ s s' : Runtimes, s.live = 1 ∧ s.cells.inner 0 = 2 ∧
    s.notReady = 0 ∧ s'.cells.outer 0 = 0 ∧ s'.live ≠ 0 := by
  have hused : Run start ((start.request.enter ⟨0, 0⟩ []).build.swap 1 []) :=
    (((Run.refl.step .request).step (.enter (.refl _))).step .build).step (.swap (.refl _))
  have hhandling : ((start.request.enter ⟨0, 0⟩ []).build.swap 1 []).handling.Perm [⟨0, 1⟩] :=
    .refl _
  have hended := hused.step (.finish hhandling)
  obtain ⟨hready, -⟩ := held_while_used hused
  obtain ⟨-, -, -, hgone⟩ := held_while_used hended
  obtain ⟨hzero, hlive, -⟩ := hgone 0 (by decide) rfl _ .refl
  exact ⟨_, _, rfl, rfl, hready, hzero, hlive⟩

end Runtimes

end FerrumDns
