import Mathlib.Data.List.Basic
import Mathlib.Order.Lattice
import Mathlib.Tactic.SplitIfs

/-! Length-prefixed frames on a stream of octets that arrives in chunks. Reading an exact
number of octets takes as many chunks as it needs, so what is read depends on the octets
alone. A stream is a list of frames and a tail that no further frame can be read from. -/

namespace FerrumDns

namespace Frames

/-! ### Reading -/

/-- `read_exact` of `n` octets; what is left of a chunk is read next. None is the end of the stream
before that many. -/
def readExact : ℕ → List (List UInt8) → Option (List UInt8 × List (List UInt8))
  | 0, chunks => some ([], chunks)
  | _ + 1, [] => none
  | n + 1, c :: chunks =>
    if n + 1 < c.length then some (c.take (n + 1), c.drop (n + 1) :: chunks)
    else (readExact (n + 1 - c.length) chunks).map fun x => (c ++ x.1, x.2)

theorem readExact_of_lt {n : ℕ} {chunks : List (List UInt8)} (h : chunks.flatten.length < n) :
    readExact n chunks = none := by
  induction chunks generalizing n with
  | nil =>
    cases n with
    | zero => cases h
    | succ n => rfl
  | cons c chunks ih =>
    cases n with
    | zero => cases h
    | succ n =>
      rw [List.flatten_cons, List.length_append] at h
      rw [readExact, if_neg (by omega), ih (by omega)]
      rfl

/-- A read takes the first octets, and leaves the others, whatever the chunks are. -/
theorem readExact_of_le {n : ℕ} {chunks : List (List UInt8)} (h : n ≤ chunks.flatten.length) :
    ∃ rest, readExact n chunks = some (chunks.flatten.take n, rest) ∧
      rest.flatten = chunks.flatten.drop n := by
  induction chunks generalizing n with
  | nil =>
    obtain rfl : n = 0 := by simpa using h
    exact ⟨[], rfl, rfl⟩
  | cons c chunks ih =>
    cases n with
    | zero => exact ⟨c :: chunks, rfl, rfl⟩
    | succ n =>
      rw [List.flatten_cons, List.length_append] at h
      rw [readExact, List.flatten_cons]
      split_ifs with hlt
      · refine ⟨c.drop (n + 1) :: chunks, ?_, ?_⟩
        · rw [List.take_append_of_le_length (by omega)]
        · rw [List.flatten_cons, List.drop_append_of_le_length (by omega)]
      · obtain ⟨rest, hrest, hleft⟩ := @ih (n + 1 - c.length) (by omega)
        refine ⟨rest, ?_, ?_⟩
        · rw [hrest, List.take_append, List.take_of_length_le (l := c) (by omega)]
          rfl
        · rw [hleft, List.drop_append, List.drop_of_length_le (l := c) (by omega), List.nil_append]

theorem readExact_some {n : ℕ} {chunks rest : List (List UInt8)} {b : List UInt8}
    (h : readExact n chunks = some (b, rest)) : b.length = n ∧ chunks.flatten = b ++ rest.flatten := by
  rcases lt_or_ge chunks.flatten.length n with hlt | hle
  · rw [readExact_of_lt hlt] at h
    cases h
  · obtain ⟨rest', hread, hleft⟩ := readExact_of_le hle
    cases hread.symm.trans h
    rw [hleft, List.take_append_drop]
    exact ⟨List.length_take_of_le hle, rfl⟩

/-! ### Lengths -/

/-- `to_be_bytes` of a `u16`. -/
def lengthOctets (n : ℕ) : List UInt8 := [UInt8.ofNat (n / 256), UInt8.ofNat n]

/-- `from_be_bytes`. -/
def fromOctets (octets : List UInt8) : ℕ := octets.foldl (fun n b => 256 * n + b.toNat) 0

theorem fromOctets_lengthOctets {n : ℕ} (h : n < 65536) : fromOctets (lengthOctets n) = n := by
  simp only [fromOctets, lengthOctets, List.foldl_cons, List.foldl_nil, UInt8.toNat_ofNat']
  omega

/-- A body behind its length. -/
def framed (body : List UInt8) : List UInt8 := lengthOctets body.length ++ body

/-! ### Frames -/

/-- What a reader of frames meets next. -/
inductive Next where
  | eof
  | empty
  | cut
  | frame (body : List UInt8) (rest : List (List UInt8))

/-- Read the length, and as many octets. -/
def next (chunks : List (List UInt8)) : Next :=
  match readExact 2 chunks with
  | none => .eof
  | some (header, chunks) =>
    if fromOctets header = 0 then .empty
    else
      match readExact (fromOctets header) chunks with
      | none => .cut
      | some (body, rest) => .frame body rest

/-- A body that can be framed. -/
def Fits (body : List UInt8) : Prop := 0 < body.length ∧ body.length < 65536

/-- What a reader meets at the end of the frames. -/
def stop (tail : List UInt8) : Option Next :=
  if tail.length < 2 then some .eof
  else if fromOctets (tail.take 2) = 0 then some .empty
  else if tail.length < 2 + fromOctets (tail.take 2) then some .cut
  else none

/-- The stream is these bodies, each behind its length, and a tail without a whole frame. -/
structure Splits (stream : List UInt8) (bodies : List (List UInt8)) (tail : List UInt8) : Prop where
  eq : stream = (bodies.map framed).flatten ++ tail
  fits : ∀ body ∈ bodies, Fits body
  stuck : (stop tail).isSome

theorem length_framed (body : List UInt8) : (framed body).length = body.length + 2 := by
  simp only [framed, lengthOctets, List.length_append, List.length_cons, List.length_nil]
  omega

/-- A whole frame is read, however it arrives, and nothing more. -/
theorem next_framed {chunks : List (List UInt8)} {body after : List UInt8} (hb : Fits body)
    (h : chunks.flatten = framed body ++ after) :
    ∃ rest, next chunks = .frame body rest ∧ rest.flatten = after := by
  have hlen : chunks.flatten.length = body.length + 2 + after.length := by
    rw [h, List.length_append, length_framed]
  obtain ⟨rest₁, h₁, hrest₁⟩ := @readExact_of_le 2 chunks (by omega)
  have hhead : chunks.flatten.take 2 = lengthOctets body.length := by rw [h]; rfl
  have hleft : chunks.flatten.drop 2 = body ++ after := by rw [h]; rfl
  rw [hleft] at hrest₁
  obtain ⟨rest₂, h₂, hrest₂⟩ := @readExact_of_le body.length rest₁
    (by rw [hrest₁, List.length_append]; omega)
  rw [hrest₁, List.take_left] at h₂
  rw [hrest₁, List.drop_left] at hrest₂
  refine ⟨rest₂, ?_, hrest₂⟩
  have hn : fromOctets (lengthOctets body.length) = body.length := fromOctets_lengthOctets hb.2
  simp only [next, h₁, hhead, hn, if_neg (Nat.ne_of_gt hb.1), h₂]

/-- At the tail a reader is stopped. -/
theorem next_stop {chunks : List (List UInt8)} {x : Next} (h : stop chunks.flatten = some x) :
    next chunks = x := by
  rw [stop] at h
  split_ifs at h with hshort hzero hcut
  · cases h
    simp only [next, readExact_of_lt hshort]
  · cases h
    obtain ⟨rest, hrest, -⟩ := @readExact_of_le 2 chunks (by omega)
    simp only [next, hrest, if_pos hzero]
  · cases h
    obtain ⟨rest, hrest, hleft⟩ := @readExact_of_le 2 chunks (by omega)
    have hmissing : rest.flatten.length < fromOctets (chunks.flatten.take 2) := by
      rw [hleft, List.length_drop]
      omega
    simp only [next, hrest, if_neg hzero, readExact_of_lt hmissing]

/-- Only where there is no whole frame. -/
theorem stop_ne_frame {tail body : List UInt8} {rest : List (List UInt8)} :
    stop tail ≠ some (.frame body rest) := by
  rw [stop]
  split_ifs <;> simp

/-- The octets left after a frame are fewer. -/
theorem length_of_next {chunks rest : List (List UInt8)} {body : List UInt8}
    (h : next chunks = .frame body rest) : rest.flatten.length < chunks.flatten.length := by
  rw [next] at h
  cases h₁ : readExact 2 chunks with
  | none =>
    rw [h₁] at h
    cases h
  | some x =>
    obtain ⟨header, mid⟩ := x
    obtain ⟨hlen₁, hmid⟩ := readExact_some h₁
    simp only [h₁] at h
    split_ifs at h
    cases h₂ : readExact (fromOctets header) mid with
    | none =>
      rw [h₂] at h
      cases h
    | some y =>
      obtain ⟨body', rest'⟩ := y
      rw [h₂] at h
      cases h
      obtain ⟨hlen₂, hrest⟩ := readExact_some h₂
      rw [hmid, hrest, List.length_append, List.length_append]
      omega

/-! ### Splitting a stream -/

/-- Where a reader is not stopped there is a whole frame. -/
theorem framed_of_stop {stream : List UInt8} (h : stop stream = none) :
    ∃ body after, Fits body ∧ stream = framed body ++ after := by
  rw [stop] at h
  split_ifs at h with hshort hzero hcut
  obtain ⟨a, b, rest, rfl⟩ : ∃ a b rest, stream = a :: b :: rest := by
    cases stream with
    | nil => simp at hshort
    | cons a stream =>
      cases stream with
      | nil => simp at hshort
      | cons b rest => exact ⟨a, b, rest, rfl⟩
  have ha := a.toNat_lt
  have hb := b.toNat_lt
  have hn : fromOctets [a, b] = 256 * a.toNat + b.toNat := by simp [fromOctets]
  simp only [List.take_succ_cons, List.take_zero, hn, List.length_cons] at hzero hcut
  have hlen : (rest.take (256 * a.toNat + b.toNat)).length = 256 * a.toNat + b.toNat :=
    List.length_take_of_le (by omega)
  refine ⟨rest.take (256 * a.toNat + b.toNat), rest.drop (256 * a.toNat + b.toNat),
    ⟨by omega, by omega⟩, ?_⟩
  have hhigh : UInt8.ofNat ((256 * a.toNat + b.toNat) / 256) = a := by
    rw [← UInt8.toNat_inj, UInt8.toNat_ofNat']
    omega
  have hlow : UInt8.ofNat (256 * a.toNat + b.toNat) = b := by
    rw [← UInt8.toNat_inj, UInt8.toNat_ofNat']
    omega
  rw [framed, hlen, lengthOctets, hhigh, hlow, List.append_assoc, List.take_append_drop]
  rfl

theorem stop_framed {body after : List UInt8} (hb : Fits body) :
    stop (framed body ++ after) = none := by
  have hn : fromOctets ((framed body ++ after).take 2) = body.length :=
    fromOctets_lengthOctets hb.2
  have hlen : (framed body ++ after).length = body.length + 2 + after.length := by
    rw [List.length_append, length_framed]
  have hpos := hb.1
  rw [stop, hn, hlen, if_neg (by omega), if_neg (by omega), if_neg (by omega)]

/-- Every stream splits. -/
theorem exists_splits (stream : List UInt8) : ∃ bodies tail, Splits stream bodies tail := by
  induction hn : stream.length using Nat.strong_induction_on generalizing stream with
  | _ n ih =>
    subst hn
    cases hs : stop stream with
    | some x => exact ⟨[], stream, ⟨rfl, by simp, by rw [hs]; rfl⟩⟩
    | none =>
      obtain ⟨body, after, hb, rfl⟩ := framed_of_stop hs
      obtain ⟨bodies, tail, h⟩ := ih after.length (by rw [List.length_append, length_framed]; omega)
        after rfl
      refine ⟨body :: bodies, tail, ⟨?_, ?_, h.stuck⟩⟩
      · rw [h.eq, List.map_cons, List.flatten_cons, List.append_assoc]
      · simpa using ⟨hb, h.fits⟩

/-- The first body and what is behind it. -/
theorem Splits.cons_inv {stream body tail : List UInt8} {bodies : List (List UInt8)}
    (h : Splits stream (body :: bodies) tail) :
    ∃ after, Fits body ∧ stream = framed body ++ after ∧ Splits after bodies tail := by
  have heq := h.eq
  rw [List.map_cons, List.flatten_cons, List.append_assoc] at heq
  exact ⟨_, h.fits body (by simp), heq, rfl, fun b hb => h.fits b (by simp [hb]), h.stuck⟩

/-- A stream with a body does not stop a reader. -/
theorem Splits.nil_ne_cons {stream body tail tail' : List UInt8} {bodies : List (List UInt8)}
    (h : Splits stream [] tail) (h' : Splits stream (body :: bodies) tail') : False := by
  obtain ⟨after, hfits, heq, -⟩ := h'.cons_inv
  have hstuck := h.stuck
  rw [← show stream = tail from h.eq, heq, stop_framed hfits] at hstuck
  cases hstuck

/-- In one way only. -/
theorem Splits.unique {stream tail tail' : List UInt8} {bodies bodies' : List (List UInt8)}
    (h : Splits stream bodies tail) (h' : Splits stream bodies' tail') :
    bodies = bodies' ∧ tail = tail' := by
  induction bodies generalizing stream bodies' with
  | nil =>
    cases bodies' with
    | nil => exact ⟨rfl, h.eq.symm.trans h'.eq⟩
    | cons body bodies' => exact (h.nil_ne_cons h').elim
  | cons body bodies ih =>
    cases bodies' with
    | nil => exact (h'.nil_ne_cons h).elim
    | cons body' bodies' =>
      obtain ⟨after, hfits, heq, hafter⟩ := h.cons_inv
      obtain ⟨after', hfits', heq', hafter'⟩ := h'.cons_inv
      have hone : [stream].flatten = stream := by simp
      obtain ⟨rest, hread, hrest⟩ := next_framed hfits (hone.trans heq)
      obtain ⟨rest', hread', hrest'⟩ := next_framed hfits' (hone.trans heq')
      cases hread.symm.trans hread'
      obtain rfl := hrest.symm.trans hrest'
      obtain ⟨rfl, rfl⟩ := ih hafter hafter'
      exact ⟨rfl, rfl⟩

end Frames

end FerrumDns
