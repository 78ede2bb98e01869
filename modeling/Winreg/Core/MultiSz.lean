/-
  LISTS OF STRINGS: `REG_MULTI_SZ` data is read back as the strings that it was written from.

  The loop over the units leaves at an empty string, and a second pass then looks at the tail from
  where the loop stands: behind the final zero it finds a zero again and takes nothing, and without
  a final zero it takes the string that has no terminator.

  1. **Units** — a unit is two bytes, and an odd byte at the end is none.
  2. **The loop** — over one terminated string (`splitMultiSz_terminated`), and over a list of
     them by induction (`splitMultiSz_blocks`), the strings before them as a parameter.
  3. **The ends** — what the second pass finds behind the list, and the four ways to end it
     (`decodeMultiSz_written`).
-/
import Winreg.Core.Value
import Winreg.Base.Utf16
import Mathlib.Data.List.TakeWhile

namespace Winreg

open Rust

/-! ## Units -/

/-- Units written as bytes are read before anything that follows them. -/
theorem utf16Units_append (us : List UInt16) (trailing : Bytes) :
    utf16Units (us.flatMap u16Bytes ++ trailing) = us ++ utf16Units trailing := by
  induction us with
  | nil => rfl
  | cons u us ih =>
    have hone : utf16Units (u16Bytes u ++ []) = [u] := by
      simpa using utf16Units_bytes [u]
    show utf16Units (u16Bytes u ++ us.flatMap u16Bytes ++ trailing) = u :: (us ++ _)
    rw [List.append_assoc, ← ih]
    exact congrArg (· ++ utf16Units (us.flatMap u16Bytes ++ trailing)) hone

/-- A last odd byte is no unit. -/
theorem utf16Units_odd {odd : Bytes} (h : odd.length ≤ 1) : utf16Units odd = [] := by
  match odd, h with
  | [], _ => rfl
  | [_], _ => rfl

/-! ## The loop -/

/-- Units that are not zero only move the index on. -/
theorem splitMultiSz_nonzero (u16s : List UInt16) {s : List UInt16} (hs : 0 ∉ s)
    (rest : List UInt16) (i start : Nat) (strings : List Str) :
    splitMultiSz u16s (s ++ rest) i start strings =
      splitMultiSz u16s rest (i + s.length) start strings := by
  induction s generalizing i with
  | nil => rfl
  | cons u s ih =>
    obtain ⟨hu, hs⟩ := not_or.mp (mt List.mem_cons.mpr hs)
    show splitMultiSz u16s (u :: (s ++ rest)) i start strings = _
    rw [splitMultiSz, if_neg (Ne.symm hu), ih hs, List.length_cons, Nat.add_assoc,
      Nat.add_comm 1]

/-- **One terminated string** behind the units that were read. -/
theorem splitMultiSz_terminated (done : List UInt16) {s : List UInt16} (hne : s ≠ [])
    (hs : 0 ∉ s) (rest : List UInt16) (strings : List Str) :
    splitMultiSz (done ++ (s ++ 0 :: rest)) (s ++ 0 :: rest) done.length done.length strings =
      splitMultiSz (done ++ (s ++ 0 :: rest)) rest (done ++ (s ++ [0])).length
        (done ++ (s ++ [0])).length (strings ++ [fromUtf16Lossy s]) := by
  have hpos : 0 < s.length := List.length_pos_of_ne_nil hne
  have hcut : ((done ++ (s ++ 0 :: rest)).drop done.length).take
      (done.length + s.length - done.length) = s := by
    rw [List.drop_left, Nat.add_sub_cancel_left, List.take_left]
  rw [splitMultiSz_nonzero _ hs, splitMultiSz, if_pos rfl, if_neg (by omega), hcut]
  simp only [List.length_append, List.length_singleton, Nat.add_assoc]

/-- The units of a list of strings, each with its terminator. -/
def terminated (ss : List (List UInt16)) : List UInt16 := ss.flatMap (· ++ [0])

/-- **A list of terminated strings** behind the units that were read. -/
theorem splitMultiSz_blocks {ss : List (List UInt16)} (h : ∀ s ∈ ss, s ≠ [] ∧ 0 ∉ s)
    (rest : List UInt16) : ∀ (done : List UInt16) (strings : List Str),
    splitMultiSz (done ++ (terminated ss ++ rest)) (terminated ss ++ rest) done.length
        done.length strings =
      splitMultiSz (done ++ (terminated ss ++ rest)) rest (done ++ terminated ss).length
        (done ++ terminated ss).length (strings ++ ss.map fromUtf16Lossy) := by
  induction ss with
  | nil =>
    intro done strings
    simp only [terminated, List.flatMap_nil, List.nil_append, List.append_nil, List.map_nil]
  | cons s ss ih =>
    intro done strings
    obtain ⟨hne, hs⟩ := h s List.mem_cons_self
    have hsplit : terminated (s :: ss) ++ rest = s ++ 0 :: (terminated ss ++ rest) := by
      simp only [terminated, List.flatMap_cons, List.append_assoc, List.cons_append,
        List.nil_append]
    have hread : terminated (s :: ss) = s ++ [0] ++ terminated ss := List.flatMap_cons
    have hdone : done ++ (s ++ 0 :: (terminated ss ++ rest)) =
        done ++ (s ++ [0]) ++ (terminated ss ++ rest) := by
      simp only [List.append_assoc, List.singleton_append]
    rw [hsplit, splitMultiSz_terminated done hne hs, hdone,
      ih (fun t ht => h t (List.mem_cons_of_mem _ ht)), hread, List.append_assoc strings,
      List.singleton_append, List.map_cons, List.append_assoc done (s ++ [0]) (terminated ss)]

/-! ## The ends -/

/-- What the second pass of `decodeMultiSz` takes from the tail that the loop leaves. -/
def unterminatedTail (tail : List UInt16) : List Str :=
  if tail.takeWhile (· ≠ 0) ≠ [] then [fromUtf16Lossy (tail.takeWhile (· ≠ 0))] else []

/-- `decodeMultiSz` on data whose units are terminated strings and a tail at which the loop ends:
    a final zero with anything behind it, or units without a zero. -/
theorem decodeMultiSz_blocks {data : Bytes} {ss : List (List UInt16)} {tail : List UInt16}
    (hdata : utf16Units data = terminated ss ++ tail) (h : ∀ s ∈ ss, s ≠ [] ∧ 0 ∉ s)
    (htail : tail.head? = some 0 ∨ 0 ∉ tail) :
    decodeMultiSz data = ss.map fromUtf16Lossy ++ unterminatedTail tail := by
  have hloop : splitMultiSz (terminated ss ++ tail) (terminated ss ++ tail) 0 0 [] =
      ((terminated ss).length, ss.map fromUtf16Lossy) := by
    have hblocks := splitMultiSz_blocks h tail [] []
    simp only [List.nil_append, List.length_nil] at hblocks
    rw [hblocks]
    rcases htail with hzero | hnone
    · -- The loop stands at an empty string, and leaves.
      obtain ⟨rest, rfl⟩ := List.head?_eq_some_iff.mp hzero
      rw [splitMultiSz, if_pos rfl, if_pos rfl]
    · have hend := splitMultiSz_nonzero (terminated ss ++ tail) hnone [] (terminated ss).length
        (terminated ss).length (ss.map fromUtf16Lossy)
      rw [List.append_nil] at hend
      rw [hend, splitMultiSz]
  unfold decodeMultiSz unterminatedTail
  rw [hdata]
  dsimp only
  rw [hloop]
  dsimp only
  rw [List.drop_left, List.length_append]
  cases tail with
  | nil => rw [if_neg (by simp)]; simp
  | cons u tail =>
    rw [if_pos (by simp)]
    split <;> simp

/-- A terminator leaves no tail. -/
theorem unterminatedTail_zero (rest : List UInt16) : unterminatedTail (0 :: rest) = [] := by
  have hnone : (0 :: rest).takeWhile (· ≠ 0) = [] := rfl
  unfold unterminatedTail
  rw [hnone, if_neg (not_not.mpr rfl)]

/-- A last string without a terminator is the tail. -/
theorem unterminatedTail_nonzero {s : List UInt16} (hne : s ≠ []) (hs : 0 ∉ s) :
    unterminatedTail s = [fromUtf16Lossy s] := by
  have hall : s.takeWhile (· ≠ 0) = s := by
    rw [List.takeWhile_eq_self_iff]
    intro u hu
    exact decide_eq_true fun hzero => hs (hzero ▸ hu)
  unfold unterminatedTail
  rw [hall, if_pos hne]

/-- Units as little-endian bytes. -/
def unitBytes (us : List UInt16) : Bytes := us.flatMap u16Bytes

/-- **Written strings are read back**, in order: with a final zero and anything behind it, without
    the final zero, and without a terminator of the last string; in the two short forms an odd byte
    may be left.  The units are split at zeros, and the strings have none inside; so splitting what
    was joined gives the strings back. -/
theorem decodeMultiSz_written {ss : List (List UInt16)} (h : ∀ s ∈ ss, s ≠ [] ∧ 0 ∉ s) :
    (∀ trailing, decodeMultiSz (unitBytes (terminated ss) ++ u16Bytes 0 ++ trailing) =
      ss.map fromUtf16Lossy) ∧
    (∀ odd, odd.length ≤ 1 →
      decodeMultiSz (unitBytes (terminated ss) ++ odd) = ss.map fromUtf16Lossy) ∧
    ∀ init last, ss = init ++ [last] → ∀ odd, odd.length ≤ 1 →
      decodeMultiSz (unitBytes (terminated init ++ last) ++ odd) = ss.map fromUtf16Lossy := by
  refine ⟨?_, ?_, ?_⟩
  · intro trailing
    have hdata : utf16Units (unitBytes (terminated ss) ++ u16Bytes 0 ++ trailing) =
        terminated ss ++ 0 :: utf16Units trailing := by
      unfold unitBytes
      rw [List.append_assoc, utf16Units_append]
      exact congrArg (terminated ss ++ ·) (utf16Units_append [0] trailing)
    rw [decodeMultiSz_blocks hdata h (Or.inl rfl), unterminatedTail_zero, List.append_nil]
  · intro odd hodd
    have hdata : utf16Units (unitBytes (terminated ss) ++ odd) = terminated ss ++ [] := by
      unfold unitBytes
      rw [utf16Units_append, utf16Units_odd hodd]
    rw [decodeMultiSz_blocks hdata h (Or.inr List.not_mem_nil)]
    exact List.append_nil _
  · intro init last hss odd hodd
    subst hss
    obtain ⟨hne, hlast⟩ := h last (List.mem_append_right _ List.mem_cons_self)
    have hdata : utf16Units (unitBytes (terminated init ++ last) ++ odd) =
        terminated init ++ last := by
      unfold unitBytes
      rw [utf16Units_append, utf16Units_odd hodd, List.append_nil]
    rw [decodeMultiSz_blocks hdata (fun s hs => h s (List.mem_append_left _ hs)) (Or.inr hlast),
      unterminatedTail_nonzero hne hlast, List.map_append, List.map_cons, List.map_nil]

/-- Two strings, `a` and `bc`, and some of the ways in which they end. -/
theorem decodeMultiSz_written_two :
    decodeMultiSz (unitBytes (terminated [[97], [98, 99]]) ++ u16Bytes 0 ++ [1, 2, 3]) =
      ["a".toList, "bc".toList] ∧
    decodeMultiSz (unitBytes (terminated [[97]] ++ [98, 99]) ++ [1]) =
      ["a".toList, "bc".toList] := by
  have hwritten := @decodeMultiSz_written [[97], [98, 99]] (by decide)
  exact ⟨hwritten.1 _, hwritten.2.2 [[97]] [98, 99] rfl [1] (by decide)⟩

end Winreg
