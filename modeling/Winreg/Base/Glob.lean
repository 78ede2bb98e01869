/-
  WILDCARD PATTERNS: lists in which one symbol stands for any run of symbols.

  1. **Matching** — `Glob star pat txt`: every star of the pattern stands for some run of the text,
     every other symbol for itself.
  2. **Inversion** — what is matched by a pattern that starts with a star, with another symbol, or
     with a run of other symbols; a star also matches whatever it matches after a longer run
     (`Glob.star_drop_iff`), which is why a matcher has to come back to the last star only.
  3. **Pieces** — the same as a way to cut the text up (`Glob.iff_pieces`).
-/
import Mathlib.Tactic.Common

namespace Rust

/-- The pattern matches the text. -/
inductive Glob {α : Type} (star : α) : List α → List α → Prop where
  | nil : Glob star [] []
  | one {c : α} {pat txt : List α} (hc : c ≠ star) (rest : Glob star pat txt) :
      Glob star (c :: pat) (c :: txt)
  | star {pat txt : List α} (run : List α) (rest : Glob star pat txt) :
      Glob star (star :: pat) (run ++ txt)

namespace Glob

variable {α : Type} {star : α} {pat txt : List α}

/-- The empty pattern matches the empty text only. -/
theorem nil_iff : Glob star [] txt ↔ txt = [] := by
  constructor
  · intro h
    cases h with
    | nil => rfl
  · rintro rfl
    exact .nil

/-- A pattern that starts with a star matches a run and what the rest matches. -/
theorem star_iff : Glob star (star :: pat) txt ↔ ∃ run rest, txt = run ++ rest ∧
    Glob star pat rest := by
  constructor
  · intro h
    cases h with
    | one hc => exact absurd rfl hc
    | star run rest => exact ⟨run, _, rfl, rest⟩
  · rintro ⟨run, rest, rfl, h⟩
    exact .star run h

/-- A pattern that starts with another symbol matches that symbol and what the rest matches. -/
theorem cons_iff {c : α} (hc : c ≠ star) : Glob star (c :: pat) txt ↔ ∃ rest, txt = c :: rest ∧
    Glob star pat rest := by
  constructor
  · intro h
    cases h with
    | one _ rest => exact ⟨_, rfl, rest⟩
    | star run rest => exact absurd rfl hc
  · rintro ⟨rest, rfl, h⟩
    exact .one hc h

/-- A run of other symbols matches itself. -/
theorem append_iff {lits : List α} (h : ∀ c ∈ lits, c ≠ star) : Glob star (lits ++ pat) txt ↔
    ∃ rest, txt = lits ++ rest ∧ Glob star pat rest := by
  induction lits generalizing txt with
  | nil => exact ⟨fun hg => ⟨txt, rfl, hg⟩, fun ⟨rest, heq, hg⟩ => heq ▸ hg⟩
  | cons c lits ih =>
    have hlits : ∀ c ∈ lits, c ≠ star := fun d hd => h d (List.mem_cons_of_mem _ hd)
    rw [List.cons_append, cons_iff (h c List.mem_cons_self)]
    constructor
    · rintro ⟨rest, rfl, hg⟩
      obtain ⟨rest', rfl, hg'⟩ := (ih hlits).mp hg
      exact ⟨rest', rfl, hg'⟩
    · rintro ⟨rest, rfl, hg⟩
      exact ⟨lits ++ rest, rfl, (ih hlits).mpr ⟨rest, rfl, hg⟩⟩

/-- The empty text is matched by stars only. -/
theorem nil_right_iff : Glob star pat [] ↔ ∀ c ∈ pat, c = star := by
  induction pat with
  | nil => exact ⟨fun _ c hc => absurd hc List.not_mem_nil, fun _ => .nil⟩
  | cons c pat ih =>
    by_cases hc : c = star
    · subst hc
      rw [star_iff]
      constructor
      · rintro ⟨run, rest, hsplit, hg⟩
        obtain ⟨rfl, rfl⟩ := List.append_eq_nil_iff.mp hsplit.symm
        exact List.forall_mem_cons.mpr ⟨rfl, ih.mp hg⟩
      · exact fun h => ⟨[], [], rfl, ih.mpr (List.forall_mem_cons.mp h).2⟩
    · rw [cons_iff hc]
      refine ⟨fun hg => ?_, fun h => absurd (h c List.mem_cons_self) hc⟩
      obtain ⟨rest, heq, _⟩ := hg
      cases heq

/-- The texts that a star may leave to the rest of the pattern. -/
theorem star_drop_iff {n : Nat} (hn : n ≤ txt.length) : Glob star (star :: pat) (txt.drop n) ↔
    ∃ m, n ≤ m ∧ m ≤ txt.length ∧ Glob star pat (txt.drop m) := by
  rw [star_iff]
  constructor
  · rintro ⟨run, rest, hsplit, hg⟩
    have hlen := congrArg List.length hsplit
    rw [List.length_drop, List.length_append] at hlen
    refine ⟨n + run.length, by omega, by omega, ?_⟩
    rw [← List.drop_drop, hsplit, List.drop_left]
    exact hg
  · rintro ⟨m, hnm, _, hg⟩
    refine ⟨(txt.drop n).take (m - n), txt.drop m, ?_, hg⟩
    have hdrop : txt.drop m = (txt.drop n).drop (m - n) := by
      rw [List.drop_drop, Nat.add_sub_cancel' hnm]
    rw [hdrop, List.take_append_drop]

/-- **Matching is splitting**: the text is cut into one piece for each symbol of the pattern, any
    piece for a star and the symbol itself for every other. -/
theorem iff_pieces : Glob star pat txt ↔ ∃ pieces : List (List α),
    List.Forall₂ (fun c piece => c ≠ star → piece = [c]) pat pieces ∧ pieces.flatten = txt := by
  constructor
  · intro h
    induction h with
    | nil => exact ⟨[], .nil, rfl⟩
    | @one c pat txt hc _ ih =>
      obtain ⟨pieces, hall, rfl⟩ := ih
      exact ⟨[c] :: pieces, .cons (fun _ => rfl) hall, rfl⟩
    | @star pat txt run _ ih =>
      obtain ⟨pieces, hall, rfl⟩ := ih
      exact ⟨run :: pieces, .cons (fun hne => absurd rfl hne) hall, rfl⟩
  · rintro ⟨pieces, hall, rfl⟩
    induction hall with
    | nil => exact .nil
    | @cons c piece pat pieces hpiece _ ih =>
      show Glob star (c :: pat) (piece ++ pieces.flatten)
      by_cases hc : c = star
      · subst hc
        exact .star piece ih
      · rw [hpiece hc]
        exact .one hc ih

end Glob

end Rust
