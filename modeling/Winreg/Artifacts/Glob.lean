/-
  THE GLOB MATCHER: one path component against a pattern with stars.

  `glob_match` goes over the text once, with one place to come back to: the last star of the
  pattern that it has passed.  On a mismatch that star takes one more character.

  1. **The loop** — `globPass` is one pass of it; `globMatch` runs it.
  2. **Invariant** — the pattern matches the text exactly when the rest of the pattern matches the
     rest of the text, or what follows the last star matches the text from a later mark
     (`GlobInv`).  Earlier stars are not needed: what is left of the text to the last one covers
     what they could leave to it.
  3. **Result** — the loop ends and decides `Glob` (`globMatch_eq`).
  4. **The second loop** — the pass that finds the text used up answers for the loop that skips the
     stars at the end of the pattern (`globPass_end`).
-/
import Winreg.Base.Exec
import Winreg.Base.Glob
import Winreg.Base.Text

namespace Winreg

open Rust

namespace PathExpansion

/-- The positions in the pattern and the text, the last star, and the text position it reaches. -/
structure GlobState where
  p : Nat
  t : Nat
  star : Option Nat
  mark : Nat

/-- One pass of the matcher. -/
def globPass {ε : Type} (pat txt : List Char) (s : GlobState) :
    Exec ε (Exec.Pass GlobState Bool) :=
  if s.t < txt.length then
    if s.p < pat.length ∧ pat[s.p]? = some '*' then
      .ok (.again ⟨s.p + 1, s.t, some s.p, s.t⟩)
    else if s.p < pat.length ∧ pat[s.p]? = txt[s.t]? then
      .ok (.again ⟨s.p + 1, s.t + 1, s.star, s.mark⟩)
    else
      match s.star with
      | some sp => .ok (.again ⟨sp + 1, s.mark + 1, some sp, s.mark + 1⟩)
      | none => .ok (.leave false)
  else
    -- the text is used up: the rest of the pattern has to consist of stars
    .ok (.leave ((pat.drop s.p).all (· = '*')))

/-- More passes than the matcher makes. -/
def globPasses (pat txt : List Char) : Nat :=
  (pat.length + 1) * (txt.length + 1) * (txt.length + 1)

/-- `glob_match`. -/
def globMatch {ε : Type} (pat txt : List Char) : Exec ε Bool :=
  Exec.loop (globPass pat txt) (globPasses pat txt) ⟨0, 0, none, 0⟩

/-- The second loop of `glob_match`: the stars from position `p` on are passed.  It makes at most as
    many passes as there are characters left. -/
def passStars (pat : List Char) : Nat → Nat → Nat
  | 0, p => p
  | n + 1, p => if p < pat.length ∧ pat[p]? = some '*' then passStars pat n (p + 1) else p

/-- The pattern position behind the last star. -/
def GlobState.afterStar (s : GlobState) : Nat :=
  match s.star with
  | some sp => sp + 1
  | none => 0

/-- What is left to come back to: what follows the last star, at a later mark. -/
def Retry (pat txt : List Char) (s : GlobState) : Prop :=
  ∃ sp, s.star = some sp ∧ ∃ m, s.mark < m ∧ m ≤ txt.length ∧
    Glob '*' (pat.drop (sp + 1)) (txt.drop m)

/-- The invariant of the matcher. -/
structure GlobInv (pat txt : List Char) (s : GlobState) : Prop where
  p_le : s.p ≤ pat.length
  t_le : s.t ≤ txt.length
  mark_le : s.mark ≤ s.t
  star_lt : ∀ sp, s.star = some sp → sp < s.p
  /-- Since the last star the matcher has matched characters one by one. -/
  since : ∀ sp, s.star = some sp → ∃ lits : List Char, (∀ c ∈ lits, c ≠ '*') ∧
    pat.drop (sp + 1) = lits ++ pat.drop s.p ∧ txt.drop s.mark = lits ++ txt.drop s.t
  matches_iff : Glob '*' pat txt ↔
    Glob '*' (pat.drop s.p) (txt.drop s.t) ∨ Retry pat txt s

section Invariant

variable {pat txt : List Char} {s : GlobState}

/-- The loop starts with nothing matched and no star seen. -/
theorem GlobInv.start : GlobInv pat txt ⟨0, 0, none, 0⟩ where
  p_le := Nat.zero_le _
  t_le := Nat.zero_le _
  mark_le := Nat.le_refl _
  star_lt := fun sp h => by cases h
  since := fun sp h => by cases h
  matches_iff := by
    refine ⟨Or.inl, fun h => h.resolve_right ?_⟩
    rintro ⟨sp, h, _⟩
    cases h

/-- A second star covers what the first could leave to it. -/
theorem GlobInv.retry_imp (h : GlobInv pat txt s) (hp : pat[s.p]? = some '*')
    (hr : Retry pat txt s) : Glob '*' (pat.drop s.p) (txt.drop s.t) := by
  obtain ⟨sp, hstar, m, hmark, hm, hg⟩ := hr
  obtain ⟨lits, hlits, hpat, htxt⟩ := h.since sp hstar
  obtain ⟨hlt, hget⟩ := List.getElem?_eq_some_iff.mp hp
  have hrest : pat.drop s.p = '*' :: pat.drop (s.p + 1) := by
    rw [List.drop_eq_getElem_cons hlt, hget]
  rw [hpat, Glob.append_iff hlits] at hg
  obtain ⟨rest, hsplit, hg⟩ := hg
  have hlen := congrArg List.length htxt
  have hlen' := congrArg List.length hsplit
  have hmark_le := h.mark_le
  have ht_le := h.t_le
  rw [List.length_drop, List.length_append, List.length_drop] at hlen
  rw [List.length_drop, List.length_append] at hlen'
  have hdrop : rest = txt.drop (m + lits.length) := by
    rw [← List.drop_drop, hsplit, List.drop_left]
  rw [hrest, hdrop, Glob.star_drop_iff (by omega)] at hg
  obtain ⟨k, hk, hklen, hg⟩ := hg
  rw [hrest, Glob.star_drop_iff h.t_le]
  exact ⟨k, by omega, hklen, hg⟩

/-- A star is passed: it is the one to come back to. -/
theorem GlobInv.passStar (h : GlobInv pat txt s) (hp : pat[s.p]? = some '*') :
    GlobInv pat txt ⟨s.p + 1, s.t, some s.p, s.t⟩ where
  p_le := (List.getElem?_eq_some_iff.mp hp).1
  t_le := h.t_le
  mark_le := Nat.le_refl _
  star_lt := fun sp hsp => by
    obtain rfl := Option.some.inj hsp
    exact Nat.lt_succ_self _
  since := fun sp hsp => by
    obtain rfl := Option.some.inj hsp
    exact ⟨[], fun c hc => absurd hc List.not_mem_nil, rfl, rfl⟩
  matches_iff := by
    obtain ⟨hlt, hget⟩ := List.getElem?_eq_some_iff.mp hp
    have hrest : pat.drop s.p = '*' :: pat.drop (s.p + 1) := by
      rw [List.drop_eq_getElem_cons hlt, hget]
    have hold : Glob '*' pat txt ↔ Glob '*' (pat.drop s.p) (txt.drop s.t) :=
      h.matches_iff.trans ⟨fun hg => hg.elim id (h.retry_imp hp), Or.inl⟩
    rw [hold, hrest, Glob.star_drop_iff h.t_le]
    constructor
    · rintro ⟨m, hle, hm, hg⟩
      rcases Nat.eq_or_lt_of_le hle with rfl | hlt
      · exact Or.inl hg
      · exact Or.inr ⟨s.p, rfl, m, hlt, hm, hg⟩
    · rintro (hg | ⟨sp, hsp, m, hmark, hm, hg⟩)
      · exact ⟨s.t, Nat.le_refl _, h.t_le, hg⟩
      · obtain rfl := Option.some.inj hsp
        exact ⟨m, hmark.le, hm, hg⟩

/-- A character is matched. -/
theorem GlobInv.passChar (h : GlobInv pat txt s) (hp : s.p < pat.length) (ht : s.t < txt.length)
    (hstar : pat[s.p]? ≠ some '*') (hsame : pat[s.p]? = txt[s.t]?) :
    GlobInv pat txt ⟨s.p + 1, s.t + 1, s.star, s.mark⟩ := by
  have hchar : pat[s.p] = txt[s.t] := by
    rw [List.getElem?_eq_getElem hp, List.getElem?_eq_getElem ht] at hsame
    exact Option.some.inj hsame
  have hne : pat[s.p] ≠ '*' := fun heq => hstar (by rw [List.getElem?_eq_getElem hp, heq])
  have hpat : pat.drop s.p = pat[s.p] :: pat.drop (s.p + 1) := List.drop_eq_getElem_cons hp
  have htxt : txt.drop s.t = pat[s.p] :: txt.drop (s.t + 1) := by
    rw [List.drop_eq_getElem_cons ht, hchar]
  refine ⟨hp, ht, Nat.le_succ_of_le h.mark_le, fun sp hsp => Nat.lt_succ_of_lt (h.star_lt sp hsp),
    fun sp hsp => ?_, h.matches_iff.trans (or_congr ?_ Iff.rfl)⟩
  · obtain ⟨lits, hlits, hp', ht'⟩ := h.since sp hsp
    refine ⟨lits ++ [pat[s.p]], fun c hc => ?_, ?_, ?_⟩
    · rcases List.mem_append.mp hc with hc | hc
      · exact hlits c hc
      · rw [List.mem_singleton.mp hc]; exact hne
    · rw [hp', hpat, List.append_assoc]; rfl
    · rw [ht', htxt, List.append_assoc]; rfl
  · rw [hpat, htxt, Glob.cons_iff hne]
    exact ⟨fun ⟨rest, heq, hg⟩ => (List.cons.inj heq).2 ▸ hg, fun hg => ⟨_, rfl, hg⟩⟩

/-- At a mismatch the rest of the pattern does not match the rest of the text. -/
theorem not_glob_of_mismatch (ht : s.t < txt.length) (hstar : pat[s.p]? ≠ some '*')
    (hdiff : ¬ (s.p < pat.length ∧ pat[s.p]? = txt[s.t]?)) :
    ¬ Glob '*' (pat.drop s.p) (txt.drop s.t) := by
  rw [List.drop_eq_getElem_cons ht]
  intro hg
  rcases Nat.lt_or_ge s.p pat.length with hp | hp
  · have hne : pat[s.p] ≠ '*' := fun heq => hstar (by rw [List.getElem?_eq_getElem hp, heq])
    rw [List.drop_eq_getElem_cons hp, Glob.cons_iff hne] at hg
    obtain ⟨rest, heq, _⟩ := hg
    refine hdiff ⟨hp, ?_⟩
    rw [List.getElem?_eq_getElem hp, List.getElem?_eq_getElem ht, (List.cons.inj heq).1]
  · rw [List.drop_of_length_le hp, Glob.nil_iff] at hg
    cases hg

/-- The last star takes one more character. -/
theorem GlobInv.goBack (h : GlobInv pat txt s) (ht : s.t < txt.length) {sp : Nat}
    (hsp : s.star = some sp) (hno : ¬ Glob '*' (pat.drop s.p) (txt.drop s.t)) :
    GlobInv pat txt ⟨sp + 1, s.mark + 1, some sp, s.mark + 1⟩ := by
  have hmark := h.mark_le
  have hlt := h.star_lt sp hsp
  have hp := h.p_le
  refine ⟨show sp + 1 ≤ _ by omega, show s.mark + 1 ≤ _ by omega, Nat.le_refl _,
    fun sp' h' => ?_, fun sp' h' => ?_, h.matches_iff.trans ?_⟩
  · obtain rfl := Option.some.inj h'
    exact Nat.lt_succ_self _
  · obtain rfl := Option.some.inj h'
    exact ⟨[], fun c hc => absurd hc List.not_mem_nil, rfl, rfl⟩
  · constructor
    · rintro (hg | ⟨sp', hsp', m, hm, hlen, hg⟩)
      · exact absurd hg hno
      · obtain rfl : sp = sp' := Option.some.inj (hsp.symm.trans hsp')
        rcases Nat.eq_or_lt_of_le hm with heq | hlt'
        · exact Or.inl (by rw [show s.mark + 1 = m from heq]; exact hg)
        · exact Or.inr ⟨sp, rfl, m, hlt', hlen, hg⟩
    · rintro (hg | ⟨sp', hsp', m, hm, hlen, hg⟩)
      · exact Or.inr ⟨sp, hsp, s.mark + 1, Nat.lt_succ_self _, by omega, hg⟩
      · obtain rfl : sp = sp' := Option.some.inj hsp'
        exact Or.inr ⟨sp, hsp, m, Nat.lt_of_succ_lt hm, hlen, hg⟩

/-- At the end of the text only stars may be left of the pattern. -/
theorem GlobInv.atEnd (h : GlobInv pat txt s) (ht : ¬ s.t < txt.length) :
    Glob '*' pat txt ↔ ∀ c ∈ pat.drop s.p, c = '*' := by
  have hend : txt.drop s.t = [] := List.drop_of_length_le (by omega)
  have hnone : ¬ Retry pat txt s := by
    -- what has been matched since the last star does not fit behind a later mark
    rintro ⟨sp, hsp, m, hmark, hm, hg⟩
    obtain ⟨lits, hlits, hpat, htxt⟩ := h.since sp hsp
    rw [hpat, Glob.append_iff hlits] at hg
    obtain ⟨rest, hsplit, _⟩ := hg
    have hlen := congrArg List.length htxt
    have hlen' := congrArg List.length hsplit
    rw [hend, List.length_drop, List.length_append, List.length_nil] at hlen
    rw [List.length_drop, List.length_append] at hlen'
    omega
  rw [h.matches_iff, hend, Glob.nil_right_iff]
  exact ⟨fun hg => hg.resolve_right hnone, Or.inl⟩

end Invariant

/-- What drops in every pass: what is left behind the last star, then the text behind the mark,
    then the text that is not yet read. -/
def globMeasure (pat txt : List Char) (s : GlobState) : Nat :=
  ((pat.length - s.afterStar) * (txt.length + 1) + (txt.length - s.mark)) * (txt.length + 1) +
    (txt.length - s.t)

/-- A digit of two that drops outweighs the lower one. -/
theorem digits_lt {a a' b b' n : Nat} (ha : a' < a) (hb : b' < n) : a' * n + b' < a * n + b := by
  have hstep : (a' + 1) * n ≤ a * n := Nat.mul_le_mul_right n ha
  rw [Nat.add_one_mul] at hstep
  omega

/-- **The matcher decides `Glob`.** -/
theorem globMatch_eq {ε : Type} (pat txt : List Char) : ∃ b,
    (globMatch pat txt : Exec ε Bool) = .ok b ∧ (b = true ↔ Glob '*' pat txt) := by
  refine Exec.loop_total (GlobInv pat txt) (globMeasure pat txt)
    (fun b => b = true ↔ Glob '*' pat txt) (fun s hs => ?_) _ _ GlobInv.start ?_
  · unfold globPass
    by_cases ht : s.t < txt.length
    · rw [if_pos ht]
      by_cases hstar : s.p < pat.length ∧ pat[s.p]? = some '*'
      · -- a star: the last star moves on in the pattern, which is the first digit of the measure
        rw [if_pos hstar]
        refine Or.inl ⟨_, rfl, hs.passStar hstar.2, digits_lt (digits_lt ?_ (by omega)) (by omega)⟩
        show pat.length - (s.p + 1) < pat.length - s.afterStar
        unfold GlobState.afterStar
        split
        · rename_i sp hsp
          have := hs.star_lt sp hsp
          omega
        · omega
      · have hno : pat[s.p]? ≠ some '*' := fun h =>
          hstar ⟨(List.getElem?_eq_some_iff.mp h).1, h⟩
        rw [if_neg hstar]
        by_cases hsame : s.p < pat.length ∧ pat[s.p]? = txt[s.t]?
        · -- the same character on both sides: only the position in the text moves
          rw [if_pos hsame]
          refine Or.inl ⟨_, rfl, hs.passChar hsame.1 ht hno hsame.2, Nat.add_lt_add_left ?_ _⟩
          show txt.length - (s.t + 1) < txt.length - s.t
          omega
        · rw [if_neg hsame]
          have hmis := not_glob_of_mismatch ht hno hsame
          -- a mismatch: back to the last star, which takes one more character, or no match at all
          cases hsp : s.star with
          | some sp =>
            refine Or.inl ⟨_, rfl, hs.goBack ht hsp hmis, digits_lt ?_ (by omega)⟩
            have hsame : s.afterStar = sp + 1 := by unfold GlobState.afterStar; rw [hsp]
            have hmark := hs.mark_le
            rw [hsame]
            show _ + (txt.length - (s.mark + 1)) < _ + (txt.length - s.mark)
            exact Nat.add_lt_add_left (by omega) _
          | none =>
            refine Or.inr ⟨false, rfl, fun h => absurd h (by decide), fun hg => ?_⟩
            rcases hs.matches_iff.mp hg with h | ⟨sp, h, _⟩
            · exact absurd h hmis
            · rw [hsp] at h; cases h
    · -- the text is used up, and what is left of the pattern must be stars
      rw [if_neg ht]
      refine Or.inr ⟨_, rfl, ?_⟩
      rw [hs.atEnd ht, List.all_eq_true]
      exact forall₂_congr fun c _ => decide_eq_true_iff
  · -- the first value of the measure is below the number of passes
    have hinner : pat.length * (txt.length + 1) + txt.length <
        (pat.length + 1) * (txt.length + 1) :=
      digits_lt (b := 0) (Nat.lt_succ_self _) (Nat.lt_succ_self _)
    have houter : (pat.length * (txt.length + 1) + txt.length) * (txt.length + 1) + txt.length <
        globPasses pat txt := digits_lt (b := 0) hinner (Nat.lt_succ_self _)
    exact houter

/-! ## The second loop -/

/-- The second loop reaches the end of the pattern exactly when only stars are left. -/
theorem passStars_eq_length {pat : List Char} : ∀ {n p : Nat}, n = pat.length - p →
    p ≤ pat.length → (passStars pat n p = pat.length ↔ (pat.drop p).all (· = '*') = true)
  | 0, p, hn, hp => by
    have hend : pat.drop p = [] := List.drop_of_length_le (by omega)
    show p = pat.length ↔ _
    rw [hend]
    exact ⟨fun _ => rfl, fun _ => by omega⟩
  | n + 1, p, hn, hp => by
    have hlt : p < pat.length := by omega
    have hdrop : pat.drop p = pat[p] :: pat.drop (p + 1) := List.drop_eq_getElem_cons hlt
    have hget : pat[p]? = some pat[p] := List.getElem?_eq_getElem hlt
    rw [passStars, hdrop, hget, List.all_cons, Bool.and_eq_true, decide_eq_true_eq]
    by_cases hstar : pat[p] = '*'
    · rw [if_pos ⟨hlt, congrArg some hstar⟩, passStars_eq_length (by omega) hlt]
      exact ⟨fun h => ⟨hstar, h⟩, fun h => h.2⟩
    · rw [if_neg fun h => hstar (Option.some.inj h.2)]
      exact ⟨fun h => absurd h (by omega), fun h => absurd h.1 hstar⟩

/-- When the text is used up, the matcher gives the answer of the second loop. -/
theorem globPass_end {ε : Type} {pat txt : List Char} {s : GlobState} (hs : GlobInv pat txt s)
    (ht : ¬ s.t < txt.length) : (globPass pat txt s : Exec ε _) =
      .ok (.leave (decide (passStars pat (pat.length - s.p) s.p = pat.length))) := by
  have hsecond : (pat.drop s.p).all (· = '*') =
      decide (passStars pat (pat.length - s.p) s.p = pat.length) := by
    rw [Bool.eq_iff_iff, decide_eq_true_iff]
    exact (passStars_eq_length rfl hs.p_le).symm
  unfold globPass
  rw [if_neg ht, hsecond]

end PathExpansion

end Winreg
