/-
  SEARCH: cutting a text at what is searched in it.

  Each function is a search followed by the slice that its caller takes: `cutAtFirst` is the part
  before the first separator and `cutAtLast` the part before the last one, the whole text if there
  is none; `afterFirst` is what follows the first occurrence of a needle.

  1. The cuts of a text in which the place is known.
  2. The cuts of a text whose elements are all mapped; `KeepsOnly` says that mapping neither makes
     nor loses a separator.  Lower-casing keeps every character that is no letter.
-/
import Winreg.Base.Text
import Mathlib.Data.List.Infix
import Mathlib.Data.List.TakeWhile

namespace Rust

variable {α : Type}

/-- A function that only `c` itself takes to `c`. -/
def KeepsOnly (f : α → α) (c : α) : Prop := ∀ x, f x = c ↔ x = c

/-- The marked element is in the image exactly when it is in the list. -/
theorem KeepsOnly.mem_map {f : α → α} {c : α} (h : KeepsOnly f c) {s : List α} :
    c ∈ s.map f ↔ c ∈ s := by
  rw [List.mem_map]
  constructor
  · rintro ⟨x, hx, heq⟩
    exact (h x).mp heq ▸ hx
  · intro hc
    exact ⟨c, hc, (h c).mpr rfl⟩

variable [DecidableEq α]

/-! ## Cuts -/

/-- `match s.find(c) { Some(pos) => &s[..pos], None => s }`. -/
def cutAtFirst (c : α) (s : List α) : List α := s.takeWhile (· ≠ c)

/-- `match s.rfind(c) { Some(pos) => &s[..pos], None => s }`. -/
def cutAtLast (c : α) : List α → List α
  | [] => []
  | x :: xs => if c ∈ xs then x :: cutAtLast c xs else if x = c then [] else x :: xs

/-- `s.find(needle).map(|pos| &s[pos + needle.len()..])`. -/
def afterFirst (needle : List α) : List α → Option (List α)
  | [] => if needle = [] then some [] else none
  | x :: xs => if needle <+: x :: xs then some ((x :: xs).drop needle.length)
      else afterFirst needle xs

/-! ## Where the cuts are -/

/-- A head without the separator stays. -/
theorem cutAtFirst_append {c : α} {s t : List α} (h : c ∉ s) :
    cutAtFirst c (s ++ t) = s ++ cutAtFirst c t :=
  List.takeWhile_append_of_pos fun _ hx => decide_eq_true fun heq => h (heq ▸ hx)

/-- Without the mark there is nothing to cut. -/
theorem cutAtLast_eq_self {c : α} {s : List α} (h : c ∉ s) : cutAtLast c s = s := by
  cases s with
  | nil => rfl
  | cons x xs =>
    rw [cutAtLast, if_neg fun hmem => h (List.mem_cons_of_mem x hmem),
      if_neg fun heq : x = c => h (heq ▸ List.mem_cons_self)]

/-- A tail without the separator goes, and the separator before it. -/
theorem cutAtLast_append_cons {c : α} (s : List α) {t : List α} (h : c ∉ t) :
    cutAtLast c (s ++ c :: t) = s := by
  induction s with
  | nil => rw [List.nil_append, cutAtLast, if_neg h, if_pos rfl]
  | cons x xs ih =>
    rw [List.cons_append, cutAtLast, if_pos (List.mem_append_right xs List.mem_cons_self), ih]

/-- Where there is a separator, there is a last one. -/
theorem eq_append_cons_last {c : α} : ∀ {s : List α}, c ∈ s → ∃ a b, s = a ++ c :: b ∧ c ∉ b
  | x :: xs, h => by
    by_cases hxs : c ∈ xs
    · obtain ⟨a, b, rfl, hb⟩ := eq_append_cons_last hxs
      exact ⟨x :: a, b, rfl, hb⟩
    · rcases List.mem_cons.mp h with rfl | hmem
      · exact ⟨[], xs, rfl, hxs⟩
      · exact absurd hmem hxs

/-- A needle is found where it stands, when its first element does not occur before it. -/
theorem afterFirst_append {c : α} {needle : List α} : ∀ {head : List α} (tail : List α), c ∉ head →
    afterFirst (c :: needle) (head ++ (c :: needle ++ tail)) = some tail
  | [], tail, _ => by
    rw [List.nil_append, List.cons_append, afterFirst,
      if_pos (List.prefix_cons_inj c |>.mpr (List.prefix_append needle tail)), List.length_cons,
      List.drop_succ_cons, List.drop_left]
  | x :: head, tail, h => by
    have hx : ¬ c :: needle <+: x :: (head ++ (c :: needle ++ tail)) := fun hpre =>
      h ((List.cons_prefix_cons.mp hpre).1 ▸ List.mem_cons_self)
    rw [List.cons_append, afterFirst, if_neg hx]
    exact afterFirst_append tail fun hmem => h (List.mem_cons_of_mem x hmem)

/-! ## Mapped texts -/

/-- Cutting commutes with a map that sends only the mark to the mark. -/
theorem cutAtFirst_map {f : α → α} {c : α} (h : KeepsOnly f c) (s : List α) :
    cutAtFirst c (s.map f) = (cutAtFirst c s).map f := by
  show (s.map f).takeWhile (· ≠ c) = (s.takeWhile (· ≠ c)).map f
  rw [List.takeWhile_map]
  congr 2
  funext x
  exact decide_eq_decide.mpr (not_congr (h x))

/-- At the last mark as well as at the first. -/
theorem cutAtLast_map {f : α → α} {c : α} (h : KeepsOnly f c) (s : List α) :
    cutAtLast c (s.map f) = (cutAtLast c s).map f := by
  by_cases hmem : c ∈ s
  · obtain ⟨a, b, rfl, hb⟩ := eq_append_cons_last hmem
    rw [cutAtLast_append_cons a hb, List.map_append, List.map_cons, (h c).mpr rfl,
      cutAtLast_append_cons _ (mt h.mem_map.mp hb)]
  · rw [cutAtLast_eq_self hmem, cutAtLast_eq_self (mt h.mem_map.mp hmem)]

/-- Lower-casing takes no other character to one that is no letter. -/
theorem toLower_keepsOnly {c : Char} (hupper : ¬ (65 ≤ c.toNat ∧ c.toNat ≤ 90))
    (hlower : ¬ (97 ≤ c.toNat ∧ c.toNat ≤ 122)) : KeepsOnly Char.toLower c := by
  intro x
  rw [← Char.toNat_inj, ← Char.toNat_inj, toNat_toLower]
  split <;> omega

/-- A text that is, but for case, a name and a separator. -/
theorem eqIgnoreAsciiCase_append_singleton {sep : Char} (hsep : KeepsOnly Char.toLower sep)
    {head name : Str} : eqIgnoreAsciiCase head (name ++ [sep]) ↔
      ∃ own, head = own ++ [sep] ∧ eqIgnoreAsciiCase own name := by
  unfold eqIgnoreAsciiCase toAsciiLowercase
  simp only [decide_eq_true_eq]
  rw [List.map_append, List.map_singleton, (hsep sep).mpr rfl]
  constructor
  · intro h
    obtain ⟨own, tail, rfl, hown, htail⟩ := List.map_eq_append_iff.mp h
    obtain ⟨x, rfl, hx⟩ := List.map_eq_singleton_iff.mp htail
    exact ⟨own, by rw [(hsep x).mp hx], hown⟩
  · rintro ⟨own, rfl, hown⟩
    rw [List.map_append, List.map_singleton, hown, (hsep sep).mpr rfl]

end Rust
