/-
  PAIRED LISTS: two lists whose elements correspond one to one, in order.

  1. **By index** — in lists of one length, elements of one index are paired (`getElem_mem_zip`).
  2. **By relation** — a related element for each gives a related list (`exists_forall₂`,
     `exists_forall₂_between`), and in related lists every element has its counterpart
     (`forall₂_left`, `forall₂_right`).
  3. **Lists of lists** — where only one of some lists is not empty, they join to it
     (`flatten_of_single`), and two of them are as long as all together at most
     (`length_add_le_flatten`).
-/
import Mathlib.Data.List.Forall2
import Mathlib.Data.List.Nodup

namespace Rust

variable {α β : Type} {R : α → β → Prop}

/-- Elements of one index stand next to each other. -/
theorem getElem_mem_zip {xs : List α} {ys : List β} (hlength : xs.length = ys.length)
    {i : Nat} (hi : i < xs.length) : (xs[i], ys[i]) ∈ xs.zip ys := by
  refine List.mem_iff_getElem.mpr ⟨i, by rw [List.length_zip]; omega, ?_⟩
  rw [List.getElem_zip]

/-- In lists of one length every element has a partner. -/
theorem exists_mem_zip {xs : List α} {ys : List β} (hlength : xs.length = ys.length)
    {x : α} (h : x ∈ xs) : ∃ y, (x, y) ∈ xs.zip ys := by
  obtain ⟨i, hi, rfl⟩ := List.getElem_of_mem h
  exact ⟨_, getElem_mem_zip hlength hi⟩

/-- Lists that are related pair by pair. -/
theorem forall₂_of_zip {xs : List α} {ys : List β} (hlength : xs.length = ys.length)
    (h : ∀ p ∈ xs.zip ys, R p.1 p.2) : List.Forall₂ R xs ys :=
  List.forall₂_iff_zip.mpr ⟨hlength, fun hp => h _ hp⟩

/-- One related element for each, given that there is one for each. -/
theorem exists_forall₂ : ∀ {xs : List α}, (∀ x ∈ xs, ∃ y, R x y) → ∃ ys, List.Forall₂ R xs ys
  | [], _ => ⟨[], .nil⟩
  | x :: xs, h => by
    obtain ⟨y, hy⟩ := h x List.mem_cons_self
    obtain ⟨ys, hys⟩ := exists_forall₂ fun x hx => h x (List.mem_cons_of_mem _ hx)
    exact ⟨y :: ys, .cons hy hys⟩

/-- Every element on the left has a counterpart. -/
theorem forall₂_left {xs : List α} {ys : List β} (h : List.Forall₂ R xs ys) {x : α}
    (hx : x ∈ xs) : ∃ y ∈ ys, R x y := by
  induction h with
  | nil => cases hx
  | cons hxy _ ih =>
    rcases List.mem_cons.mp hx with rfl | hx
    · exact ⟨_, List.mem_cons_self, hxy⟩
    · obtain ⟨y, hy, hrel⟩ := ih hx
      exact ⟨y, List.mem_cons_of_mem _ hy, hrel⟩

/-- Every element on the right has a counterpart. -/
theorem forall₂_right {xs : List α} {ys : List β} (h : List.Forall₂ R xs ys) {y : β}
    (hy : y ∈ ys) : ∃ x ∈ xs, R x y :=
  forall₂_left (R := flip R) h.flip hy

/-- What corresponds to the elements of a list of pairs. -/
theorem forall₂_zip_trans {γ : Type} {xs : List α} {ys : List β} (h : List.Forall₂ R xs ys) :
    ∀ {zs : List γ}, ys.length = zs.length →
      List.Forall₂ (fun x z => ∃ y, R x y ∧ (y, z) ∈ ys.zip zs) xs zs := by
  induction h with
  | nil =>
    intro zs hlength
    obtain rfl := List.length_eq_zero_iff.mp hlength.symm
    exact .nil
  | cons hxy _ ih =>
    intro zs hlength
    cases zs with
    | nil => cases hlength
    | cons z zs =>
      refine .cons ⟨_, hxy, List.mem_cons_self⟩ ((ih (Nat.succ.inj hlength)).imp ?_)
      rintro x z ⟨y, hy, hmem⟩
      exact ⟨y, hy, List.mem_cons_of_mem _ hmem⟩

/-- A list between two related ones. -/
theorem exists_forall₂_between {γ : Type} {S : β → γ → Prop} {xs : List α} {zs : List γ}
    (h : List.Forall₂ (fun x z => ∃ y, R x y ∧ S y z) xs zs) :
    ∃ ys, List.Forall₂ R xs ys ∧ List.Forall₂ S ys zs := by
  induction h with
  | nil => exact ⟨[], .nil, .nil⟩
  | cons hxz _ ih =>
    obtain ⟨y, hxy, hyz⟩ := hxz
    obtain ⟨ys, hxs, hzs⟩ := ih
    exact ⟨y :: ys, .cons hxy hxs, .cons hyz hzs⟩

/-- **The one list that is not empty**: that of the element `k`. -/
theorem flatten_of_single {k : α} {l : List β} {keys : List α} {lists : List (List β)}
    (hnodup : keys.Nodup) (hk : k ∈ keys)
    (h : List.Forall₂ (fun key l' => (key = k → l' = l) ∧ (key ≠ k → l' = [])) keys lists) :
    lists.flatten = l := by
  induction h with
  | nil => cases hk
  | @cons key l' keys lists hfirst hrest ih =>
    obtain ⟨hnew, hnodup⟩ := List.nodup_cons.mp hnodup
    rw [List.flatten_cons]
    by_cases hkey : key = k
    · -- `k` does not occur again, so the rest is empty
      have hempty : lists.flatten = [] := List.flatten_eq_nil_iff.mpr fun l'' hl'' => by
        obtain ⟨key', hkey', _, hother⟩ := forall₂_right hrest hl''
        exact hother fun heq => hnew (hkey.trans heq.symm ▸ hkey')
      rw [hfirst.1 hkey, hempty, List.append_nil]
    · have hk' : k ∈ keys := (List.mem_cons.mp hk).resolve_left (Ne.symm hkey)
      rw [hfirst.2 hkey, ih hnodup hk', List.nil_append]

/-- The lists of two elements are together no longer than all lists. -/
theorem length_add_le_flatten {S : α → List β → Prop} {keys : List α} {lists : List (List β)}
    (h : List.Forall₂ S keys lists) {a b : α} (ha : a ∈ keys) (hb : b ∈ keys) (hne : a ≠ b) :
    ∃ u v, S a u ∧ S b v ∧ u.length + v.length ≤ lists.flatten.length := by
  induction h with
  | nil => cases ha
  | @cons key l keys lists hl hrest ih =>
    rw [List.flatten_cons, List.length_append]
    rcases List.mem_cons.mp ha with rfl | ha' <;> rcases List.mem_cons.mp hb with rfl | hb'
    · exact absurd rfl hne
    · -- the list of `a` is the first one, that of `b` is one of the others
      obtain ⟨v, hv, hbv⟩ := forall₂_left hrest hb'
      exact ⟨l, v, hl, hbv, Nat.add_le_add_left (List.sublist_flatten_of_mem hv).length_le _⟩
    · obtain ⟨u, hu, hau⟩ := forall₂_left hrest ha'
      rw [Nat.add_comm l.length]
      exact ⟨u, l, hau, hl, Nat.add_le_add_right (List.sublist_flatten_of_mem hu).length_le _⟩
    · obtain ⟨u, v, hau, hbv, hle⟩ := ih ha' hb'
      exact ⟨u, v, hau, hbv, Nat.le_add_left_of_le hle⟩

end Rust
