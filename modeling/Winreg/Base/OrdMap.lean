/-
  ORDERED MAPS: `BTreeMap` as the balanced search tree of the standard library.

  A map is a `Std.TreeMap`; iterating it gives its entries in ascending key order.  The standard
  library has the laws of `insert` and of lookup; this file adds the two access paths of the
  modelled code that it lacks.

  1. **Search from the end** — `findRev p m` is `m.iter().rev().find(p)`: among the entries that
     satisfy `p`, the one with the greatest key (`findRev_eq_some`).
  2. **Grouping** — `pushAt m k x` is `m.entry(k).or_default().push(x)`; grouping a whole list
     leaves under `k` what was given for `k`, in order (`getElem?_groupBy`).
  3. **Filling** — inserting the elements of a list leaves under a key the value given for it
     (`getElem?_insertAll`).
-/
import Mathlib.Tactic.Linarith.Datatypes
import Mathlib.Tactic.Common

namespace Rust

/-- An ordered map. -/
abbrev BTreeMap (κ β : Type) [Ord κ] := Std.TreeMap κ β

namespace BTreeMap

variable {κ β : Type} [Ord κ]

/-! ## Search from the end -/

/-- `m.iter().rev().find(p)`. -/
def findRev (p : κ × β → Bool) (m : BTreeMap κ β) : Option (κ × β) := m.toList.reverse.find? p

/-- The search from the end finds nothing when no entry passes. -/
theorem findRev_eq_none [Std.TransOrd κ] [Std.LawfulEqOrd κ] {p : κ × β → Bool}
    {m : BTreeMap κ β} :
    findRev p m = none ↔ ∀ k v, m[k]? = some v → p (k, v) = false := by
  unfold findRev
  rw [List.find?_eq_none]
  constructor
  · intro h k v hkv
    have hmem : (k, v) ∈ m.toList.reverse :=
      List.mem_reverse.mpr (Std.TreeMap.mem_toList_iff_getElem?_eq_some.mpr hkv)
    simpa using h (k, v) hmem
  · rintro h ⟨k, v⟩ hmem
    have hkv := Std.TreeMap.mem_toList_iff_getElem?_eq_some.mp (List.mem_reverse.mp hmem)
    simp [h k v hkv]

/-- In a list sorted by key, the first hit from the end has the greatest key of all hits. -/
theorem find?_reverse_of_sorted {p : κ × β → Bool} {l : List (κ × β)}
    (hs : l.Pairwise (fun a b => compare a.1 b.1 = .lt)) {e : κ × β}
    (h : l.reverse.find? p = some e) :
    ∀ e' ∈ l, p e' = true → e' = e ∨ compare e'.1 e.1 = .lt := by
  intro e' hmem hp
  obtain ⟨_, before, after, hsplit, hbefore⟩ := List.find?_eq_some_iff_append.mp h
  have hl : l = after.reverse ++ e :: before.reverse := by
    rw [← List.reverse_reverse l, hsplit]; simp
  rw [hl] at hmem hs
  rcases List.mem_append.mp hmem with h' | h'
  · exact Or.inr ((List.pairwise_append.mp hs).2.2 e' h' e List.mem_cons_self)
  · rcases List.mem_cons.mp h' with rfl | h'
    · exact Or.inl rfl
    · have := hbefore e' (List.mem_reverse.mp h')
      rw [hp] at this; cases this

/-- **What a search from the end finds**: a hit whose key no other hit exceeds. -/
theorem findRev_eq_some [Std.TransOrd κ] [Std.LawfulEqOrd κ] {p : κ × β → Bool}
    {m : BTreeMap κ β} {k : κ} {v : β} :
    findRev p m = some (k, v) ↔ m[k]? = some v ∧ p (k, v) = true ∧
      ∀ k' v', m[k']? = some v' → p (k', v') = true → (compare k' k).isLE := by
  have hsorted := Std.TreeMap.ordered_keys_toList (t := m)
  constructor
  · intro h
    have hmem : (k, v) ∈ m.toList := List.mem_reverse.mp (List.mem_of_find?_eq_some h)
    refine ⟨Std.TreeMap.mem_toList_iff_getElem?_eq_some.mp hmem, List.find?_some h, ?_⟩
    intro k' v' hk' hp'
    have hmem' := Std.TreeMap.mem_toList_iff_getElem?_eq_some.mpr hk'
    rcases find?_reverse_of_sorted hsorted h (k', v') hmem' hp' with heq | hlt
    · rw [(Prod.mk.inj heq).1, Std.ReflOrd.compare_self]; rfl
    · rw [hlt]; rfl
  · rintro ⟨hk, hp, hmax⟩
    have hmem := Std.TreeMap.mem_toList_iff_getElem?_eq_some.mpr hk
    cases hfind : findRev p m with
    | none =>
      have := findRev_eq_none.mp hfind k v hk
      rw [hp] at this; cases this
    | some e =>
      rcases find?_reverse_of_sorted hsorted hfind (k, v) hmem hp with heq | hlt
      · rw [heq]
      · -- the hit found has a key above `k`, against the maximality of `k`
        have hmem' : e ∈ m.toList := List.mem_reverse.mp (List.mem_of_find?_eq_some hfind)
        have hle := hmax e.1 e.2 (Std.TreeMap.mem_toList_iff_getElem?_eq_some.mp hmem')
          (List.find?_some hfind)
        have hgt : compare e.1 k = .gt := Std.OrientedCmp.gt_of_lt hlt
        rw [hgt] at hle; cases hle

/-! ## Grouping -/

/-- `m.entry(k).or_default().push(x)`. -/
def pushAt (m : BTreeMap κ (List β)) (k : κ) (x : β) : BTreeMap κ (List β) :=
  m.insert k (m[k]?.getD [] ++ [x])

/-- Pushing changes the list of its own key only. -/
theorem getElem?_pushAt [Std.TransOrd κ] (m : BTreeMap κ (List β)) (k a : κ) (x : β) :
    (pushAt m k x)[a]? = if compare k a = .eq then some (m[k]?.getD [] ++ [x]) else m[a]? :=
  Std.TreeMap.getElem?_insert

variable {α : Type} [Std.TransOrd κ] [Std.LawfulEqOrd κ]

/-- **Grouping a list**: under a key stand the elements given for it, in order, behind what was
    there. -/
theorem getElem?_groupBy [DecidableEq κ] (key : α → κ) (val : α → β) (k : κ) :
    ∀ (xs : List α) (m : BTreeMap κ (List β)),
      (xs.foldl (fun m x => m.pushAt (key x) (val x)) m)[k]? =
        if (xs.filter fun x => key x = k) = [] then m[k]?
        else some (m[k]?.getD [] ++ (xs.filter fun x => key x = k).map val) := by
  intro xs
  induction xs with
  | nil => intro m; rfl
  | cons x xs ih =>
    intro m
    rw [List.foldl_cons, ih, getElem?_pushAt]
    by_cases hx : key x = k
    · subst hx
      have hkeep : (x :: xs).filter (fun y => key y = key x) =
          x :: xs.filter fun y => key y = key x := List.filter_cons_of_pos (decide_eq_true rfl)
      rw [if_pos Std.ReflOrd.compare_self, hkeep, if_neg (List.cons_ne_nil _ _), Option.getD_some,
        List.map_cons, List.append_assoc, List.singleton_append]
      split
      · rename_i hnil
        rw [hnil, List.map_nil]
      · rfl
    · have hne : ¬ compare (key x) k = .eq := fun heq =>
        hx (Std.LawfulEqCmp.compare_eq_iff_eq.mp heq)
      rw [if_neg hne, List.filter_cons_of_neg (by simpa using hx)]

/-! ## Filling -/

/-- Keys that are not inserted keep what was there. -/
theorem getElem?_insertAll_of_not_mem {key : α → κ} {val : α → β} {k : κ} :
    ∀ {xs : List α} {m : BTreeMap κ β}, (∀ x ∈ xs, key x ≠ k) →
      (xs.foldl (fun m x => m.insert (key x) (val x)) m)[k]? = m[k]? := by
  intro xs
  induction xs with
  | nil => exact fun _ => rfl
  | cons x xs ih =>
    intro m h
    have hx : ¬ compare (key x) k = .eq := fun heq =>
      h x List.mem_cons_self (Std.LawfulEqCmp.compare_eq_iff_eq.mp heq)
    rw [List.foldl_cons, ih fun y hy => h y (List.mem_cons_of_mem x hy),
      Std.TreeMap.getElem?_insert, if_neg hx]

/-- **Under an inserted key** stands the value that is given for it throughout. -/
theorem getElem?_insertAll {key : α → κ} {val : α → β} {k : κ} {v : β} :
    ∀ {xs : List α} {m : BTreeMap κ β}, (∀ x ∈ xs, key x = k → val x = v) →
      ((∃ x ∈ xs, key x = k) ∨ m[k]? = some v) →
      (xs.foldl (fun m x => m.insert (key x) (val x)) m)[k]? = some v := by
  intro xs
  induction xs with
  | nil =>
    rintro m _ (⟨x, hx, _⟩ | hm)
    · exact absurd hx List.not_mem_nil
    · exact hm
  | cons x xs ih =>
    intro m hval hor
    rw [List.foldl_cons]
    refine ih (fun y hy => hval y (List.mem_cons_of_mem x hy)) ?_
    by_cases hx : key x = k
    · right
      rw [← hval x List.mem_cons_self hx, ← hx]
      exact Std.TreeMap.getElem?_insert_self
    · rcases hor with ⟨y, hy, hyk⟩ | hm
      · rcases List.mem_cons.mp hy with rfl | hy
        · exact absurd hyk hx
        · exact Or.inl ⟨y, hy, hyk⟩
      · right
        rw [Std.TreeMap.getElem?_insert, if_neg fun heq =>
          hx (Std.LawfulEqCmp.compare_eq_iff_eq.mp heq)]
        exact hm

/-- **A map filled from a list** holds the pairs of the list. -/
theorem getElem?_insertAll_eq_some_iff {key : α → κ} {val : α → β} {k : κ} {v : β} {xs : List α}
    (h : ∀ x ∈ xs, ∀ y ∈ xs, key x = key y → val x = val y) :
    (xs.foldl (fun m x => m.insert (key x) (val x)) (∅ : BTreeMap κ β))[k]? = some v ↔
      ∃ x ∈ xs, key x = k ∧ val x = v := by
  constructor
  · intro hget
    by_cases hmem : ∃ x ∈ xs, key x = k
    · obtain ⟨x, hx, hk⟩ := hmem
      have hval := @getElem?_insertAll _ _ _ _ _ _ key val k (val x) xs ∅
        (fun y hy hyk => h y hy x hx (hyk.trans hk.symm)) (Or.inl ⟨x, hx, hk⟩)
      exact ⟨x, hx, hk, Option.some.inj (hval.symm.trans hget)⟩
    · rw [getElem?_insertAll_of_not_mem fun x hx hk => hmem ⟨x, hx, hk⟩,
        Std.TreeMap.getElem?_emptyc] at hget
      cases hget
  · rintro ⟨x, hx, hk, rfl⟩
    exact getElem?_insertAll (fun y hy hyk => h y hy x hx (hyk.trans hk.symm)) (Or.inl ⟨x, hx, hk⟩)

/-- The keys of a map are listed without repetitions. -/
theorem nodup_keys_toList (m : BTreeMap κ β) : (m.toList.map Prod.fst).Nodup := by
  refine List.pairwise_map.mpr (m.distinct_keys_toList.imp fun {e f} hne heq => hne ?_)
  rw [heq]
  exact Std.ReflOrd.compare_self

end BTreeMap
end Rust
