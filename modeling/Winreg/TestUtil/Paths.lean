/-
  WHAT THE BUILDER IS GIVEN, as a tree, and the walk over that tree.

  1. **Paths** — a path is the list of its components.  The prefix closure of the given paths is
     listed in the order in which its members are first mentioned, the paths of the keys before the
     paths of the values; the children of a path are its continuations in that order.  From these
     the tree that was meant is read off (`TestHiveBuilder.tree`).
  2. **Strings** — joining components by backslashes loses nothing when no component is empty or
     has a backslash in it, so the maps that the builder keys by strings hold the children and the
     values of a path (`childrenOf_joinParts`, `getElem?_values`).
  3. **The walk** — a recursive pass visits every path of the closure once, parents first
     (`preorder`), so it is one loop over a list (`walkChildren_eq`).
-/
import Winreg.TestUtil.Builder
import Winreg.Core.Tree

namespace Winreg.TestUtil

open Rust

/-! ## Keeping the first mention -/

section PushNew

variable {α β : Type} [DecidableEq α] [DecidableEq β]

/-- The elements of a list, each where it is first mentioned. -/
def firstMentions (xs : List α) : List α := xs.foldl pushNew []

/-- Pushing adds one element, or nothing where it is there already. -/
theorem mem_pushNew {all : List α} {x y : α} : y ∈ pushNew all x ↔ y ∈ all ∨ y = x := by
  unfold pushNew
  split
  · rename_i hx
    exact ⟨Or.inl, fun h => h.elim id fun heq => heq ▸ hx⟩
  · rw [List.mem_append, List.mem_singleton]

/-- Pushing a list adds its elements, by induction on the list. -/
theorem mem_foldl_pushNew {xs : List α} : ∀ {all : List α} {y : α},
    y ∈ xs.foldl pushNew all ↔ y ∈ all ∨ y ∈ xs := by
  induction xs with
  | nil => intro all y; simp
  | cons x xs ih =>
    intro all y
    rw [List.foldl_cons, ih, mem_pushNew, List.mem_cons, or_assoc]

/-- First mentions keep every element. -/
theorem mem_firstMentions {xs : List α} {y : α} : y ∈ firstMentions xs ↔ y ∈ xs := by
  unfold firstMentions
  rw [mem_foldl_pushNew]
  simp

theorem nodup_pushNew {all : List α} (h : all.Nodup) (x : α) : (pushNew all x).Nodup := by
  unfold pushNew
  split
  · exact h
  · rename_i hx
    exact List.nodup_append.mpr ⟨h, List.nodup_singleton x, fun a ha b hb hab => by
      rw [List.mem_singleton.mp hb] at hab
      exact hx (hab ▸ ha)⟩

/-- And each of them once. -/
theorem nodup_firstMentions (xs : List α) : (firstMentions xs).Nodup := by
  have hfold : ∀ (xs all : List α), all.Nodup → (xs.foldl pushNew all).Nodup := by
    intro xs
    induction xs with
    | nil => exact fun _ h => h
    | cons x xs ih => exact fun all h => ih _ (nodup_pushNew h x)
  exact hfold xs [] .nil

/-- A list without repetitions is pushed as it is. -/
theorem foldl_pushNew_of_nodup {xs : List α} : ∀ {all : List α}, (all ++ xs).Nodup →
    xs.foldl pushNew all = all ++ xs := by
  induction xs with
  | nil => intro all _; rw [List.append_nil]; rfl
  | cons x xs ih =>
    intro all h
    have hx : x ∉ all := fun hmem =>
      (List.nodup_append.mp h).2.2 x hmem x List.mem_cons_self rfl
    have hpush : pushNew all x = all ++ [x] := if_neg hx
    rw [List.foldl_cons, hpush, ih (by rw [List.append_assoc]; exact h), List.append_assoc]
    rfl

/-- An injective map goes through the pushes. -/
theorem foldl_pushNew_map {f : α → β} {xs : List α} : ∀ {all : List α},
    (∀ x ∈ all ++ xs, ∀ y ∈ all ++ xs, f x = f y → x = y) →
    (xs.map f).foldl pushNew (all.map f) = (xs.foldl pushNew all).map f := by
  induction xs with
  | nil => exact fun _ => rfl
  | cons x xs ih =>
    intro all hinj
    have hpush : pushNew (all.map f) (f x) = (pushNew all x).map f := by
      unfold pushNew
      by_cases hx : x ∈ all
      · rw [if_pos hx, if_pos (List.mem_map_of_mem hx)]
      · have hfx : f x ∉ all.map f := fun hmem => by
          obtain ⟨y, hy, heq⟩ := List.mem_map.mp hmem
          exact hx (hinj y (List.mem_append_left _ hy) x (by simp) heq ▸ hy)
        rw [if_neg hx, if_neg hfx, List.map_append]
        rfl
    rw [List.map_cons, List.foldl_cons, List.foldl_cons, hpush]
    refine ih fun y hy z hz => hinj y ?_ z ?_
    · rcases List.mem_append.mp hy with h | h
      · rcases mem_pushNew.mp h with h | rfl <;> simp [*]
      · simp [h]
    · rcases List.mem_append.mp hz with h | h
      · rcases mem_pushNew.mp h with h | rfl <;> simp [*]
      · simp [h]

end PushNew

/-! ## Paths -/

/-- The components of a path. -/
abbrev Path := List Str

/-- `path.split('\\')`. -/
def components (path : Str) : Path := path.splitOn '\\'

/-- The prefixes of a path, the empty one left out. -/
def nonemptyPrefixes (p : Path) : List Path := (List.range' 1 p.length).map p.take

/-- A value of the tree, as it is read back. -/
def TreeValue.toRegValue (v : TreeValue) : RegValue :=
  ⟨v.name, ValueType.fromRaw v.dataType, v.data⟩

namespace TestHiveBuilder

variable (b : TestHiveBuilder)

/-- The given paths: those of the keys, then those of the values. -/
def mentions : List Path :=
  b.keys.map components ++ b.values.map fun v => components v.keyPath

/-- The prefix closure of the given paths, in the order of first mention. -/
def closure : List Path := firstMentions (b.mentions.flatMap nonemptyPrefixes)

/-- The names of the children of a path, in the order of first mention. -/
def childNames (p : Path) : List Str :=
  b.closure.filterMap fun q => if q.dropLast = p then q.getLast? else none

/-- The values given under a path, in the order in which they were given. -/
def valuesAt (p : Path) : List TreeValue :=
  (b.values.filter fun v => components v.keyPath = p).map fun v => ⟨v.name, v.dataType, v.data⟩

/-- Number of components of the longest path. -/
def depth : Nat := (b.mentions.map List.length).foldr max 0

/-- The key at a path, called `name`, with everything up to `n` levels below it. -/
def subtree : Nat → Path → Str → Winreg.KeyTree
  | 0, p, name => .node name ((b.valuesAt p).map TreeValue.toRegValue) []
  | n + 1, p, name => .node name ((b.valuesAt p).map TreeValue.toRegValue)
      ((b.childNames p).map fun c => subtree n (p ++ [c]) c)

/-- **The tree that was given**: the root, and below it the prefix closure of the given paths with
    the given values. -/
def tree : Winreg.KeyTree := b.subtree b.depth [] "CMI-root".toList

/-- What a hive can hold: nonempty ASCII names of fewer than 65536 bytes, ASCII value names of fewer
    than 65536 bytes, at most 65535 children of a key, at most 65535 segments of data. -/
structure Valid : Prop where
  components : ∀ p ∈ b.mentions, ∀ c ∈ p, c ≠ [] ∧ isAscii c = true ∧ utf8Len c < 65536
  valueNames : ∀ v ∈ b.values, isAscii v.name = true ∧ utf8Len v.name < 65536
  children : ∀ p, (b.childNames p).length ≤ 65535
  data : ∀ v ∈ b.values, v.data.length ≤ 65535 * 16344

end TestHiveBuilder

/-! ## Strings -/

/-- The components of a string have no backslash in them. -/
theorem not_mem_of_mem_splitOn {c : Char} : ∀ {s part : Str}, part ∈ s.splitOn c → c ∉ part := by
  intro s
  induction s with
  | nil =>
    intro part hpart
    rw [List.splitOn_nil, List.mem_singleton] at hpart
    subst hpart
    exact List.not_mem_nil
  | cons x s ih =>
    intro part hpart
    rw [List.splitOn_cons_eq_if_modifyHead] at hpart
    split at hpart
    · rcases List.mem_cons.mp hpart with rfl | h
      · exact List.not_mem_nil
      · exact ih h
    · rename_i hx
      cases hsplit : s.splitOn c with
      | nil => exact absurd hsplit (List.splitOn_ne_nil c s)
      | cons first rest =>
        rw [hsplit, List.modifyHead_cons] at hpart
        rw [hsplit] at ih
        rcases List.mem_cons.mp hpart with rfl | h
        · intro hmem
          rcases List.mem_cons.mp hmem with heq | hmem
          · exact hx (beq_iff_eq.mpr heq.symm)
          · exact ih List.mem_cons_self hmem
        · exact ih (List.mem_cons_of_mem _ h)

/-- Splitting a path and joining it again gives the path. -/
theorem joinParts_components (s : Str) : joinParts (components s) = s :=
  List.intercalate_splitOn '\\'

/-- A path whose components are nonempty and have no backslash in them. -/
def GoodPath (p : Path) : Prop := ∀ c ∈ p, c ≠ [] ∧ '\\' ∉ c

/-- A prefix of a path of good names is one. -/
theorem GoodPath.left {p q : Path} (h : GoodPath (p ++ q)) : GoodPath p := fun c hc =>
  h c (List.mem_append_left q hc)

/-- Good names have no separator, so a joined path is split into them again. -/
theorem components_joinParts {p : Path} (h : GoodPath p) (hne : p ≠ []) :
    components (joinParts p) = p :=
  List.splitOn_intercalate '\\' (fun c hc => (h c hc).2) hne

theorem joinParts_nil : joinParts [] = [] := rfl

theorem joinParts_singleton (c : Str) : joinParts [c] = c := List.intercalate_singleton

/-- Joining one more component. -/
theorem joinParts_concat {p : Path} (hne : p ≠ []) (c : Str) :
    joinParts (p ++ [c]) = joinParts p ++ '\\' :: c := by
  induction p with
  | nil => exact absurd rfl hne
  | cons x p ih =>
    cases p with
    | nil =>
      show ['\\'].intercalate [x, c] = ['\\'].intercalate [x] ++ _
      rw [List.intercalate_cons_cons, List.intercalate_singleton, List.intercalate_singleton]
      simp
    | cons y p =>
      have ih := ih (List.cons_ne_nil y p)
      show ['\\'].intercalate (x :: y :: (p ++ [c])) = ['\\'].intercalate (x :: y :: p) ++ _
      rw [List.intercalate_cons_cons, List.intercalate_cons_cons]
      show x ++ ['\\'] ++ joinParts (y :: p ++ [c]) = x ++ ['\\'] ++ joinParts (y :: p) ++ _
      rw [ih]
      simp

/-- A joined path of good names is not empty. -/
theorem joinParts_ne_nil {p : Path} (h : GoodPath p) (hne : p ≠ []) : joinParts p ≠ [] := by
  intro hjoin
  have hsplit := components_joinParts h hne
  rw [hjoin] at hsplit
  have hnil : p = [[]] := hsplit.symm
  exact (h [] (by rw [hnil]; exact List.mem_singleton_self _)).1 rfl

/-- Joining is injective on good paths. -/
theorem joinParts_inj {p q : Path} (hp : GoodPath p) (hq : GoodPath q)
    (h : joinParts p = joinParts q) : p = q := by
  by_cases hpn : p = []
  · by_cases hqn : q = []
    · rw [hpn, hqn]
    · rw [hpn, joinParts_nil] at h
      exact absurd h.symm (joinParts_ne_nil hq hqn)
  · by_cases hqn : q = []
    · rw [hqn, joinParts_nil] at h
      exact absurd h (joinParts_ne_nil hp hpn)
    · rw [← components_joinParts hp hpn, ← components_joinParts hq hqn, h]

/-- The full path of a child is the joined path with its name behind it. -/
theorem fullPath_joinParts {p : Path} (h : GoodPath p) (c : Str) :
    fullPath (joinParts p) c = joinParts (p ++ [c]) := by
  unfold fullPath
  by_cases hp : p = []
  · rw [hp, if_pos joinParts_nil, List.nil_append, joinParts_singleton]
  · rw [if_neg (joinParts_ne_nil h hp), joinParts_concat hp]

/-- Nothing is found where the character does not stand. -/
theorem rfind_eq_none {c : Char} {s : Str} (h : c ∉ s) : rfind c s = none := by
  induction s with
  | nil => rfl
  | cons x s ih =>
    rw [rfind, ih fun hmem => h (List.mem_cons_of_mem x hmem)]
    exact if_neg fun heq : x = c => h (heq ▸ List.mem_cons_self)

/-- The last separator is the one behind which there is none. -/
theorem rfind_append_cons {c : Char} (s : Str) {t : Str} (h : c ∉ t) :
    rfind c (s ++ c :: t) = some s.length := by
  induction s with
  | nil =>
    rw [List.nil_append, rfind, rfind_eq_none h]
    exact if_pos rfl
  | cons x s ih => rw [List.cons_append, rfind, ih]; rfl

/-! ## What the builder's maps hold -/

section Maps

variable {b : TestHiveBuilder}

/-- The keys that a path needs: the path and its parents. -/
theorem mem_nonemptyPrefixes {p q : Path} : q ∈ nonemptyPrefixes p ↔ q ≠ [] ∧ q <+: p := by
  unfold nonemptyPrefixes
  rw [List.mem_map]
  constructor
  · rintro ⟨i, hi, rfl⟩
    obtain ⟨hlo, hhi⟩ := List.mem_range'_1.mp hi
    refine ⟨fun hnil => ?_, List.take_prefix i p⟩
    have hlen := congrArg List.length hnil
    rw [List.length_take, List.length_nil] at hlen
    omega
  · rintro ⟨hne, hpre⟩
    have hpos := List.length_pos_iff.mpr hne
    have hle := hpre.length_le
    exact ⟨q.length, List.mem_range'_1.mpr ⟨hpos, by omega⟩, (List.prefix_iff_eq_take.mp hpre).symm⟩

/-- **The closure** is made of the nonempty prefixes of the given paths. -/
theorem mem_closure {q : Path} : q ∈ b.closure ↔ q ≠ [] ∧ ∃ p ∈ b.mentions, q <+: p := by
  unfold TestHiveBuilder.closure
  rw [mem_firstMentions, List.mem_flatMap]
  constructor
  · rintro ⟨p, hp, hq⟩
    obtain ⟨hne, hpre⟩ := mem_nonemptyPrefixes.mp hq
    exact ⟨hne, p, hp, hpre⟩
  · rintro ⟨hne, p, hp, hpre⟩
    exact ⟨p, hp, mem_nonemptyPrefixes.mpr ⟨hne, hpre⟩⟩

/-- Each key is planned once. -/
theorem nodup_closure (b : TestHiveBuilder) : b.closure.Nodup := nodup_firstMentions _

/-- The closure is closed under prefixes. -/
theorem closure_of_prefix {p q : Path} (hq : q ∈ b.closure) (hpre : p <+: q) (hne : p ≠ []) :
    p ∈ b.closure := by
  obtain ⟨_, m, hm, hqm⟩ := mem_closure.mp hq
  exact mem_closure.mpr ⟨hne, m, hm, hpre.trans hqm⟩

/-- No path is longer than the depth of the builder. -/
theorem length_le_depth {p : Path} (hp : p ∈ b.closure) : p.length ≤ b.depth := by
  obtain ⟨_, m, hm, hpm⟩ := mem_closure.mp hp
  have hmax : ∀ {xs : List Nat} {x : Nat}, x ∈ xs → x ≤ xs.foldr max 0 := by
    intro xs
    induction xs with
    | nil => exact fun hx => absurd hx List.not_mem_nil
    | cons y xs ih =>
      intro x hx
      rw [List.foldr_cons]
      rcases List.mem_cons.mp hx with rfl | hx
      · exact Nat.le_max_left _ _
      · exact Nat.le_trans (ih hx) (Nat.le_max_right _ _)
  exact Nat.le_trans hpm.length_le (hmax (List.mem_map_of_mem hm))

/-- **The children** of a path are its continuations in the closure. -/
theorem mem_childNames {p : Path} {c : Str} : c ∈ b.childNames p ↔ p ++ [c] ∈ b.closure := by
  unfold TestHiveBuilder.childNames
  rw [List.mem_filterMap]
  constructor
  · rintro ⟨q, hq, hlast⟩
    split at hlast
    · rename_i hdrop
      obtain ⟨init, rfl⟩ := List.getLast?_eq_some_iff.mp hlast
      rw [List.dropLast_concat] at hdrop
      rw [← hdrop]
      exact hq
    · cases hlast
  · intro h
    refine ⟨p ++ [c], h, ?_⟩
    rw [if_pos List.dropLast_concat, List.getLast?_concat]

/-- Siblings have different names. -/
theorem nodup_childNames (b : TestHiveBuilder) (p : Path) : (b.childNames p).Nodup := by
  unfold TestHiveBuilder.childNames
  refine (nodup_closure b).filterMap fun q q' c hc hc' => ?_
  -- both are `p` with `c` behind it
  have hform : ∀ q : Path, c ∈ (if q.dropLast = p then q.getLast? else none) → q = p ++ [c] := by
    intro q hq
    split at hq
    · rename_i hdrop
      obtain ⟨init, rfl⟩ := List.getLast?_eq_some_iff.mp hq
      rw [List.dropLast_concat] at hdrop
      rw [hdrop]
    · cases hq
  rw [hform q hc, hform q' hc']

/-- The paths that are given are good. -/
theorem TestHiveBuilder.Valid.goodPath (h : b.Valid) {p : Path} (hp : p ∈ b.closure) :
    GoodPath p := by
  obtain ⟨_, m, hm, hpm⟩ := mem_closure.mp hp
  intro c hc
  have hcm := hpm.subset hc
  refine ⟨(h.components m hm c hcm).1, ?_⟩
  rcases List.mem_append.mp hm with hkey | hvalue
  · obtain ⟨s, _, rfl⟩ := List.mem_map.mp hkey
    exact not_mem_of_mem_splitOn hcm
  · obtain ⟨v, _, rfl⟩ := List.mem_map.mp hvalue
    exact not_mem_of_mem_splitOn hcm

/-- **All paths** of the builder are the closure, joined. -/
theorem allPaths_eq (h : b.Valid) :
    KeyTree.allPaths b.keys b.values = b.closure.map joinParts := by
  have hone : KeyTree.addPrefixes = fun all path =>
      ((nonemptyPrefixes (components path)).map joinParts).foldl pushNew all := by
    funext all path
    unfold KeyTree.addPrefixes nonemptyPrefixes
    rw [List.foldl_map, List.foldl_map]
    rfl
  have hflat : KeyTree.allPaths b.keys b.values =
      ((b.mentions.flatMap nonemptyPrefixes).map joinParts).foldl pushNew [] := by
    unfold KeyTree.allPaths TestHiveBuilder.mentions
    rw [List.flatMap_append, List.map_append, List.foldl_append, List.flatMap_map,
      List.flatMap_map, List.map_flatMap, List.map_flatMap, List.foldl_flatMap,
      List.foldl_flatMap, hone]
  have hgood : ∀ p ∈ b.mentions.flatMap nonemptyPrefixes, GoodPath p := fun p hp =>
    h.goodPath (mem_firstMentions.mpr hp)
  rw [hflat]
  exact @foldl_pushNew_map _ _ _ _ _ _ [] fun p hp q hq =>
    joinParts_inj (hgood p hp) (hgood q hq)

/-- Entering the paths of a list: the paths of one component are children of the root, the others
    are grouped under their parents. -/
theorem foldl_addChild : ∀ {paths : List Path} (acc : List Str × BTreeMap Str (List Str)),
    (∀ p ∈ paths, GoodPath p ∧ p ≠ []) →
    (paths.map joinParts).foldl KeyTree.addChild acc =
      ((paths.filterMap fun p => if p.dropLast = [] then p.getLast? else none).foldl pushNew acc.1,
        (paths.filter fun p => p.dropLast ≠ []).foldl (fun m p =>
          m.pushAt (joinParts p.dropLast) (p.getLast?.getD [])) acc.2) := by
  intro paths
  induction paths with
  | nil => exact fun _ _ => rfl
  | cons p paths ih =>
    intro acc h
    obtain ⟨hgood, hne⟩ := h p List.mem_cons_self
    obtain ⟨init, c, rfl⟩ : ∃ init c, p = init ++ [c] :=
      ⟨_, _, (List.dropLast_concat_getLast hne).symm⟩
    have hc : '\\' ∉ c := (hgood c (by simp)).2
    rw [List.map_cons, List.foldl_cons, ih _ fun q hq => h q (List.mem_cons_of_mem _ hq)]
    by_cases hinit : init = []
    · -- a top-level path
      subst hinit
      have hchild : KeyTree.addChild acc (joinParts ([] ++ [c])) = (pushNew acc.1 c, acc.2) := by
        rw [List.nil_append, joinParts_singleton, KeyTree.addChild, rfind_eq_none hc]
      rw [hchild, List.filterMap_cons_some (b := c) (by rfl), List.foldl_cons,
        List.filter_cons_of_neg (by simp)]
    · -- a deeper path is cut at its last backslash, since its last component has none
      have hchild : KeyTree.addChild acc (joinParts (init ++ [c])) =
          (acc.1, acc.2.pushAt (joinParts init) c) := by
        rw [joinParts_concat hinit, KeyTree.addChild, rfind_append_cons _ hc]
        dsimp only
        rw [List.take_left, List.drop_append, List.drop_of_length_le (by omega), List.nil_append,
          Nat.add_sub_cancel_left]
        rfl
      rw [hchild, List.filterMap_cons_none (by rw [List.dropLast_concat, if_neg hinit]),
        List.filter_cons_of_pos (by simpa using hinit), List.foldl_cons, List.dropLast_concat,
        List.getLast?_concat, Option.getD_some]

/-- The children of the root. -/
theorem rootChildren_eq (h : b.Valid) :
    (KeyTree.fromPaths b.keys b.values).rootChildren = b.childNames [] := by
  have hpaths : ∀ p ∈ b.closure, GoodPath p ∧ p ≠ [] := fun p hp =>
    ⟨h.goodPath hp, (mem_closure.mp hp).1⟩
  unfold KeyTree.fromPaths
  rw [allPaths_eq h, foldl_addChild _ hpaths]
  exact foldl_pushNew_of_nodup (nodup_childNames b [])

/-- There is nothing to remove from a list without repetitions. -/
theorem dedup_of_nodup {α : Type} [DecidableEq α] : ∀ {xs : List α}, xs.Nodup → dedup xs = xs
  | [], _ => rfl
  | [_], _ => rfl
  | x :: y :: rest, h => by
    obtain ⟨hx, hrest⟩ := List.nodup_cons.mp h
    rw [dedup, if_neg fun heq : x = y => hx (heq ▸ List.mem_cons_self), dedup_of_nodup hrest]

/-- **The children map** holds the children of a path under its string. -/
theorem childrenOf_joinParts (h : b.Valid) {p : Path} (hp : p ∈ b.closure) :
    (KeyTree.fromPaths b.keys b.values).childrenOf (joinParts p) = b.childNames p := by
  have hpaths : ∀ q ∈ b.closure, GoodPath q ∧ q ≠ [] := fun q hq =>
    ⟨h.goodPath hq, (mem_closure.mp hq).1⟩
  have hne := (mem_closure.mp hp).1
  -- the paths grouped under the string are those below `p`
  have hgroup : ((b.closure.filter fun q => q.dropLast ≠ []).filter fun q =>
      joinParts q.dropLast = joinParts p).map (fun q => q.getLast?.getD []) = b.childNames p := by
    unfold TestHiveBuilder.childNames
    rw [List.filter_filter, ← List.filterMap_eq_map, ← List.filterMap_eq_filter,
      List.filterMap_filterMap]
    refine List.filterMap_congr fun q hq => ?_
    obtain ⟨hgood, hqne⟩ := hpaths q hq
    obtain ⟨init, c, rfl⟩ : ∃ init c, q = init ++ [c] :=
      ⟨_, _, (List.dropLast_concat_getLast hqne).symm⟩
    rw [List.dropLast_concat, List.getLast?_concat]
    by_cases hinit : init = p
    · subst hinit
      simp [Option.guard, hne]
    · have hjoin : joinParts init ≠ joinParts p := fun heq =>
        hinit (joinParts_inj hgood.left (h.goodPath hp) heq)
      simp [Option.guard, hinit, hjoin]
  have hnil : ((b.closure.filter fun q => q.dropLast ≠ []).filter fun q =>
      joinParts q.dropLast = joinParts p) = [] ↔ b.childNames p = [] := by
    rw [← hgroup, List.map_eq_nil_iff]
  have hmap : (KeyTree.fromPaths b.keys b.values).children[joinParts p]? =
      if b.childNames p = [] then none else some (b.childNames p) := by
    unfold KeyTree.fromPaths
    rw [allPaths_eq h, foldl_addChild _ hpaths]
    show ((List.foldl _ _ _ : BTreeMap Str (List Str)).map fun _ names => dedup names)[_]? = _
    rw [Std.TreeMap.getElem?_map, BTreeMap.getElem?_groupBy, hgroup,
      Std.TreeMap.getElem?_emptyc]
    by_cases hkids : b.childNames p = []
    · rw [if_pos (hnil.mpr hkids), if_pos hkids, Option.map_none]
    · rw [if_neg (mt hnil.mp hkids), if_neg hkids, Option.getD_none, List.nil_append,
        Option.map_some, dedup_of_nodup (nodup_childNames b p)]
  unfold KeyTree.childrenOf
  rw [hmap]
  by_cases hkids : b.childNames p = []
  · rw [if_pos hkids, Option.getD_none, hkids]
  · rw [if_neg hkids, Option.getD_some]

/-- A given path is the joined path of its components. -/
theorem keyPath_eq_iff (h : b.Valid) {p : Path} (hp : p ∈ b.closure) {v : TestValue}
    (hv : v ∈ b.values) : v.keyPath = joinParts p ↔ components v.keyPath = p := by
  have hgood : GoodPath (components v.keyPath) := fun c hc =>
    ⟨(h.components _ (List.mem_append_right _ (List.mem_map_of_mem hv)) c hc).1,
      not_mem_of_mem_splitOn hc⟩
  constructor
  · intro heq
    rw [← joinParts_components v.keyPath] at heq
    exact joinParts_inj hgood (h.goodPath hp) heq
  · intro heq
    rw [← heq, joinParts_components]

/-- **The values map** holds the values of a path under its string. -/
theorem getElem?_values (h : b.Valid) {p : Path} (hp : p ∈ b.closure) :
    (KeyTree.fromPaths b.keys b.values).values[joinParts p]? =
      if b.valuesAt p = [] then none else some (b.valuesAt p) := by
  have hfilter : (b.values.filter fun v => v.keyPath = joinParts p) =
      b.values.filter fun v => components v.keyPath = p := by
    refine List.filter_congr fun v hv => ?_
    rw [decide_eq_decide]
    exact keyPath_eq_iff h hp hv
  show (b.values.foldl (fun m v => m.pushAt v.keyPath ⟨v.name, v.dataType, v.data⟩) ∅ :
    BTreeMap Str (List TreeValue))[joinParts p]? = _
  rw [BTreeMap.getElem?_groupBy, hfilter, Std.TreeMap.getElem?_emptyc, Option.getD_none,
    List.nil_append]
  unfold TestHiveBuilder.valuesAt
  simp only [List.map_eq_nil_iff]

/-- Every entry of the values map belongs to a path of the closure. -/
theorem exists_path_of_values {key : Str} {vals : List TreeValue}
    (hget : (KeyTree.fromPaths b.keys b.values).values[key]? = some vals) :
    components key ∈ b.closure ∧ ∃ v ∈ b.values, v.keyPath = key := by
  have hgroup : (b.values.foldl (fun m v => m.pushAt v.keyPath ⟨v.name, v.dataType, v.data⟩) ∅ :
      BTreeMap Str (List TreeValue))[key]? = some vals := hget
  rw [BTreeMap.getElem?_groupBy, Std.TreeMap.getElem?_emptyc] at hgroup
  split at hgroup
  · cases hgroup
  · rename_i hsome
    obtain ⟨v, hv⟩ := List.exists_mem_of_ne_nil _ hsome
    obtain ⟨hmem, hkey⟩ := List.mem_filter.mp hv
    have hkey : v.keyPath = key := of_decide_eq_true hkey
    refine ⟨mem_closure.mpr ⟨List.splitOn_ne_nil _ _, components key, ?_, List.prefix_refl _⟩,
      v, hmem, hkey⟩
    rw [← hkey]
    exact List.mem_append_right _ (List.mem_map_of_mem hmem)

end Maps

/-! ## The walk -/

section Walk

variable {b : TestHiveBuilder}

/-- The paths below `p`, at most `n` levels down, in the order of the walk. -/
def preorder (b : TestHiveBuilder) : Nat → Path → List Path
  | 0, _ => []
  | n + 1, p => (b.childNames p).flatMap fun c => (p ++ [c]) :: preorder b n (p ++ [c])

/-- A key without children has nothing below it. -/
theorem preorder_of_leaf {p : Path} (h : b.childNames p = []) (n : Nat) : preorder b n p = [] := by
  cases n with
  | zero => rfl
  | succ n => rw [preorder, h]; rfl

/-- The deepest paths have no children. -/
theorem childNames_of_deepest {p : Path} (h : ∀ r ∈ b.closure, r.length ≤ p.length) :
    b.childNames p = [] :=
  List.eq_nil_iff_forall_not_mem.mpr fun c hc => by
    have hlen := h _ (mem_childNames.mp hc)
    rw [List.length_append, List.length_singleton] at hlen
    omega

/-- More levels than there are add nothing. -/
theorem preorder_add : ∀ {n : Nat} {p : Path}, (∀ r ∈ b.closure, r.length ≤ p.length + n) →
    ∀ k, preorder b (n + k) p = preorder b n p := by
  intro n
  induction n with
  | zero =>
    intro p h k
    have hleaf := childNames_of_deepest h
    rw [preorder_of_leaf hleaf, preorder_of_leaf hleaf]
  | succ n ih =>
    intro p h k
    rw [Nat.add_right_comm, preorder, preorder]
    refine List.flatMap_congr fun c _ => ?_
    rw [ih fun r hr => ?_]
    have := h r hr
    rw [List.length_append, List.length_singleton]
    omega

/-- What is listed below a path is a key, and properly below it. -/
theorem mem_of_mem_preorder : ∀ {n : Nat} {p q : Path}, q ∈ preorder b n p →
    q ∈ b.closure ∧ ∃ c, p ++ [c] <+: q := by
  intro n
  induction n with
  | zero => exact fun h => absurd h List.not_mem_nil
  | succ n ih =>
    intro p q h
    rw [preorder, List.mem_flatMap] at h
    obtain ⟨c, hc, hq⟩ := h
    rcases List.mem_cons.mp hq with rfl | hq
    · exact ⟨mem_childNames.mp hc, c, List.prefix_refl _⟩
    · obtain ⟨hmem, d, hpre⟩ := ih hq
      exact ⟨hmem, c, (List.prefix_append _ _).trans hpre⟩

/-- The walk gets to every path of the closure below `p`. -/
theorem mem_preorder : ∀ {n : Nat} {p q : Path}, (∀ r ∈ b.closure, r.length ≤ p.length + n) →
    q ∈ b.closure → p <+: q → p ≠ q → q ∈ preorder b n p := by
  intro n
  induction n with
  | zero =>
    intro p q hdepth hq hpre hne
    exact absurd (hpre.eq_of_length_le (hdepth q hq)) hne
  | succ n ih =>
    intro p q hdepth hq hpre hne
    obtain ⟨rest, rfl⟩ := hpre
    cases rest with
    | nil => exact absurd (List.append_nil p).symm hne
    | cons c rest =>
      have hsplit : p ++ c :: rest = (p ++ [c]) ++ rest := by simp
      have hchild : p ++ [c] ∈ b.closure :=
        closure_of_prefix hq (hsplit ▸ List.prefix_append _ _) (by simp)
      rw [preorder, List.mem_flatMap]
      refine ⟨c, mem_childNames.mpr hchild, ?_⟩
      by_cases hrest : rest = []
      · rw [hrest]; exact List.mem_cons_self
      · refine List.mem_cons_of_mem _ (ih (fun r hr => ?_) hq ?_ ?_)
        · have := hdepth r hr
          rw [List.length_append, List.length_singleton]
          omega
        · exact hsplit ▸ List.prefix_append _ _
        · intro heq
          rw [hsplit] at heq
          exact hrest (List.append_right_eq_self.mp heq.symm)

/-- The walk visits no path twice. -/
theorem nodup_preorder (b : TestHiveBuilder) : ∀ (n : Nat) (p : Path), (preorder b n p).Nodup := by
  intro n
  induction n with
  | zero => exact fun _ => .nil
  | succ n ih =>
    intro p
    rw [preorder, List.nodup_flatMap]
    refine ⟨fun c _ => List.nodup_cons.mpr ⟨fun hmem => ?_, ih _⟩, ?_⟩
    · -- what lies below a path is longer than it
      obtain ⟨_, d, hpre⟩ := mem_of_mem_preorder hmem
      have hle := hpre.length_le
      rw [List.length_append, List.length_singleton] at hle
      omega
    · refine (nodup_childNames b p).imp fun {c d} hcd => ?_
      have hbelow : ∀ {c : Str} {q : Path}, q ∈ (p ++ [c]) :: preorder b n (p ++ [c]) →
          p ++ [c] <+: q := by
        intro c q hq
        rcases List.mem_cons.mp hq with rfl | hq
        · exact List.prefix_refl _
        · obtain ⟨_, e, hpre⟩ := mem_of_mem_preorder hq
          exact (List.prefix_append _ _).trans hpre
      intro q hqc hqd
      have hlen : (p ++ [c]).length = (p ++ [d]).length := by simp
      have heq := (List.prefix_of_prefix_length_le (hbelow hqc) (hbelow hqd)
        hlen.le).eq_of_length hlen
      exact hcd (by simpa using heq)

/-- The order in which the recursive passes visit the paths. -/
def order (b : TestHiveBuilder) : List Path := preorder b b.depth []

/-- **The walk visits the closure**, and every path of it once. -/
theorem mem_order {q : Path} : q ∈ order b ↔ q ∈ b.closure := by
  constructor
  · exact fun h => (mem_of_mem_preorder h).1
  · intro h
    refine mem_preorder (fun r hr => ?_) h List.nil_prefix (mem_closure.mp h).1.symm
    rw [List.length_nil, Nat.zero_add]
    exact length_le_depth hr

/-- Each key is visited once. -/
theorem nodup_order (b : TestHiveBuilder) : (order b).Nodup := nodup_preorder b _ _

/-- A recursive pass from `p` is a loop over the paths below it. -/
theorem walkChildren_preorder {ε σ η : Type} (h : b.Valid)
    {visit : Str → Str → List Str → η → σ → Exec ε (η × σ)} {env : Path → η}
    {step : σ → Path → Exec ε σ}
    (hvisit : ∀ q ∈ b.closure, ∀ s, visit (joinParts q) (q.getLast?.getD []) (b.childNames q)
      (env q.dropLast) s = step s q >>= fun s => .ok (env q, s)) :
    ∀ (n : Nat) (p : Path), (p = [] ∨ p ∈ b.closure) →
      (∀ r ∈ b.closure, r.length ≤ p.length + n) → ∀ s,
      walkChildren (KeyTree.fromPaths b.keys b.values) visit (n + 1) (b.childNames p) (joinParts p)
        (env p) s = (preorder b n p).foldlM step s := by
  intro n
  induction n with
  | zero =>
    intro p _ hdepth s
    rw [walkChildren, childNames_of_deepest hdepth]
    rfl
  | succ n ih =>
    intro p hp hdepth s
    have hgood : GoodPath p := by
      rcases hp with rfl | hp
      · exact fun c hc => absurd hc List.not_mem_nil
      · exact h.goodPath hp
    rw [walkChildren, preorder]
    refine Exec.foldlM_flatMap (fun c hc s => ?_) s
    have hq := mem_childNames.mp hc
    -- one child: it is visited, and then everything below it
    have hone := hvisit _ hq s
    rw [List.getLast?_concat, List.dropLast_concat, Option.getD_some] at hone
    dsimp only
    rw [fullPath_joinParts hgood, childrenOf_joinParts h hq, hone, bind_assoc, List.foldlM_cons]
    refine congrArg _ (funext fun t => ?_)
    rw [Exec.ok_bind]
    dsimp only
    by_cases hkids : b.childNames (p ++ [c]) = []
    · rw [if_neg (not_not.mpr hkids), preorder_of_leaf hkids]
      rfl
    · rw [if_pos hkids]
      refine ih _ (Or.inr hq) (fun r hr => ?_) t
      have := hdepth r hr
      rw [List.length_append, List.length_singleton]
      omega

/-- **A recursive pass is a loop** over the closure, parents first. -/
theorem walkChildren_eq {ε σ η : Type} (h : b.Valid)
    {visit : Str → Str → List Str → η → σ → Exec ε (η × σ)} {env : Path → η}
    {step : σ → Path → Exec ε σ}
    (hvisit : ∀ q ∈ b.closure, ∀ s, visit (joinParts q) (q.getLast?.getD []) (b.childNames q)
      (env q.dropLast) s = step s q >>= fun s => .ok (env q, s)) {n : Nat} (hn : b.depth < n)
    (s : σ) :
    walkChildren (KeyTree.fromPaths b.keys b.values) visit n
      (KeyTree.fromPaths b.keys b.values).rootChildren [] (env []) s =
        (order b).foldlM step s := by
  obtain ⟨k, rfl⟩ : ∃ k, n = b.depth + k + 1 := ⟨n - b.depth - 1, by omega⟩
  have hdepth : ∀ r ∈ b.closure, r.length ≤ ([] : Path).length + b.depth := fun r hr => by
    rw [List.length_nil, Nat.zero_add]
    exact length_le_depth hr
  have hwalk := walkChildren_preorder h hvisit (b.depth + k) [] (Or.inl rfl)
    (fun r hr => Nat.le_trans (hdepth r hr) (by omega)) s
  rw [rootChildren_eq h]
  rw [preorder_add hdepth] at hwalk
  exact hwalk

end Walk

end Winreg.TestUtil
