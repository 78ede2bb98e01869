/-
  WHAT A DIFF LEAVES OUT.

  A key that is found on one side only gets an entry, but it is not entered: its subkeys and its
  values are neither listed nor counted.  So the result accounts for every key and every value that
  is found on one side only exactly when each such key has neither subkeys nor values.

  1. **Paths** — the folded paths of the keys of a tree and of its values; what one tree has and
     another has not (`onlyIn`).
  2. **Reported changes** — the paths and values that the changes report for one side; by
     induction on the tree, they are the ones whose parent key is on both sides
     (`lonePaths_perm`, `loneValues_perm`).
  3. **Coverage** — the result is complete exactly when nothing lies below a key of one side
     (`diffHives_complete_iff_bare`).
-/
import Winreg.Diff.Same

namespace Winreg

open Rust

/-! ## Paths -/

namespace KeyTree

/-- Every key of a tree with its folded path, the root first. -/
def nodes : KeyTree → List (List Str × KeyTree)
  | node name values children =>
    ([], node name values children) ::
      children.flatMap fun c => (nodes c).map fun n => (c.foldedName :: n.1, n.2)

/-- The folded paths of the keys. -/
def paths (t : KeyTree) : List (List Str) := t.nodes.map Prod.fst

/-- The values, each by the folded path of its key and its folded name. -/
def valuePaths (t : KeyTree) : List (List Str × Str) :=
  t.nodes.flatMap fun n => n.2.values.map fun v => (n.1, v.foldedName)

/-- The paths of a tree: the empty one for the root, and those of each child behind the child's
    name. -/
theorem paths_node (name : Str) (values : List RegValue) (children : List KeyTree) :
    (node name values children).paths =
      [] :: children.flatMap fun c => c.paths.map (c.foldedName :: ·) := by
  unfold paths
  rw [nodes, List.map_cons, List.map_flatMap]
  simp only [List.map_map, Function.comp_def]

/-- The value paths of a tree: the values of the root, and those of each child behind the child's
    name. -/
theorem valuePaths_node (name : Str) (values : List RegValue) (children : List KeyTree) :
    (node name values children).valuePaths =
      (values.map fun v => ([], v.foldedName)) ++
        children.flatMap fun c => c.valuePaths.map fun q => (c.foldedName :: q.1, q.2) := by
  unfold valuePaths
  rw [nodes, List.flatMap_cons, List.flatMap_assoc]
  simp only [List.flatMap_map, List.map_flatMap, List.map_map, Function.comp_def]
  rfl

/-- The root is always in the tree. -/
theorem nil_mem_paths (t : KeyTree) : [] ∈ t.paths := by
  cases t with
  | node name values children => rw [paths_node]; exact List.mem_cons_self

/-- A longer path goes through a child that has its first name. -/
theorem cons_mem_paths {t : KeyTree} {name : Str} {path : List Str} :
    name :: path ∈ t.paths ↔ ∃ c ∈ t.children, c.foldedName = name ∧ path ∈ c.paths := by
  cases t with
  | node _ _ children =>
    rw [paths_node]
    simp [KeyTree.children, List.mem_flatMap, and_comm]

/-- The values at the empty path are the root's own. -/
theorem nil_mem_valuePaths {t : KeyTree} {name : Str} :
    ([], name) ∈ t.valuePaths ↔ ∃ v ∈ t.values, v.foldedName = name := by
  cases t with
  | node _ values _ =>
    rw [valuePaths_node]
    simp [KeyTree.values]

/-- A value further down belongs to a child that has the first name of its path. -/
theorem cons_mem_valuePaths {t : KeyTree} {name : Str} {path : List Str} {value : Str} :
    (name :: path, value) ∈ t.valuePaths ↔
      ∃ c ∈ t.children, c.foldedName = name ∧ (path, value) ∈ c.valuePaths := by
  cases t with
  | node _ _ children =>
    rw [valuePaths_node]
    simp [KeyTree.children, List.mem_flatMap, and_comm]

/-- A value is at a key. -/
theorem mem_paths_of_value {t : KeyTree} {q : List Str × Str} (h : q ∈ t.valuePaths) :
    q.1 ∈ t.paths := by
  obtain ⟨n, hn, hq⟩ := List.mem_flatMap.mp h
  obtain ⟨v, _, rfl⟩ := List.mem_map.mp hq
  exact List.mem_map.mpr ⟨n, hn, rfl⟩

/-- The parent of a key is a key. -/
theorem mem_paths_of_append {name : Str} : ∀ {path : List Str} {t : KeyTree},
    path ++ [name] ∈ t.paths → path ∈ t.paths
  | [], t, _ => t.nil_mem_paths
  | head :: path, t, h => by
    obtain ⟨c, hc, hname, hpath⟩ := cons_mem_paths.mp h
    exact cons_mem_paths.mpr ⟨c, hc, hname, mem_paths_of_append hpath⟩

/-- Where sibling names differ, a path that starts with a child's name continues in that child. -/
theorem Distinct.cons_mem_paths {t c : KeyTree} (h : t.Distinct) (hc : c ∈ t.children)
    {path : List Str} : c.foldedName :: path ∈ t.paths ↔ path ∈ c.paths := by
  rw [KeyTree.cons_mem_paths]
  constructor
  · rintro ⟨c', hc', hname, hpath⟩
    rwa [List.inj_on_of_nodup_map h.children hc' hc hname] at hpath
  · exact fun hpath => ⟨c, hc, rfl, hpath⟩

/-- Where siblings differ by name the first name settles the child, so the question goes down to
    that child alone. -/
theorem Distinct.cons_mem_valuePaths {t c : KeyTree} (h : t.Distinct) (hc : c ∈ t.children)
    {path : List Str} {value : Str} :
    (c.foldedName :: path, value) ∈ t.valuePaths ↔ (path, value) ∈ c.valuePaths := by
  rw [KeyTree.cons_mem_valuePaths]
  constructor
  · rintro ⟨c', hc', hname, hvalue⟩
    rwa [List.inj_on_of_nodup_map h.children hc' hc hname] at hvalue
  · exact fun hvalue => ⟨c, hc, rfl, hvalue⟩

end KeyTree

namespace Diff

/-- What `xs` has and `ys` has not. -/
def onlyIn {α : Type} [DecidableEq α] (xs ys : List α) : List α := xs.filter fun x => x ∉ ys

/-! ## Reported changes -/

/-- The two hives of a diff. -/
inductive Side where
  | left
  | right
deriving DecidableEq, Repr

/-- The other hive. -/
def Side.swap : Side → Side
  | .left => .right
  | .right => .left

/-- The side on which a value was found alone. -/
def sideOf : ValueDiffKind → Option Side
  | .added _ => some .right
  | .removed _ => some .left
  | .changed _ _ => none

/-- The folded path of a key that a change reports as found on one side only. -/
def Change.lonePaths (side : Side) : Change → List (List Str)
  | .added path => if side = .right then [path.map toAsciiUppercase] else []
  | .removed path => if side = .left then [path.map toAsciiUppercase] else []
  | .modified _ _ _ => []

/-- The values that a change reports as found on one side only. -/
def Change.loneValues (side : Side) : Change → List (List Str × Str)
  | .modified path _ details => details.flatMap fun d =>
    if sideOf d.kind = some side then
      [(path.map toAsciiUppercase, toAsciiUppercase d.name)]
    else []
  | _ => []

/-- The paths that a list of changes reports for one side only: removed keys for the left one, added
    keys for the right one. -/
def lonePaths (side : Side) (cs : List Change) : List (List Str) :=
  cs.flatMap (Change.lonePaths side)

/-- The values that a list of changes reports for one side only, each with the path of its key. -/
def loneValues (side : Side) (cs : List Change) : List (List Str × Str) :=
  cs.flatMap (Change.loneValues side)

/-- Moving changes under a key puts the key's name in front of each path they report. -/
theorem lonePaths_under (side : Side) (t : KeyTree) (cs : List Change) :
    lonePaths side (cs.map (Change.under t.name)) =
      (lonePaths side cs).map (t.foldedName :: ·) := by
  unfold lonePaths
  rw [List.flatMap_map, List.map_flatMap]
  refine congrArg (fun f => List.flatMap f cs) (funext fun c => ?_)
  cases c with
  | modified path name details => rfl
  | added path => simp only [Change.under, Change.lonePaths]; split <;> rfl
  | removed path => simp only [Change.under, Change.lonePaths]; split <;> rfl

/-- The same for the values that the changes report. -/
theorem loneValues_under (side : Side) (t : KeyTree) (cs : List Change) :
    loneValues side (cs.map (Change.under t.name)) =
      (loneValues side cs).map fun q => (t.foldedName :: q.1, q.2) := by
  unfold loneValues
  rw [List.flatMap_map, List.map_flatMap]
  refine congrArg (fun f => List.flatMap f cs) (funext fun c => ?_)
  cases c with
  | modified path name details =>
    simp only [Change.under, Change.loneValues, List.map_flatMap]
    refine congrArg (fun f => List.flatMap f details) (funext fun d => ?_)
    split <;> rfl
  | added path => rfl
  | removed path => rfl

/-- A change of values reports no key as added or removed. -/
theorem lonePaths_modifiedBy (side : Side) (name : Str) (details : List ValueDiff) :
    lonePaths side (modifiedBy name details) = [] := by
  unfold modifiedBy
  split <;> rfl

/-- A change of values reports, for one side, the values that are on that side only. -/
theorem loneValues_modifiedBy (side : Side) (name : Str) (details : List ValueDiff) :
    loneValues side (modifiedBy name details) = details.flatMap fun d =>
      if sideOf d.kind = some side then [([], toAsciiUppercase d.name)] else [] := by
  unfold modifiedBy
  split
  · exact List.flatMap_singleton _ _
  · rename_i h
    rw [not_not.mp h]; rfl

/-- The lone paths come from the children alone: for the roots themselves only values are
    compared. -/
theorem lonePaths_changes (side : Side) (name rname : Str) (lvals rvals : List RegValue)
    (lkids rkids : List KeyTree) :
    lonePaths side ((KeyTree.node name lvals lkids).changes (.node rname rvals rkids)) =
      (joinByKey KeyTree.foldedName KeyTree.foldedName lkids rkids).flatMap fun x =>
        lonePaths side (keyChange x) := by
  have hkeys : lonePaths side (modifiedBy name (valueChanges lvals rvals)) = [] :=
    lonePaths_modifiedBy side name _
  unfold lonePaths at hkeys ⊢
  rw [changes_node, List.flatMap_append, hkeys, List.nil_append, List.flatMap_assoc]

/-- The folded name of a value found on one side only, as a value of the root. -/
def loneValue (side : Side) (x : Aligned RegValue RegValue) : List (List Str × Str) :=
  (valueChange x).flatMap fun d =>
    if sideOf d.kind = some side then [([], toAsciiUppercase d.name)] else []

/-- The lone values are those of the two roots, followed by those of the aligned children. -/
theorem loneValues_changes (side : Side) (name rname : Str) (lvals rvals : List RegValue)
    (lkids rkids : List KeyTree) :
    loneValues side ((KeyTree.node name lvals lkids).changes (.node rname rvals rkids)) =
      (joinByKey RegValue.foldedName RegValue.foldedName lvals rvals).flatMap (loneValue side) ++
        (joinByKey KeyTree.foldedName KeyTree.foldedName lkids rkids).flatMap fun x =>
          loneValues side (keyChange x) := by
  have hvalues := loneValues_modifiedBy side name (valueChanges lvals rvals)
  unfold loneValues at hvalues ⊢
  rw [changes_node, List.flatMap_append, hvalues, List.flatMap_assoc]
  unfold valueChanges
  rw [List.flatMap_assoc]
  rfl

/-! ## Exchanging the sides -/

/-- A pair of values is on both sides. -/
theorem loneValue_both (side : Side) (l r : RegValue) : loneValue side (.both l r) = [] := by
  unfold loneValue valueChange
  dsimp only
  split <;> rfl

/-- Exchanging the sides of an aligned pair of values exchanges the side that a lone value is
    reported for. -/
theorem loneValue_swap (side : Side) (x : Aligned RegValue RegValue) :
    loneValue side.swap x.swap = loneValue side x := by
  cases x with
  | both l r => exact (loneValue_both side.swap r l).trans (loneValue_both side l r).symm
  | left l => cases side <;> rfl
  | right r => cases side <;> rfl

/-- **What is reported for one side is reported for the other when the trees are exchanged.** -/
theorem lonePaths_swap {l : KeyTree} (dl : l.Distinct) : ∀ {r : KeyTree}, r.Distinct →
    ∀ side, lonePaths side.swap (r.changes l) = lonePaths side (l.changes r) := by
  induction dl with
  | @node name lvals lkids hvalues hchildren hbelow ih =>
    intro r dr side
    have dl : (KeyTree.node name lvals lkids).Distinct := .node hvalues hchildren hbelow
    cases r with
    | node rname rvals rkids =>
      rw [lonePaths_changes, lonePaths_changes, joinByKey_swap, List.flatMap_map]
      refine List.flatMap_congr fun x hx => ?_
      cases x with
      | left a => cases side <;> rfl
      | right b => cases side <;> rfl
      | both a b =>
        obtain ⟨ha, hb, hname⟩ := (both_mem_joinByKey dl.children dr.children).mp hx
        show lonePaths side.swap ((b.changes a).map (.under b.name)) =
          lonePaths side ((a.changes b).map (.under a.name))
        rw [lonePaths_under, lonePaths_under, ih a ha (dr.of_mem b hb) side, hname]

/-- What one diff reports as only left, the diff in the other direction reports as only right.  By
    induction on the left tree: both merges align the same pairs when the names are distinct. -/
theorem loneValues_swap {l : KeyTree} (dl : l.Distinct) : ∀ {r : KeyTree}, r.Distinct →
    ∀ side, loneValues side.swap (r.changes l) = loneValues side (l.changes r) := by
  induction dl with
  | @node name lvals lkids hvalues hchildren hbelow ih =>
    intro r dr side
    have dl : (KeyTree.node name lvals lkids).Distinct := .node hvalues hchildren hbelow
    cases r with
    | node rname rvals rkids =>
      rw [loneValues_changes, loneValues_changes, joinByKey_swap lvals, joinByKey_swap lkids,
        List.flatMap_map, List.flatMap_map]
      refine congrArg₂ (· ++ ·) ?_ (List.flatMap_congr fun x hx => ?_)
      · exact List.flatMap_congr fun x _ => loneValue_swap side x
      cases x with
      | left a => rfl
      | right b => rfl
      | both a b =>
        obtain ⟨ha, hb, hname⟩ := (both_mem_joinByKey dl.children dr.children).mp hx
        show loneValues side.swap ((b.changes a).map (.under b.name)) =
          loneValues side ((a.changes b).map (.under a.name))
        rw [loneValues_under, loneValues_under, ih a ha (dr.of_mem b hb) side, hname]

/-! ## What is reported -/

/-- The keys that are missing from the other tree while their parents are not. -/
def topPaths (other mine : KeyTree) : List (List Str) :=
  mine.paths.filter fun path => path ∉ other.paths ∧ path.dropLast ∈ other.paths

/-- The values that are missing from the other tree while their keys are not. -/
def topValues (other mine : KeyTree) : List (List Str × Str) :=
  mine.valuePaths.filter fun q => q ∉ other.valuePaths ∧ q.1 ∈ other.paths

/-- A path in a child of both trees is a top path when it is one in the two children. -/
theorem topPaths_child {l a b : KeyTree} (dl : l.Distinct) (ha : a ∈ l.children)
    (hname : a.foldedName = b.foldedName) :
    b.paths.filter (fun path => b.foldedName :: path ∉ l.paths ∧
      (b.foldedName :: path).dropLast ∈ l.paths) = topPaths a b := by
  refine List.filter_congr fun path _ => decide_eq_decide.mpr ?_
  rw [← hname, dl.cons_mem_paths ha]
  cases path with
  | nil => exact ⟨fun h => absurd a.nil_mem_paths h.1, fun h => absurd a.nil_mem_paths h.1⟩
  | cons head path => rw [List.dropLast_cons_cons, dl.cons_mem_paths ha]

/-- Of a child of one side only, only the child itself is a top path. -/
theorem topPaths_alone {l b : KeyTree} (halone : ∀ a ∈ l.children, a.foldedName ≠ b.foldedName) :
    b.paths.filter (fun path => b.foldedName :: path ∉ l.paths ∧
      (b.foldedName :: path).dropLast ∈ l.paths) = [[]] := by
  have hmissing : ∀ path, b.foldedName :: path ∉ l.paths := fun path h => by
    obtain ⟨a, ha, hname, _⟩ := KeyTree.cons_mem_paths.mp h
    exact halone a ha hname
  cases b with
  | node name values children =>
    rw [KeyTree.paths_node, List.filter_cons, if_pos]
    · congr 1
      refine List.filter_eq_nil_iff.mpr fun path hpath => ?_
      -- below the child, the parent is missing too
      obtain ⟨c, _, hpath⟩ := List.mem_flatMap.mp hpath
      obtain ⟨rest, _, rfl⟩ := List.mem_map.mp hpath
      rw [List.dropLast_cons_cons]
      simpa using fun _ => hmissing _
    · simpa using ⟨hmissing [], l.nil_mem_paths⟩

/-- **The keys reported as added** are those that are missing on the left while their parents are
    not. -/
theorem lonePaths_perm {l : KeyTree} (dl : l.Distinct) : ∀ {r : KeyTree}, r.Distinct →
    (lonePaths .right (l.changes r)).Perm (topPaths l r) := by
  induction dl with
  | @node name lvals lkids hvalues hchildren hbelow ih =>
    intro r dr
    have dl : (KeyTree.node name lvals lkids).Distinct := .node hvalues hchildren hbelow
    cases r with
    | node rname rvals rkids =>
      have htop : topPaths (.node name lvals lkids) (.node rname rvals rkids) =
          rkids.flatMap fun b => (b.paths.filter fun path =>
            b.foldedName :: path ∉ (KeyTree.node name lvals lkids).paths ∧
            (b.foldedName :: path).dropLast ∈ (KeyTree.node name lvals lkids).paths).map
              (b.foldedName :: ·) := by
        unfold topPaths
        rw [KeyTree.paths_node rname, List.filter_cons, if_neg, List.filter_flatMap]
        · simp only [List.filter_map, Function.comp_def]
        · simp [KeyTree.nil_mem_paths]
      rw [htop, lonePaths_changes]
      refine List.Perm.trans (List.Perm.flatMap_left _ fun x hx => ?_)
        (flatMap_right_joinByKey _ lkids rkids)
      cases x with
      | left a => exact .refl _
      | both a b =>
        obtain ⟨ha, hb, hname⟩ := (both_mem_joinByKey dl.children dr.children).mp hx
        show (lonePaths .right ((a.changes b).map (.under a.name))).Perm (List.map _ _)
        rw [lonePaths_under, hname, topPaths_child dl ha hname]
        exact (ih a ha (dr.of_mem b hb)).map _
      | right b =>
        obtain ⟨hb, halone⟩ := (right_mem_joinByKey dl.children dr.children).mp hx
        show (lonePaths .right [.added [b.name]]).Perm (List.map _ _)
        rw [topPaths_alone halone]
        exact .refl _

/-- A value below a child of both trees is a top value when it is one in the two children. -/
theorem topValues_child {l a b : KeyTree} (dl : l.Distinct) (ha : a ∈ l.children)
    (hname : a.foldedName = b.foldedName) :
    b.valuePaths.filter (fun q => (b.foldedName :: q.1, q.2) ∉ l.valuePaths ∧
      b.foldedName :: q.1 ∈ l.paths) = topValues a b := by
  refine List.filter_congr fun q _ => decide_eq_decide.mpr ?_
  rw [← hname, dl.cons_mem_paths ha, dl.cons_mem_valuePaths ha]

/-- There are no top values below a child of one side only. -/
theorem topValues_alone {l b : KeyTree} (halone : ∀ a ∈ l.children, a.foldedName ≠ b.foldedName) :
    b.valuePaths.filter (fun q => (b.foldedName :: q.1, q.2) ∉ l.valuePaths ∧
      b.foldedName :: q.1 ∈ l.paths) = [] := by
  refine List.filter_eq_nil_iff.mpr fun q _ hq => ?_
  obtain ⟨_, hpath⟩ := of_decide_eq_true hq
  obtain ⟨a, ha, hname, _⟩ := KeyTree.cons_mem_paths.mp hpath
  exact halone a ha hname

/-- The top values of a key itself are reported by the join of its values. -/
theorem loneValue_perm {l : KeyTree} (dl : l.Distinct) {rvals : List RegValue}
    (hr : (rvals.map RegValue.foldedName).Nodup) :
    ((joinByKey RegValue.foldedName RegValue.foldedName l.values rvals).flatMap
      (loneValue .right)).Perm
    (rvals.flatMap fun v => [([], v.foldedName)].filter fun q =>
      q ∉ l.valuePaths ∧ q.1 ∈ l.paths) := by
  refine List.Perm.trans (List.Perm.flatMap_left _ fun x hx => ?_)
    (flatMap_right_joinByKey _ l.values rvals)
  cases x with
  | left a => exact .refl _
  | both a b =>
    obtain ⟨ha, _, hname⟩ := (both_mem_joinByKey dl.values hr).mp hx
    have hmem : ([], b.foldedName) ∈ l.valuePaths :=
      KeyTree.nil_mem_valuePaths.mpr ⟨a, ha, hname⟩
    rw [loneValue_both]
    show List.Perm [] (List.filter _ _)
    rw [List.filter_cons, if_neg (by simp [hmem])]
    exact .refl _
  | right b =>
    obtain ⟨_, halone⟩ := (right_mem_joinByKey dl.values hr).mp hx
    have hmissing : ([], b.foldedName) ∉ l.valuePaths := fun h => by
      obtain ⟨a, ha, hname⟩ := KeyTree.nil_mem_valuePaths.mp h
      exact halone a ha hname
    show List.Perm [([], b.foldedName)] (List.filter _ _)
    rw [List.filter_cons, if_pos (by simpa using ⟨hmissing, l.nil_mem_paths⟩)]
    exact .refl _

/-- **The values reported as added** are those that are missing on the left while their keys are
    not. -/
theorem loneValues_perm {l : KeyTree} (dl : l.Distinct) : ∀ {r : KeyTree}, r.Distinct →
    (loneValues .right (l.changes r)).Perm (topValues l r) := by
  induction dl with
  | @node name lvals lkids hvalues hchildren hbelow ih =>
    intro r dr
    have dl : (KeyTree.node name lvals lkids).Distinct := .node hvalues hchildren hbelow
    cases r with
    | node rname rvals rkids =>
      -- split by the children: the values of the key itself, then those below each right child
      have htop : topValues (.node name lvals lkids) (.node rname rvals rkids) =
          (rvals.flatMap fun v => [([], v.foldedName)].filter fun q =>
            q ∉ (KeyTree.node name lvals lkids).valuePaths ∧
            q.1 ∈ (KeyTree.node name lvals lkids).paths) ++
          rkids.flatMap fun b => (b.valuePaths.filter fun q =>
            (b.foldedName :: q.1, q.2) ∉ (KeyTree.node name lvals lkids).valuePaths ∧
            b.foldedName :: q.1 ∈ (KeyTree.node name lvals lkids).paths).map
              fun q => (b.foldedName :: q.1, q.2) := by
        unfold topValues
        rw [KeyTree.valuePaths_node rname, List.filter_append, List.map_eq_flatMap,
          List.filter_flatMap, List.filter_flatMap]
        simp only [List.filter_map, Function.comp_def]
      rw [htop, loneValues_changes]
      refine .append (loneValue_perm dl dr.values) ?_
      refine List.Perm.trans (List.Perm.flatMap_left _ fun x hx => ?_)
        (flatMap_right_joinByKey _ lkids rkids)
      cases x with
      | left a => exact .refl _
      -- in a pair both sides go one name down, which is the induction hypothesis
      | both a b =>
        obtain ⟨ha, hb, hname⟩ := (both_mem_joinByKey dl.children dr.children).mp hx
        show (loneValues .right ((a.changes b).map (.under a.name))).Perm (List.map _ _)
        rw [loneValues_under, hname, topValues_child dl ha hname]
        exact (ih a ha (dr.of_mem b hb)).map _
      -- a key that is new as a whole: its values count for the key
      | right b =>
        obtain ⟨_, halone⟩ := (right_mem_joinByKey dl.children dr.children).mp hx
        show (loneValues .right [.added [b.name]]).Perm (List.map _ _)
        rw [topValues_alone halone]
        exact .refl _

/-! ## Coverage -/

/-- The kind of the entry of a key found on one side only. -/
def Side.kind : Side → DiffKind
  | .left => .keyRemoved
  | .right => .keyAdded

/-- The counters of the keys and of the values found on one side only. -/
def keyCount : Side → DiffStats → Nat
  | .left, stats => stats.keysRemoved
  | .right, stats => stats.keysAdded

/-- The counter of values that belongs to a side. -/
def valueCount : Side → DiffStats → Nat
  | .left, stats => stats.valuesRemoved
  | .right, stats => stats.valuesAdded

/-- The folded paths of the entries of a kind. -/
def entryPaths (kind : DiffKind) (result : DiffResult) : List Str :=
  (result.entries.filter fun e => e.kind = kind).map fun e => toAsciiUppercase e.path

/-- The result accounts for everything that `mine`, the tree of one side, has and `other` has not:
    each such key has an entry of its own, and the two counters are the numbers of such keys and of
    such values. -/
structure Covers (side : Side) (mine other : KeyTree) (result : DiffResult) : Prop where
  entries : ((onlyIn mine.paths other.paths).map (pathText [])).Subperm
    (entryPaths side.kind result)
  keys : keyCount side result.stats = (onlyIn mine.paths other.paths).length
  values : valueCount side result.stats = (onlyIn mine.valuePaths other.valuePaths).length

/-- Every key that `mine` has and `other` has not is bare: it has neither subkeys nor values. -/
def BareBeyond (mine other : KeyTree) : Prop :=
  ∀ path ∈ mine.paths, path ∉ other.paths →
    (∀ name, path ++ [name] ∉ mine.paths) ∧ ∀ name, (path, name) ∉ mine.valuePaths

/-- Folding the text of a path is the text of the folded path. -/
theorem toAsciiUppercase_pathText (path : List Str) : ∀ current,
    toAsciiUppercase (pathText current path) =
      pathText (toAsciiUppercase current) (path.map toAsciiUppercase) := by
  induction path with
  | nil => exact fun _ => rfl
  | cons name path ih =>
    intro current
    show toAsciiUppercase (pathText (childPath current name) path) = _
    rw [ih]
    refine congrArg (fun c => pathText c _) ?_
    unfold childPath
    cases current with
    | nil => rfl
    | cons c current =>
      show toAsciiUppercase (c :: current ++ '\\' :: name) = _
      simp [toAsciiUppercase]

/-- The paths of the entries of one kind are the lone paths of that side, written as texts. -/
theorem entryPaths_resultOf (side : Side) (leftLabel rightLabel : Str) (cs : List Change) :
    entryPaths side.kind (resultOf leftLabel rightLabel cs) =
      (lonePaths side cs).map (pathText []) := by
  have hfold : ∀ path, toAsciiUppercase (pathText [] path) =
      pathText [] (path.map toAsciiUppercase) := fun path => toAsciiUppercase_pathText path []
  unfold entryPaths resultOf lonePaths
  dsimp only
  induction cs with
  | nil => rfl
  | cons c cs ih =>
    rw [List.map_cons, List.filter_cons, List.flatMap_cons, List.map_append, ← ih]
    cases c with
    | modified path name details => cases side <;> rfl
    | added path => cases side <;> simp [Change.entry, Change.lonePaths, Side.kind, hfold]
    | removed path => cases side <;> simp [Change.entry, Change.lonePaths, Side.kind, hfold]

/-- Counting value changes leaves the key counters alone and counts the values of each side. -/
theorem foldl_countValueDiff (side : Side) (path : List Str) (details : List ValueDiff) : ∀ stats,
    keyCount side (details.foldl countValueDiff stats) = keyCount side stats ∧
    valueCount side (details.foldl countValueDiff stats) =
      valueCount side stats + ((Change.modified path [] details).loneValues side).length := by
  induction details with
  | nil => exact fun _ => ⟨rfl, rfl⟩
  | cons d details ih =>
    intro stats
    obtain ⟨hkeys, hvalues⟩ := ih (countValueDiff stats d)
    rw [List.foldl_cons, hkeys, hvalues]
    simp only [Change.loneValues, List.flatMap_cons, List.length_append, countValueDiff]
    cases d.kind with
    | added v => cases side <;> simp [keyCount, valueCount, sideOf]; omega
    | removed v => cases side <;> simp [keyCount, valueCount, sideOf]; omega
    | changed v w => cases side <;> simp [keyCount, valueCount, sideOf]

/-- **The counters of the result** count the keys and the values reported for a side. -/
theorem counts_resultOf (side : Side) (cs : List Change) : ∀ stats,
    keyCount side (cs.foldl Change.count stats) =
      keyCount side stats + (lonePaths side cs).length ∧
    valueCount side (cs.foldl Change.count stats) =
      valueCount side stats + (loneValues side cs).length := by
  induction cs with
  | nil => exact fun _ => ⟨rfl, rfl⟩
  | cons c cs ih =>
    intro stats
    obtain ⟨hkeys, hvalues⟩ := ih (c.count stats)
    rw [List.foldl_cons, hkeys, hvalues]
    simp only [lonePaths, loneValues, List.flatMap_cons, List.length_append]
    cases c with
    | modified path name details =>
      obtain ⟨hk, hv⟩ := foldl_countValueDiff side path details stats
      have hk' : keyCount side (Change.count stats (.modified path name details)) =
          keyCount side stats := by rw [← hk]; cases side <;> rfl
      have hv' : valueCount side (Change.count stats (.modified path name details)) =
          valueCount side stats + ((Change.modified path [] details).loneValues side).length := by
        rw [← hv]; cases side <;> rfl
      rw [hk', hv']
      exact ⟨by simp [Change.lonePaths], by simp only [Change.loneValues]; omega⟩
    | added path =>
      cases side <;> simp [Change.count, keyCount, valueCount, Change.lonePaths,
        Change.loneValues]; omega
    | removed path =>
      cases side <;> simp [Change.count, keyCount, valueCount, Change.lonePaths,
        Change.loneValues]; omega

/-- The top paths are the missing ones with a parent that is not missing. -/
theorem topPaths_eq (other mine : KeyTree) : topPaths other mine =
    (onlyIn mine.paths other.paths).filter fun path => path.dropLast ∈ other.paths := by
  unfold topPaths onlyIn
  rw [List.filter_filter]
  exact List.filter_congr fun path _ => by simp [Bool.and_comm]

/-- The values that are compared at all: those of the keys that both trees have. -/
theorem topValues_eq (other mine : KeyTree) : topValues other mine =
    (onlyIn mine.valuePaths other.valuePaths).filter fun q => q.1 ∈ other.paths := by
  unfold topValues onlyIn
  rw [List.filter_filter]
  exact List.filter_congr fun q _ => by simp [Bool.and_comm]

/-- An element is listed for one side when the other side lacks it. -/
theorem mem_onlyIn {α : Type} [DecidableEq α] {xs ys : List α} {x : α} :
    x ∈ onlyIn xs ys ↔ x ∈ xs ∧ x ∉ ys := by
  simp [onlyIn]

/-- Nothing lies below a missing key exactly when every missing key and every missing value is a
    top one. -/
theorem bareBeyond_iff {mine other : KeyTree} :
    BareBeyond mine other ↔ topPaths other mine = onlyIn mine.paths other.paths ∧
      topValues other mine = onlyIn mine.valuePaths other.valuePaths := by
  rw [topPaths_eq, topValues_eq, List.filter_eq_self, List.filter_eq_self]
  constructor
  · intro hbare
    refine ⟨fun path hpath => decide_eq_true ?_, fun q hq => decide_eq_true ?_⟩
    · obtain ⟨hmine, hother⟩ := mem_onlyIn.mp hpath
      have hne : path ≠ [] := fun h => hother (h ▸ other.nil_mem_paths)
      have hsplit := List.dropLast_concat_getLast hne
      by_contra hparent
      rw [← hsplit] at hmine
      exact (hbare _ (KeyTree.mem_paths_of_append hmine) hparent).1 _ hmine
    · obtain ⟨hmine, _⟩ := mem_onlyIn.mp hq
      by_contra hkey
      exact (hbare _ (KeyTree.mem_paths_of_value hmine) hkey).2 _ hmine
  · rintro ⟨hpaths, hvalues⟩ path hmine hother
    refine ⟨fun name hchild => hother ?_, fun name hvalue => hother ?_⟩
    · have hmissing : path ++ [name] ∉ other.paths := fun h =>
        hother (KeyTree.mem_paths_of_append h)
      have htop := of_decide_eq_true (hpaths _ (mem_onlyIn.mpr ⟨hchild, hmissing⟩))
      rwa [List.dropLast_concat] at htop
    · have hmissing : (path, name) ∉ other.valuePaths := fun h =>
        hother (KeyTree.mem_paths_of_value h)
      exact of_decide_eq_true (hvalues _ (mem_onlyIn.mpr ⟨hvalue, hmissing⟩))

/-- **One side**: a result that reports the top paths and the top values covers the side exactly
    when these are all that is missing. -/
theorem covers_resultOf_iff {side : Side} {mine other : KeyTree} {cs : List Change}
    (hpaths : (lonePaths side cs).Perm (topPaths other mine))
    (hvalues : (loneValues side cs).Perm (topValues other mine)) (leftLabel rightLabel : Str) :
    Covers side mine other (resultOf leftLabel rightLabel cs) ↔ BareBeyond mine other := by
  have hzero : keyCount side {} = 0 ∧ valueCount side {} = 0 := by cases side <;> exact ⟨rfl, rfl⟩
  obtain ⟨hkeyCount, hvalueCount⟩ := counts_resultOf side cs {}
  rw [hzero.1, Nat.zero_add, hpaths.length_eq] at hkeyCount
  rw [hzero.2, Nat.zero_add, hvalues.length_eq] at hvalueCount
  rw [bareBeyond_iff]
  constructor
  · rintro ⟨_, hkeys, hvals⟩
    have hk := hkeyCount.symm.trans hkeys
    have hv := hvalueCount.symm.trans hvals
    rw [topPaths_eq] at hk ⊢
    rw [topValues_eq] at hv ⊢
    exact ⟨List.filter_eq_self.mpr (List.length_filter_eq_length_iff.mp hk),
      List.filter_eq_self.mpr (List.length_filter_eq_length_iff.mp hv)⟩
  · rintro ⟨hp, hv⟩
    refine ⟨?_, hkeyCount.trans (congrArg _ hp), hvalueCount.trans (congrArg _ hv)⟩
    rw [entryPaths_resultOf, ← hp]
    exact (hpaths.symm.map _).subperm

/-- The result accounts for every key and value that is on one side only. -/
def Complete (left right : KeyTree) (result : DiffResult) : Prop :=
  Covers .left left right result ∧ Covers .right right left result

/-- The result lists every difference exactly when nothing but a bare key stands below an added or
    removed key, for each of the two directions. -/
theorem complete_resultOf_iff {tl tr : KeyTree} (dl : tl.Distinct) (dr : tr.Distinct)
    (leftLabel rightLabel : Str) :
    Complete tl tr (resultOf leftLabel rightLabel (tl.changes tr)) ↔
      BareBeyond tl tr ∧ BareBeyond tr tl := by
  refine and_congr ?_ ?_
  · -- the left side is the right side of the exchanged trees
    refine covers_resultOf_iff ?_ ?_ leftLabel rightLabel
    · rw [← lonePaths_swap dl dr]
      exact lonePaths_perm dr dl
    · rw [← loneValues_swap dl dr]
      exact loneValues_perm dr dl
  · exact covers_resultOf_iff (lonePaths_perm dl dr) (loneValues_perm dl dr) leftLabel rightLabel

/-- **A diff is complete exactly when every key that is on one side only is bare.**  The merge goes
    down only where both sides have a key, so whatever lies below a key of one side is left out;
    every other difference is reported, which is an induction on the two trees. -/
theorem diffHives_complete_iff_bare {left right : Hive} {tl tr : KeyTree}
    (hl : left.ReadsTree tl) (hr : right.ReadsTree tr) (dl : tl.Distinct) (dr : tr.Distinct)
    (leftLabel rightLabel : Str) :
    ∃ result, Exec.Evals (fun n => diffHives n left right leftLabel rightLabel) (.ok result) ∧
      (Complete tl tr result ↔ BareBeyond tl tr ∧ BareBeyond tr tl) :=
  ⟨_, diffHives_reads hl hr leftLabel rightLabel,
    complete_resultOf_iff dl dr leftLabel rightLabel⟩

/-- The bare root against `A\B` with a value: the added key `A` is reported, and neither `B` nor the
    value. -/
theorem diffHives_complete_iff_bare_nested :
    ∃ result, Exec.Evals (fun n => diffHives n bareHive nestedHive [] []) (.ok result) ∧
      (Complete bareTree nestedTree result ↔
        BareBeyond bareTree nestedTree ∧ BareBeyond nestedTree bareTree) :=
  diffHives_complete_iff_bare bareHive_readsTree nestedHive_readsTree bareTree_distinct
    nestedTree_distinct [] []

/-- The subkey `A` of the second hive is new, and so are its subkey `B` and the value of `B`: one
    entry and one added key are reported, two keys and a value are there. -/
theorem diffHives_incomplete_nested :
    Hive.fromBytes (oneBinImage 32 bareCells) = .ok bareHive ∧
    Hive.fromBytes (oneBinImage 32 nestedCells) = .ok nestedHive ∧
    bareHive.ReadsTree bareTree ∧ nestedHive.ReadsTree nestedTree ∧
    bareTree.Distinct ∧ nestedTree.Distinct ∧
    ∃ result, Exec.Evals (fun n => diffHives n bareHive nestedHive [] []) (.ok result) ∧
      result.entries = [⟨['A'], .keyAdded, []⟩] ∧
      result.stats.keysAdded = 1 ∧ result.stats.valuesAdded = 0 ∧
      onlyIn nestedTree.paths bareTree.paths = [[['A']], [['A'], ['B']]] ∧
      onlyIn nestedTree.valuePaths bareTree.valuePaths = [([['A'], ['B']], ['V'])] ∧
      ¬ Complete bareTree nestedTree result := by
  have hchanges : bareTree.changes nestedTree = [.added [['A']]] := by
    unfold bareTree nestedTree
    rw [changes_node]
    simp [valueChanges, joinByKey, sortByKey, modifiedBy, keyChange, KeyTree.name]
  have hpaths : nestedTree.paths = [[], [['A']], [['A'], ['B']]] := by
    simp only [nestedTree, KeyTree.paths_node, List.flatMap_cons, List.flatMap_nil]
    decide
  have hvalues : nestedTree.valuePaths = [([['A'], ['B']], ['V'])] := by
    simp only [nestedTree, KeyTree.valuePaths_node, List.flatMap_cons, List.flatMap_nil]
    decide
  have hbare : bareTree.paths = [[]] ∧ bareTree.valuePaths = [] := by
    simp [bareTree, KeyTree.paths_node, KeyTree.valuePaths_node]
  have hnot : ¬ BareBeyond nestedTree bareTree := fun h => by
    have hA := h [['A']] (by rw [hpaths]; decide) (by rw [hbare.1]; decide)
    exact hA.1 ['B'] (by rw [hpaths]; decide)
  refine ⟨Hive.fromBytes_oneBinImage (by decide), ?_, bareHive_readsTree, nestedHive_readsTree,
    bareTree_distinct, nestedTree_distinct, _,
    diffHives_reads bareHive_readsTree nestedHive_readsTree [] [], ?_, ?_, ?_, ?_, ?_, ?_⟩
  · exact Hive.fromBytes_oneBinImage (by rw [length_nestedCells]; decide)
  · rw [hchanges]; rfl
  · rw [hchanges]; rfl
  · rw [hchanges]; rfl
  · rw [hpaths, hbare.1]; decide
  · rw [hvalues, hbare.2]; decide
  · exact fun h => hnot ((complete_resultOf_iff bareTree_distinct nestedTree_distinct [] []).mp h).2

end Diff

end Winreg
