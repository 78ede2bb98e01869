/-
  IN WHICH ORDER A DIFF REPORTS.

  The entries are appended by a recursion over joins that are sorted by folded name, so the changes
  below the two roots come in the order of their folded paths.  The paths in the entries are not
  quite these.  The entry of the two roots comes first, under the name of the left root; and a name
  that is empty leaves no trace at the front of a path.

  1. **Reported keys** — `Reported l r path` says, of the two trees alone, at which paths there is
     a change (`mem_changes`).
  2. **Order** — the changes come in the order of their paths (`changes_sorted`).
  3. **Paths** — the entry of a change below the roots shows its path without the empty names at
     the front (`pathKey_entry`).
  4. **When the entries are sorted** — the name of the left root has to come before the other paths
     if the values of the roots differ, and a key below a nameless key before the later ones
     (`diffHives_sorted_iff`).
-/
import Winreg.Diff.Soundness
import Mathlib.Data.List.TakeWhile

namespace Winreg

open Rust

/-! ## Reported keys -/

namespace KeyTree

/-- Sibling names differ by more than ASCII case and contain no backslash, at every key. -/
inductive PlainSiblings : KeyTree → Prop where
  | node {name : Str} {values : List RegValue} {children : List KeyTree}
      (hdistinct : (children.map foldedName).Nodup) (hnames : ∀ c ∈ children, '\\' ∉ c.name)
      (hbelow : ∀ c ∈ children, PlainSiblings c) : PlainSiblings (.node name values children)

/-- The children of the root have different names. -/
theorem PlainSiblings.distinct {t : KeyTree} (h : t.PlainSiblings) :
    (t.children.map foldedName).Nodup := by
  cases h with
  | node hdistinct _ _ => exact hdistinct

/-- No child has a separator in its name, so its path can be told from its text. -/
theorem PlainSiblings.names {t c : KeyTree} (h : t.PlainSiblings) (hc : c ∈ t.children) :
    '\\' ∉ c.name := by
  cases h with
  | node _ hnames _ => exact hnames c hc

/-- The condition is inherited by every child. -/
theorem PlainSiblings.of_mem {t c : KeyTree} (h : t.PlainSiblings) (hc : c ∈ t.children) :
    c.PlainSiblings := by
  cases h with
  | node _ _ hbelow => exact hbelow c hc

/-- In the order of their folded names, the values have the same names, data and types. -/
def SameValues (l r : KeyTree) : Prop :=
  List.Forall₂ (fun v w => v.foldedName = w.foldedName ∧ Diff.SameData v w)
    (sortByKey RegValue.foldedName l.values) (sortByKey RegValue.foldedName r.values)

/-- A key to be reported: its values differ, or only one tree has it although both trees have its
    parent. -/
def Reported (l r : KeyTree) (path : List Str) : Prop :=
  match l.at? path, r.at? path with
  | some a, some b => ¬ a.SameValues b
  | some _, none => (r.at? path.dropLast).isSome = true
  | none, some _ => (l.at? path.dropLast).isSome = true
  | none, none => False

/-- Looking a child up by name finds the one with that name, since there is only one. -/
theorem child_eq_some {t c : KeyTree} (h : t.PlainSiblings) {name : Str} :
    t.child name = some c ↔ c ∈ t.children ∧ c.foldedName = name :=
  findByKey_eq_some h.distinct

/-- A key below a child of both trees, or a child of one tree. -/
theorem reported_cons {l r : KeyTree} {name : Str} {path : List Str} :
    Reported l r (name :: path) ↔
      match l.child name, r.child name with
      | some a, some b => Reported a b path
      | some _, none => path = []
      | none, some _ => path = []
      | none, none => False := by
  have hat : ∀ (t : KeyTree) (path : List Str),
      t.at? (name :: path) = (t.child name).bind fun c => c.at? path := fun _ _ => rfl
  have hroot : ∀ t : KeyTree, t.at? [] = some t := fun _ => rfl
  unfold Reported
  cases path with
  | nil =>
    simp only [hat, hroot, List.dropLast_singleton, Option.isSome_some]
    cases l.child name <;> cases r.child name <;> simp
  | cons next path =>
    rw [List.dropLast_cons_cons]
    simp only [hat]
    cases l.child name <;> cases r.child name <;> simp
    · split <;> simp_all
    · split <;> simp_all

end KeyTree

namespace Diff

/-- The folded path of the key of a change. -/
def Change.foldedPath (c : Change) : List Str := c.path.map toAsciiUppercase

/-- Moving a change under a key puts the folded name of the key in front of its path. -/
theorem Change.foldedPath_under (name : Str) (c : Change) :
    (c.under name).foldedPath = toAsciiUppercase name :: c.foldedPath := by
  unfold foldedPath
  rw [path_under, List.map_cons]

/-- There are value changes unless the values are the same. -/
theorem valueChanges_eq_nil {l r : KeyTree} :
    valueChanges l.values r.values = [] ↔ l.SameValues r := by
  unfold valueChanges KeyTree.SameValues joinByKey
  rw [List.flatMap_eq_nil_iff, ← forall_paired_align_iff]
  simp only [valueChange_eq_nil_iff]

/-- The root is reported exactly when its values differ, and under the empty path. -/
theorem mem_modifiedBy {l r : KeyTree} {path : List Str} :
    path ∈ (modifiedBy l.name (valueChanges l.values r.values)).map Change.foldedPath ↔
      path = [] ∧ ¬ l.SameValues r := by
  rw [← valueChanges_eq_nil]
  unfold modifiedBy
  split
  · rename_i h
    simp only [List.map_cons, List.map_nil, List.mem_singleton]
    exact (and_iff_left h).symm
  · rename_i h
    simp [not_not.mp h]

/-- The changes of a pair of subkeys, or of a subkey alone, are below its name. -/
theorem foldedPath_keyChange {x : Aligned KeyTree KeyTree} {c : Change} (h : c ∈ keyChange x) :
    ∃ path, c.foldedPath = x.key KeyTree.foldedName KeyTree.foldedName :: path := by
  cases x with
  | both a b =>
    obtain ⟨c', _, rfl⟩ := List.mem_map.mp h
    exact ⟨c'.foldedPath, Change.foldedPath_under a.name c'⟩
  | left a => exact ⟨[], by rw [List.mem_singleton.mp h]; rfl⟩
  | right b => exact ⟨[], by rw [List.mem_singleton.mp h]; rfl⟩

section Pairs

variable {l r : KeyTree} (pl : l.PlainSiblings) (pr : r.PlainSiblings)
  (hpair : ∀ a ∈ l.children, ∀ b ∈ r.children, ∀ path,
    path ∈ (a.changes b).map Change.foldedPath ↔ a.Reported b path)

include pl pr hpair

/-- A change below the roots is at a key to be reported, if that is so for each pair of subkeys. -/
theorem reported_of_mem_changesBelow {name : Str} {path : List Str} {c : Change}
    (hc : c ∈ changesBelow l r) (hpath : c.foldedPath = name :: path) :
    l.Reported r (name :: path) := by
  rw [KeyTree.reported_cons]
  obtain ⟨x, hx, hcx⟩ := List.mem_flatMap.mp hc
  cases x with
  | both a b =>
    obtain ⟨ha, hb, hkey⟩ := (both_mem_joinByKey pl.distinct pr.distinct).mp hx
    obtain ⟨c', hc', rfl⟩ := List.mem_map.mp hcx
    rw [Change.foldedPath_under] at hpath
    obtain ⟨rfl, rfl⟩ := List.cons.inj hpath
    rw [show l.child (toAsciiUppercase a.name) = some a from
        (KeyTree.child_eq_some pl).mpr ⟨ha, rfl⟩,
      show r.child (toAsciiUppercase a.name) = some b from
        (KeyTree.child_eq_some pr).mpr ⟨hb, hkey.symm⟩]
    exact (hpair a ha b hb _).mp (List.mem_map_of_mem hc')
  | left a =>
    obtain ⟨ha, halone⟩ := (left_mem_joinByKey pl.distinct pr.distinct).mp hx
    rw [List.mem_singleton.mp hcx] at hpath
    obtain ⟨rfl, rfl⟩ := List.cons.inj hpath
    rw [show l.child (toAsciiUppercase a.name) = some a from
        (KeyTree.child_eq_some pl).mpr ⟨ha, rfl⟩,
      show r.child (toAsciiUppercase a.name) = none from
        findByKey_eq_none.mpr fun b hb => (halone b hb).symm]
    rfl
  | right b =>
    obtain ⟨hb, halone⟩ := (right_mem_joinByKey pl.distinct pr.distinct).mp hx
    rw [List.mem_singleton.mp hcx] at hpath
    obtain ⟨rfl, rfl⟩ := List.cons.inj hpath
    rw [show r.child (toAsciiUppercase b.name) = some b from
        (KeyTree.child_eq_some pr).mpr ⟨hb, rfl⟩,
      show l.child (toAsciiUppercase b.name) = none from findByKey_eq_none.mpr halone]
    rfl

/-- A key to be reported below the roots has a change. -/
theorem mem_changesBelow_of_reported {name : Str} {path : List Str}
    (h : l.Reported r (name :: path)) :
    ∃ c ∈ changesBelow l r, c.foldedPath = name :: path := by
  rw [KeyTree.reported_cons] at h
  cases hl : l.child name with
  | none =>
    cases hr : r.child name with
    | none =>
      rw [hl, hr] at h
      exact h.elim
    | some b =>
      rw [hl, hr] at h
      obtain ⟨hb, rfl⟩ := (KeyTree.child_eq_some pr).mp hr
      -- only on the right: an added key is reported itself, and nothing below it
      have hx := (right_mem_joinByKey pl.distinct pr.distinct).mpr
        ⟨hb, findByKey_eq_none.mp hl⟩
      exact ⟨.added [b.name], List.mem_flatMap.mpr ⟨_, hx, List.mem_singleton_self _⟩,
        congrArg (b.foldedName :: ·) h.symm⟩
  | some a =>
    obtain ⟨ha, rfl⟩ := (KeyTree.child_eq_some pl).mp hl
    cases hr : r.child a.foldedName with
    | none =>
      rw [hl, hr] at h
      -- only on the left, in the same way
      have hx := (left_mem_joinByKey pl.distinct pr.distinct).mpr
        ⟨ha, fun b hb => (findByKey_eq_none.mp hr b hb).symm⟩
      exact ⟨.removed [a.name], List.mem_flatMap.mpr ⟨_, hx, List.mem_singleton_self _⟩,
        congrArg (a.foldedName :: ·) h.symm⟩
    | some b =>
      rw [hl, hr] at h
      obtain ⟨hb, hkey⟩ := (KeyTree.child_eq_some pr).mp hr
      -- a pair: the change is one of the pair, with the name put before its path
      have hx := (both_mem_joinByKey pl.distinct pr.distinct).mpr ⟨ha, hb, hkey.symm⟩
      obtain ⟨c, hc, hpath⟩ := List.mem_map.mp ((hpair a ha b hb path).mpr h)
      exact ⟨c.under a.name, List.mem_flatMap.mpr ⟨_, hx, List.mem_map_of_mem hc⟩, by
        rw [Change.foldedPath_under, hpath]
        rfl⟩

/-- A path below the root is reported by the changes of the children exactly when the trees differ
    there in the sense of `Reported`. -/
theorem mem_changesBelow_cons {name : Str} {path : List Str} :
    name :: path ∈ (changesBelow l r).map Change.foldedPath ↔ l.Reported r (name :: path) := by
  rw [List.mem_map]
  constructor
  · rintro ⟨c, hc, hpath⟩
    exact reported_of_mem_changesBelow pl pr hpair hc hpath
  · exact mem_changesBelow_of_reported pl pr hpair

end Pairs

/-- No change below the roots is at the roots. -/
theorem nil_not_mem_changesBelow {l r : KeyTree} :
    [] ∉ (changesBelow l r).map Change.foldedPath := by
  intro h
  obtain ⟨c, hc, hpath⟩ := List.mem_map.mp h
  obtain ⟨x, _, hcx⟩ := List.mem_flatMap.mp hc
  obtain ⟨path, hcons⟩ := foldedPath_keyChange hcx
  rw [hcons] at hpath
  cases hpath

/-- **The changes are at the keys to be reported.** -/
theorem mem_changes {l : KeyTree} (pl : l.PlainSiblings) : ∀ {r : KeyTree}, r.PlainSiblings →
    ∀ path, path ∈ (l.changes r).map Change.foldedPath ↔ l.Reported r path := by
  induction pl with
  | @node name values children hdistinct hnames hbelow ih =>
    intro r pr path
    have pl : (KeyTree.node name values children).PlainSiblings := .node hdistinct hnames hbelow
    rw [changes_eq, List.map_append, List.mem_append, mem_modifiedBy]
    cases path with
    | nil =>
      exact ⟨fun h => h.elim And.right fun hbelow => absurd hbelow nil_not_mem_changesBelow,
        fun h => Or.inl ⟨rfl, h⟩⟩
    | cons next path =>
      rw [mem_changesBelow_cons pl pr fun a ha b hb => ih a ha (pr.of_mem hb)]
      exact or_iff_right fun h => by cases h.1

/-! ## Order -/

/-- A path is before those of the keys below it. -/
theorem changesBelow_sorted {l r : KeyTree} (pl : l.PlainSiblings) (pr : r.PlainSiblings)
    (hpair : ∀ a ∈ l.children, ∀ b ∈ r.children,
      StrictlySorted Change.foldedPath (a.changes b)) :
    StrictlySorted Change.foldedPath (changesBelow l r) := by
  refine List.pairwise_flatMap.mpr ⟨fun x hx => ?_, ?_⟩
  · cases x with
    | both a b =>
      obtain ⟨ha, hb, _⟩ := (both_mem_joinByKey pl.distinct pr.distinct).mp hx
      refine List.pairwise_map.mpr ((hpair a ha b hb).imp fun {c d} hlt => ?_)
      rw [Change.foldedPath_under, Change.foldedPath_under, List.compare_cons_cons,
        Std.compare_self]
      exact hlt
    | left a => exact List.pairwise_singleton _ _
    | right b => exact List.pairwise_singleton _ _
  · have hkeys := strictlySorted_align (strictlySorted_sortByKey pl.distinct)
      (strictlySorted_sortByKey pr.distinct)
    refine List.Pairwise.imp (fun {x y} hlt c hc d hd => ?_) hkeys
    obtain ⟨path, hpath⟩ := foldedPath_keyChange hc
    obtain ⟨path', hpath'⟩ := foldedPath_keyChange hd
    rw [hpath, hpath', List.compare_cons_cons, hlt]
    rfl

/-- There is at most one change of the root itself. -/
theorem pairwise_modifiedBy (name : Str) (details : List ValueDiff) (le : Change → Change → Prop) :
    (modifiedBy name details).Pairwise le := by
  unfold modifiedBy
  split
  · exact List.pairwise_singleton _ _
  · exact List.Pairwise.nil

/-- **The changes come in the order of their paths.** -/
theorem changes_sorted {l : KeyTree} (pl : l.PlainSiblings) : ∀ {r : KeyTree}, r.PlainSiblings →
    StrictlySorted Change.foldedPath (l.changes r) := by
  induction pl with
  | @node name values children hdistinct hnames hbelow ih =>
    intro r pr
    have pl : (KeyTree.node name values children).PlainSiblings := .node hdistinct hnames hbelow
    rw [changes_eq]
    refine List.pairwise_append.mpr ⟨pairwise_modifiedBy _ _ _, changesBelow_sorted pl pr
      fun a ha b hb => ih a ha (pr.of_mem hb), fun c hc d hd => ?_⟩
    obtain ⟨hroot, _⟩ := mem_modifiedBy.mp (List.mem_map_of_mem (f := Change.foldedPath) hc)
    obtain ⟨x, _, hdx⟩ := List.mem_flatMap.mp hd
    obtain ⟨path, hpath⟩ := foldedPath_keyChange hdx
    rw [hroot, hpath]
    rfl

/-! ## Paths -/

/-- The components of a path, by which paths are compared. -/
def pathKey (path : Str) : List Str := (path.splitOn '\\').map toAsciiUppercase

/-- A folded path without the empty names at the front; of nothing but empty names, one is left. -/
def shown (path : List Str) : List Str :=
  match path.dropWhile (· = []) with
  | [] => [[]]
  | names => names

/-- A key with other values is recorded under its own name: the last on the way from the root. -/
def Change.OwnName (root : Str) : Change → Prop
  | .modified path name _ => name = (root :: path).getLast (List.cons_ne_nil _ _)
  | _ => True

/-- A change that carries its own name keeps it when it is moved under another key. -/
theorem Change.OwnName.under {name root : Str} {c : Change} (h : c.OwnName name) :
    (c.under name).OwnName root := by
  cases c with
  | modified path key details => exact h.trans (List.getLast_cons_cons ..).symm
  | removed path => trivial
  | added path => trivial

/-- No name on the way to a change contains a backslash, and a key is recorded under its name. -/
theorem plain_of_mem_changes {l : KeyTree} (pl : l.PlainSiblings) : ∀ {r : KeyTree},
    r.PlainSiblings → ∀ c ∈ l.changes r, (∀ name ∈ c.path, '\\' ∉ name) ∧ c.OwnName l.name := by
  induction pl with
  | @node name values children hdistinct hnames hbelow ih =>
    intro r pr c hc
    rw [changes_eq] at hc
    rcases List.mem_append.mp hc with hc | hc
    · unfold modifiedBy at hc
      split at hc
      · rw [List.mem_singleton.mp hc]
        exact ⟨fun name hname => absurd hname List.not_mem_nil, rfl⟩
      · cases hc
    · obtain ⟨x, hx, hcx⟩ := List.mem_flatMap.mp hc
      obtain ⟨hleft, hright⟩ := mem_of_joinByKey hx
      cases x with
      | both a b =>
        obtain ⟨c', hc', rfl⟩ := List.mem_map.mp hcx
        obtain ⟨hplain, hname⟩ := ih a (hleft a rfl) (pr.of_mem (hright b rfl)) c' hc'
        rw [Change.path_under]
        exact ⟨List.forall_mem_cons.mpr ⟨hnames a (hleft a rfl), hplain⟩, hname.under⟩
      | left a =>
        rw [List.mem_singleton.mp hcx]
        exact ⟨List.forall_mem_singleton.mpr (hnames a (hleft a rfl)), trivial⟩
      | right b =>
        rw [List.mem_singleton.mp hcx]
        exact ⟨List.forall_mem_singleton.mpr (pr.names (hright b rfl)), trivial⟩

/-- The text of a path: its names joined by backslashes, without the empty ones at the front. -/
theorem pathText_root (path : List Str) :
    pathText [] path = ['\\'].intercalate (path.dropWhile (· = [])) :=
  foldl_separated (fun _ => rfl) (fun _ _ h => if_neg h) path

/-- The components of the text of a path. -/
theorem pathKey_pathText {path : List Str} (h : ∀ name ∈ path, '\\' ∉ name) :
    pathKey (pathText [] path) = shown (path.map toAsciiUppercase) := by
  have hempty : (fun name : Str => decide (name = [])) ∘ toAsciiUppercase =
      fun name => decide (name = []) := funext fun name => by
    simp [toAsciiUppercase]
  have hdrop : (path.map toAsciiUppercase).dropWhile (· = []) =
      (path.dropWhile (· = [])).map toAsciiUppercase := by
    rw [List.dropWhile_map, hempty]
  have hplain : ∀ name ∈ path.dropWhile (· = []), '\\' ∉ name := fun name hname =>
    h name ((List.dropWhile_sublist _).mem hname)
  unfold pathKey shown
  rw [pathText_root, hdrop]
  generalize path.dropWhile (· = []) = names at hplain
  cases names with
  | nil => rfl
  | cons name names => rw [List.splitOn_intercalate '\\' hplain (List.cons_ne_nil _ _)]; rfl

/-- A path whose text is empty has empty names only. -/
theorem names_of_pathText_nil {path : List Str} (h : pathText [] path = []) :
    ∀ name ∈ path, name = [] := by
  rw [pathText_root] at h
  have hdrop : path.dropWhile (· = []) = [] := by
    cases hnames : path.dropWhile (· = []) with
    | nil => rfl
    | cons name names =>
      have hhead := List.head_dropWhile_not (fun name : Str => decide (name = [])) (l := path)
        (by rw [hnames]; exact List.cons_ne_nil _ _)
      rw [hnames, intercalate_cons] at h
      simp only [hnames, List.head_cons] at hhead
      exact absurd (List.append_eq_nil_iff.mp h).1 (by simpa using hhead)
  intro name hname
  simpa using List.dropWhile_eq_nil_iff.mp hdrop name hname

/-- **The entry of a change below the roots** has the path of its key, without the empty names at
    the front. -/
theorem pathKey_entry {root : Str} {c : Change} (hplain : ∀ name ∈ c.path, '\\' ∉ name)
    (hname : c.OwnName root) (hne : c.path ≠ []) :
    pathKey (c.entry []).path = shown c.foldedPath := by
  have hpath : (c.entry []).path = pathText [] c.path := by
    cases c with
    | removed path => rfl
    | added path => rfl
    | modified path name details =>
      show (if pathText [] path = [] then name else pathText [] path) = pathText [] path
      split
      · rename_i hempty
        -- only empty names lead to the key, and the last of them is its own
        have hlast : name = path.getLast hne := hname.trans (List.getLast_cons hne)
        rw [hempty, hlast]
        exact names_of_pathText_nil hempty _ (List.getLast_mem hne)
      · rfl
  rw [hpath]
  exact pathKey_pathText hplain

/-! ## When the entries are sorted -/

/-- The entries are sorted by path, and no path is repeated. -/
def DiffResult.Sorted (result : DiffResult) : Prop :=
  StrictlySorted (fun e => pathKey e.path) result.entries

/-- If the values of the roots differ, the name of the left root comes before the paths of the other
    keys to be reported. -/
def RootFirst (l r : KeyTree) : Prop :=
  ¬ l.SameValues r → ∀ path ≠ [], l.Reported r path →
    compare (pathKey l.name) (shown path) = .lt

/-- A key to be reported at or below a nameless key comes before the later ones also without the
    empty names at the front. -/
def NamelessFirst (l r : KeyTree) : Prop :=
  ∀ path later, l.Reported r ([] :: path) → l.Reported r later →
    compare ([] :: path) later = .lt → compare (shown ([] :: path)) (shown later) = .lt

/-- A path that begins with a name is shown as it is. -/
theorem shown_cons {name : Str} (h : name ≠ []) (path : List Str) :
    shown (name :: path) = name :: path := by
  unfold shown
  rw [List.dropWhile_cons_of_neg (by simpa using h)]

/-- A path behind a path that begins with a name begins with a name. -/
theorem shown_of_lt {name : Str} (h : name ≠ []) {path later : List Str}
    (hlt : compare (name :: path) later = .lt) : shown later = later := by
  cases later with
  | nil => cases hlt
  | cons next later =>
    refine shown_cons ?_ later
    rintro rfl
    cases name with
    | nil => exact h rfl
    | cons c name => cases hlt

/-- Two keys to be reported are shown in order unless the first is below a nameless key. -/
theorem namelessFirst_iff {l r : KeyTree} : NamelessFirst l r ↔
    ∀ path later, path ≠ [] → l.Reported r path → l.Reported r later →
      compare path later = .lt → compare (shown path) (shown later) = .lt := by
  constructor
  · intro h path later hne hpath hlater hlt
    cases path with
    | nil => exact absurd rfl hne
    | cons name path =>
      by_cases hname : name = []
      · subst hname
        exact h path later hpath hlater hlt
      · rw [shown_cons hname, shown_of_lt hname hlt]
        exact hlt
  · exact fun h path later => h ([] :: path) later (List.cons_ne_nil _ _)

section Entries

variable {l r : KeyTree} (pl : l.PlainSiblings) (pr : r.PlainSiblings)

include pl pr

/-- The changes below the roots are at the keys to be reported there. -/
theorem reported_iff_below {path : List Str} (hne : path ≠ []) :
    l.Reported r path ↔ ∃ c ∈ changesBelow l r, c.foldedPath = path := by
  cases path with
  | nil => exact absurd rfl hne
  | cons name path =>
    rw [← mem_changesBelow_cons pl pr fun a ha b hb =>
      mem_changes (pl.of_mem ha) (pr.of_mem hb), List.mem_map]

/-- The path that the entry of a change below the roots has. -/
theorem pathKey_below {c : Change} (hc : c ∈ changesBelow l r) :
    c.foldedPath ≠ [] ∧ pathKey (c.entry []).path = shown c.foldedPath := by
  have hne : c.foldedPath ≠ [] := fun hnil =>
    nil_not_mem_changesBelow (List.mem_map.mpr ⟨c, hc, hnil⟩)
  obtain ⟨hplain, hname⟩ := plain_of_mem_changes pl pr c
    (by rw [changes_eq]; exact List.mem_append_right _ hc)
  exact ⟨hne, pathKey_entry hplain hname fun hnil => hne (List.map_eq_nil_iff.mpr hnil)⟩

/-- **Below the roots** the entries are sorted if leaving out empty names keeps the order. -/
theorem below_sorted_iff : ((changesBelow l r).Pairwise fun c d =>
    compare (pathKey (c.entry []).path) (pathKey (d.entry []).path) = .lt) ↔
      NamelessFirst l r := by
  have hsorted := changesBelow_sorted pl pr fun a ha b hb =>
    changes_sorted (pl.of_mem ha) (pr.of_mem hb)
  rw [hsorted.pairwise_iff, namelessFirst_iff]
  constructor
  · intro h path later hpne hpath hlater hlt
    obtain ⟨c, hc, rfl⟩ := (reported_iff_below pl pr hpne).mp hpath
    have hlne : later ≠ [] := by
      rintro rfl
      cases hnames : c.foldedPath with
      | nil => exact hpne hnames
      | cons name names => rw [hnames] at hlt; cases hlt
    obtain ⟨d, hd, rfl⟩ := (reported_iff_below pl pr hlne).mp hlater
    rw [← (pathKey_below pl pr hc).2, ← (pathKey_below pl pr hd).2]
    exact h c hc d hd hlt
  · intro h c hc d hd hlt
    obtain ⟨hcne, hckey⟩ := pathKey_below pl pr hc
    obtain ⟨hdne, hdkey⟩ := pathKey_below pl pr hd
    rw [hckey, hdkey]
    exact h _ _ hcne ((reported_iff_below pl pr hcne).mpr ⟨c, hc, rfl⟩)
      ((reported_iff_below pl pr hdne).mpr ⟨d, hd, rfl⟩) hlt

/-- **The entry of the roots** comes before the others if the name of the left root does. -/
theorem root_sorted_iff : (∀ c ∈ modifiedBy l.name (valueChanges l.values r.values),
    ∀ d ∈ changesBelow l r,
      compare (pathKey (c.entry []).path) (pathKey (d.entry []).path) = .lt) ↔
      RootFirst l r := by
  unfold modifiedBy RootFirst
  rw [← valueChanges_eq_nil]
  split
  · rename_i hdiffer
    rw [List.forall_mem_singleton]
    constructor
    · intro h _ path hpne hpath
      obtain ⟨d, hd, rfl⟩ := (reported_iff_below pl pr hpne).mp hpath
      rw [← (pathKey_below pl pr hd).2]
      exact h d hd
    · intro h d hd
      obtain ⟨hdne, hdkey⟩ := pathKey_below pl pr hd
      rw [hdkey]
      exact h hdiffer _ hdne ((reported_iff_below pl pr hdne).mpr ⟨d, hd, rfl⟩)
  · rename_i hsame
    exact ⟨fun _ hdiffer => absurd hdiffer hsame, fun _ c hc => absurd hc List.not_mem_nil⟩

end Entries

/-- **When the entries of a diff are sorted** by key path, strictly: if and only if the name of the
    left root comes first where the values of the roots differ, and leaving out empty names at the
    front keeps the order.  Below the roots the merge reports in the order of folded names, by
    induction on the two trees; only the root's own entry comes under its name instead of the empty
    path. -/
theorem diffHives_sorted_iff {left right : Hive} {tl tr : KeyTree} (hl : left.ReadsTree tl)
    (hr : right.ReadsTree tr) (pl : tl.PlainSiblings) (pr : tr.PlainSiblings)
    (leftLabel rightLabel : Str) :
    ∃ result, Exec.Evals (fun n => diffHives n left right leftLabel rightLabel) (.ok result) ∧
      (DiffResult.Sorted result ↔ RootFirst tl tr ∧ NamelessFirst tl tr) := by
  refine ⟨_, diffHives_reads hl hr leftLabel rightLabel, ?_⟩
  show ((tl.changes tr).map (Change.entry [])).Pairwise _ ↔ _
  rw [List.pairwise_map, changes_eq, List.pairwise_append, below_sorted_iff pl pr,
    root_sorted_iff pl pr]
  constructor
  · rintro ⟨_, hbelow, hroot⟩
    exact ⟨hroot, hbelow⟩
  · rintro ⟨hroot, hbelow⟩
    exact ⟨pairwise_modifiedBy _ _ _, hbelow, hroot⟩

/-- The bare root has no siblings to compare. -/
theorem bareTree_plain : bareTree.PlainSiblings :=
  .node .nil (fun _ hc => absurd hc List.not_mem_nil) fun _ hc => absurd hc List.not_mem_nil

/-- On each level of `A\B` there is one key. -/
theorem nestedTree_plain : nestedTree.PlainSiblings := by
  refine .node (by decide) (List.forall_mem_singleton.mpr (by decide)) fun a ha => ?_
  obtain rfl := List.mem_singleton.mp ha
  refine .node (by decide) (List.forall_mem_singleton.mpr (by decide)) fun b hb => ?_
  obtain rfl := List.mem_singleton.mp hb
  exact .node (by decide) (fun _ hc => absurd hc List.not_mem_nil)
    fun _ hc => absurd hc List.not_mem_nil

/-- The two samples, whose diff has a single entry. -/
theorem diffHives_sorted_iff_nested :
    ∃ result, Exec.Evals (fun n => diffHives n bareHive nestedHive [] []) (.ok result) ∧
      (DiffResult.Sorted result ↔
        RootFirst bareTree nestedTree ∧ NamelessFirst bareTree nestedTree) :=
  diffHives_sorted_iff bareHive_readsTree nestedHive_readsTree bareTree_plain nestedTree_plain
    [] []

/-! ## A root with a name -/

/-- A root key `ROOT`. -/
def namedCells : Bytes :=
  cellBytes (-88) (nkRecordBytes 0x20 0 0xFFFFFFFF 0 0xFFFFFFFF [0x52, 0x4F, 0x4F, 0x54] ++
    List.replicate 4 0)

/-- The same root with the subkey `A` and the value `V`. -/
def grownCells : Bytes :=
  cellBytes (-88) (nkRecordBytes 0x20 1 120 1 224 [0x52, 0x4F, 0x4F, 0x54] ++
      List.replicate 4 0) ++
    cellBytes (-16) ([0x6C, 0x68] ++ u16Bytes 1 ++ u32Bytes 136 ++ u32Bytes 65) ++
    cellBytes (-88) (nkRecordBytes 0x20 0 0xFFFFFFFF 0 0xFFFFFFFF [0x41] ++
      List.replicate 7 0) ++
    cellBytes (-8) (u32Bytes 232) ++
    cellBytes (-32) (vkRecordBytes 0x80000004 0x2A 4 [0x56] ++ List.replicate 7 0)

/-- A hive of a root called `ROOT`, with nothing in it. -/
def namedHive : Hive := oneBinHive 32 namedCells
/-- The same root with a value `V` and a subkey `A`. -/
def grownHive : Hive := oneBinHive 32 grownCells

/-- What is read of the first. -/
def namedTree : KeyTree := .node "ROOT".toList [] []
/-- What is read of the second. -/
def grownTree : KeyTree :=
  .node "ROOT".toList [⟨['V'], .dword, [0x2A, 0, 0, 0]⟩] [.node ['A'] [] []]

/-- The root of the second, with one subkey and one value. -/
def grownRoot : Key := ⟨nkRecord ⟨0x20⟩ 1 120 1 224 [0x52, 0x4F, 0x4F, 0x54], ⟨32⟩⟩
/-- Its subkey. -/
def grownA : Key := ⟨nkRecord ⟨0x20⟩ 0 0xFFFFFFFF 0 0xFFFFFFFF [0x41], ⟨136⟩⟩
/-- Its value. -/
def grownV : Value := ⟨⟨1, 0x80000004, 0x2A, .dword, ⟨1⟩, [0x56]⟩, ⟨232⟩⟩

/-- The first image is read as the tree, by evaluating its one cell. -/
theorem namedHive_readsTree : namedHive.ReadsTree namedTree := by
  have hlen : namedCells.length = 88 := by decide
  have hread : namedHive.reader.readCell ⟨32⟩ =
      .ok (.keyNode (nkRecord ⟨0x20⟩ 0 0xFFFFFFFF 0 0xFFFFFFFF [0x52, 0x4F, 0x4F, 0x54])) :=
    Hive.readCell_oneBin 0 88 (by omega) rfl (by decide) (by omega) (by decide)
      (by decide)
  exact ⟨⟨nkRecord ⟨0x20⟩ 0 0xFFFFFFFF 0 0xFFFFFFFF [0x52, 0x4F, 0x4F, 0x54], ⟨32⟩⟩,
    Hive.rootKey_eq hread rfl, .leaf rfl rfl⟩

/-- The second image is read as the tree, cell by cell. -/
theorem grownHive_readsTree : grownHive.ReadsTree grownTree := by
  have hlen : grownCells.length = 232 := by decide +kernel
  have hroot : grownRoot.AtOffset grownHive.reader :=
    Hive.readCell_oneBin 0 88 (by omega) rfl (by decide) (by omega) (by decide)
      (by decide)
  have hindex : grownHive.reader.readCell ⟨120⟩ = .ok (.index (.hashLeaf [⟨⟨136⟩, 65⟩])) :=
    Hive.readCell_oneBin 88 16 (by omega) rfl (by decide) (by omega) (by decide)
      (by decide)
  have ha : grownA.AtOffset grownHive.reader :=
    Hive.readCell_oneBin 104 88 (by omega) rfl (by decide) (by omega) (by decide)
      (by decide)
  have hv : grownHive.reader.readCell grownV.offset = .ok (.keyValue grownV.vk) :=
    Hive.readCell_oneBin 200 32 (by omega) rfl (by decide) (by omega) (by decide)
      (by decide)
  have hlist : grownHive.reader.readCellRaw ⟨224⟩ =
      .ok (⟨-(8 : Nat)⟩, bytesAt grownCells 196 4) :=
    Hive.readCellRaw_oneBin (k := 192) (by omega) rfl (by decide) (by omega) (by decide)
  have hoff : grownV.offset = ⟨leU32 (bytesAt grownCells 196 4) 0⟩ := by decide
  have hvalues : grownRoot.values grownHive.reader = .ok [grownV] := by
    refine values_of_listed rfl (by simp) rfl hlist (by decide) fun i hi => ?_
    obtain rfl : i = 0 := by simpa using hi
    exact ⟨hoff, hv⟩
  have hkids : Exec.Evals (fun n => grownRoot.subkeys grownHive.reader n) (.ok [grownA]) :=
    subkeys_of_listed ⟨by decide, rfl⟩ (.leaf hindex rfl) (.cons ⟨rfl, ha⟩ .nil)
  have hreads : Reads grownHive.reader grownRoot (.node grownRoot.name
      [⟨['V'], .dword, [0x2A, 0, 0, 0]⟩] [.node grownA.name [] []]) := by
    refine .node hvalues (.cons ⟨by decide, rfl, by decide⟩ .nil) hkids rfl fun p hp => ?_
    obtain rfl := List.mem_singleton.mp hp
    exact .leaf rfl rfl
  exact ⟨grownRoot, Hive.rootKey_eq hroot rfl, hreads⟩

/-- **The name of the root comes before the keys below it**: the root `ROOT` has a new value, and
    a new key `A`; the entries are `ROOT`, `A`. -/
theorem diffHives_unsorted_named :
    Hive.fromBytes (oneBinImage 32 namedCells) = .ok namedHive ∧
    Hive.fromBytes (oneBinImage 32 grownCells) = .ok grownHive ∧
    namedHive.ReadsTree namedTree ∧ grownHive.ReadsTree grownTree ∧
    namedTree.PlainSiblings ∧ grownTree.PlainSiblings ∧
    ∃ result, Exec.Evals (fun n => diffHives n namedHive grownHive [] []) (.ok result) ∧
      result.entries = [⟨"ROOT".toList, .keyModified,
        [⟨['V'], .added ⟨ValueType.dword.name, "0x0000002A".toList, [0x2A, 0, 0, 0]⟩⟩]⟩,
        ⟨['A'], .keyAdded, []⟩] ∧
      ¬ DiffResult.Sorted result := by
  have hplain : (KeyTree.node ['A'] [] []).PlainSiblings :=
    .node .nil (fun _ hc => absurd hc List.not_mem_nil) fun _ hc => absurd hc List.not_mem_nil
  have hchanges : namedTree.changes grownTree = [.modified [] "ROOT".toList
      [⟨['V'], .added ⟨ValueType.dword.name, "0x0000002A".toList, [0x2A, 0, 0, 0]⟩⟩],
      .added [['A']]] := by
    unfold namedTree grownTree
    rw [changes_node]
    simp [valueChanges, joinByKey, sortByKey, modifiedBy, keyChange, valueChange, KeyTree.name,
      RegValue.snapshot]
    decide
  refine ⟨Hive.fromBytes_oneBinImage (by decide),
    Hive.fromBytes_oneBinImage (by decide +kernel), namedHive_readsTree, grownHive_readsTree,
    .node .nil (fun _ hc => absurd hc List.not_mem_nil) fun _ hc => absurd hc List.not_mem_nil,
    .node (by decide) (List.forall_mem_singleton.mpr (by decide))
      (List.forall_mem_singleton.mpr hplain), _,
    diffHives_reads namedHive_readsTree grownHive_readsTree [] [], ?_, ?_⟩
  · rw [hchanges]
    rfl
  · unfold DiffResult.Sorted StrictlySorted
    rw [hchanges]
    decide

end Diff

end Winreg
