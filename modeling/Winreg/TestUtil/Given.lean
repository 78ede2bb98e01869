/-
  WHAT A BUILDER GIVES, and the tree that its file reads as.

  A builder gives values under paths; letter case in names of keys and values does not count.  Two
  builders give the same exactly when their trees are the same, so what is proved about trees can be
  said of what was written.

  1. **Distinct names** — in the tree of a builder whose names differ by more than case no two
     siblings meet (`Distinct.tree`).
  2. **Contents** — the contents of the tree are what was given (`contents_tree`), and so the trees
     of two builders are the same where the builders give the same (`same_tree_iff`).
  3. **The file** — a hive that reads as the tree (`build_tree`).
-/
import Winreg.Diff.Same
import Winreg.TestUtil.Lookup

namespace Winreg.TestUtil

open Rust

variable {b : TestHiveBuilder}

/-! ## Distinct names -/

/-- Names of siblings, and of the values of one key, differ by more than ASCII case. -/
structure TestHiveBuilder.Distinct (b : TestHiveBuilder) : Prop where
  names : ∀ p ∈ [] :: b.closure, ((b.childNames p).map toAsciiUppercase).Nodup
  values : ∀ p ∈ [] :: b.closure, ((b.valuesAt p).map fun v => toAsciiUppercase v.name).Nodup

/-- A subtree has the name it was made with. -/
theorem name_subtree (n : Nat) (p : Path) (name : Str) : (b.subtree n p name).name = name := by
  cases n <;> rfl

/-- Its values are those given for the path. -/
theorem values_subtree (n : Nat) (p : Path) (name : Str) :
    (b.subtree n p name).values = (b.valuesAt p).map TreeValue.toRegValue := by
  cases n <;> rfl

/-- A child of a key is a key. -/
theorem mem_closure_child {p : Path} {c : Str} (hc : c ∈ b.childNames p) :
    p ++ [c] ∈ [] :: b.closure :=
  List.mem_cons_of_mem _ (mem_childNames.mp hc)

/-- The folded names below a key are those of the given paths. -/
theorem map_foldedName_children (n : Nat) (p : Path) :
    ((b.childNames p).map fun c => b.subtree n (p ++ [c]) c).map Winreg.KeyTree.foldedName =
      (b.childNames p).map toAsciiUppercase := by
  rw [List.map_map]
  refine List.map_congr_left fun c _ => ?_
  show toAsciiUppercase (b.subtree n (p ++ [c]) c).name = _
  rw [name_subtree]

/-- Names that differ below each path differ in the subtrees.  By induction on the depth. -/
theorem TestHiveBuilder.Distinct.subtree (h : b.Distinct) : ∀ (n : Nat) {p : Path} (name : Str),
    p ∈ [] :: b.closure → (b.subtree n p name).Distinct := by
  intro n
  induction n with
  | zero =>
    intro p name hp
    refine .node ?_ List.nodup_nil fun c hc => absurd hc List.not_mem_nil
    rw [List.map_map]
    exact h.values p hp
  | succ n ih =>
    intro p name hp
    refine .node ?_ ?_ fun t ht => ?_
    · rw [List.map_map]
      exact h.values p hp
    · rw [map_foldedName_children]
      exact h.names p hp
    · obtain ⟨c, hc, rfl⟩ := List.mem_map.mp ht
      exact ih c (mem_closure_child hc)

/-- In particular in the whole tree. -/
theorem TestHiveBuilder.Distinct.tree (h : b.Distinct) : b.tree.Distinct :=
  h.subtree _ _ List.mem_cons_self

/-! ## Contents -/

/-- What is given under a path: type and data for each folded name of a value. -/
def TestHiveBuilder.valuesGiven (b : TestHiveBuilder) (p : Path) (name : Str) :
    Option (ValueType × Bytes) :=
  ((b.valuesAt p).find? fun v => toAsciiUppercase v.name = name).map fun v =>
    (ValueType.fromRaw v.dataType, v.data)

/-- The builder gives a key with these values under this folded path. -/
def TestHiveBuilder.Gives (b : TestHiveBuilder) (names : List Str)
    (values : Str → Option (ValueType × Bytes)) : Prop :=
  ∃ q ∈ [] :: b.closure, folded q = names ∧ b.valuesGiven q = values

/-- Looking a value up in the tree is looking it up among the given ones. -/
theorem valueNamed_subtree (n : Nat) (p : Path) (name : Str) :
    (b.subtree n p name).valueNamed = b.valuesGiven p := by
  funext x
  rw [Winreg.KeyTree.valueNamed, values_subtree, findByKey, List.find?_map, Option.map_map]
  rfl

/-- The child of a name is the subtree of the component that it stands for. -/
theorem child_subtree (h : b.Distinct) {n : Nat} {p : Path} (name : Str)
    (hp : p ∈ [] :: b.closure) {x : Str} {t : Winreg.KeyTree} :
    (b.subtree (n + 1) p name).child x = some t ↔
      ∃ c ∈ b.childNames p, toAsciiUppercase c = x ∧ b.subtree n (p ++ [c]) c = t := by
  refine (findByKey_eq_some (h.subtree (n + 1) name hp).children).trans ?_
  constructor
  · rintro ⟨ht, hname⟩
    obtain ⟨c, hc, rfl⟩ := List.mem_map.mp ht
    refine ⟨c, hc, ?_, rfl⟩
    rwa [Winreg.KeyTree.foldedName, name_subtree] at hname
  · rintro ⟨c, hc, hname, rfl⟩
    refine ⟨List.mem_map_of_mem hc, ?_⟩
    rwa [Winreg.KeyTree.foldedName, name_subtree]

/-- The contents of a subtree that is deep enough are what was given below its path. -/
theorem contents_subtree (h : b.Distinct) {values : Str → Option (ValueType × Bytes)} :
    ∀ (names : List Str) {n : Nat} {p : Path} (name : Str), p ∈ [] :: b.closure →
      (∀ q ∈ b.closure, q.length ≤ p.length + n) →
        ((b.subtree n p name).contents names = some values ↔ ∃ below, p ++ below ∈ [] :: b.closure ∧
          folded below = names ∧ b.valuesGiven (p ++ below) = values)
  | [], n, p, name, hp, _ => by
    refine (Option.some_inj.trans (Eq.congr_left (valueNamed_subtree n p name))).trans ?_
    constructor
    · exact fun hvalues => ⟨[], by rwa [List.append_nil], rfl, by rwa [List.append_nil]⟩
    · rintro ⟨below, _, hnil, hvalues⟩
      obtain rfl : below = [] := List.map_eq_nil_iff.mp hnil
      rwa [List.append_nil] at hvalues
  | x :: names, 0, p, name, hp, hdeep => by
    -- nothing was given below a deepest path
    have hnone : (b.subtree 0 p name).contents (x :: names) = none := rfl
    rw [hnone]
    refine iff_of_false (fun h => by cases h) ?_
    rintro ⟨below, hbelow, hnames, _⟩
    cases below with
    | nil => cases hnames
    | cons c below =>
      rcases List.mem_cons.mp hbelow with hnil | hbelow
      · simp at hnil
      · have hlength := hdeep _ hbelow
        rw [List.length_append, List.length_cons] at hlength
        omega
  | x :: names, n + 1, p, name, hp, hdeep => by
    rw [Winreg.KeyTree.contents_cons, Option.bind_eq_some_iff]
    have hbelow : ∀ c ∈ b.childNames p,
        ((b.subtree n (p ++ [c]) c).contents names = some values ↔
          ∃ below, p ++ [c] ++ below ∈ [] :: b.closure ∧ folded below = names ∧
            b.valuesGiven (p ++ [c] ++ below) = values) := fun c hc =>
      contents_subtree h names c (mem_closure_child hc) fun q hq => (hdeep q hq).trans
        (by rw [List.length_append, List.length_singleton]; omega)
    constructor
    · rintro ⟨t, ht, hvalues⟩
      obtain ⟨c, hc, hname, rfl⟩ := (child_subtree h name hp).mp ht
      obtain ⟨below, hmem, hnames, hvalues⟩ := (hbelow c hc).mp hvalues
      rw [List.append_assoc, List.singleton_append] at hmem hvalues
      refine ⟨c :: below, hmem, ?_, hvalues⟩
      rw [folded, List.map_cons, hname]
      exact congrArg _ hnames
    · rintro ⟨below, hmem, hnames, hvalues⟩
      cases below with
      | nil => cases hnames
      | cons c below =>
        obtain ⟨hname, hnames⟩ := List.cons.inj hnames
        have hassoc : p ++ c :: below = p ++ [c] ++ below := List.append_cons p c below
        rw [hassoc] at hmem hvalues
        -- the closure has every prefix of the path, so its first component is a child
        have hc : c ∈ b.childNames p := by
          rcases List.mem_cons.mp hmem with hnil | hmem
          · simp at hnil
          · have hgiven : p ++ [c] ∈ b.closure :=
              closure_of_prefix hmem (List.prefix_append _ _) (by simp)
            exact mem_childNames.mpr hgiven
        exact ⟨_, (child_subtree h name hp).mpr ⟨c, hc, hname, rfl⟩,
          (hbelow c hc).mpr ⟨below, hmem, hnames, hvalues⟩⟩

/-- **The contents of the tree are what was given.** -/
theorem contents_tree (h : b.Distinct) {names : List Str}
    {values : Str → Option (ValueType × Bytes)} :
    b.tree.contents names = some values ↔ b.Gives names values := by
  refine (contents_subtree h names _ List.mem_cons_self fun q hq => ?_).trans Iff.rfl
  rw [List.length_nil, Nat.zero_add]
  exact length_le_depth hq

/-- **The trees are the same where the builders give the same.** -/
theorem same_tree_iff {b' : TestHiveBuilder} (h : b.Distinct) (h' : b'.Distinct) :
    b.tree.Same b'.tree ↔ ∀ names values, b.Gives names values ↔ b'.Gives names values := by
  constructor
  · intro hsame names values
    rw [← contents_tree h, ← contents_tree h', show b.tree.contents = b'.tree.contents from hsame]
  · intro hgives
    refine funext fun names => Option.ext fun values => ?_
    exact (contents_tree h).trans ((hgives names values).trans (contents_tree h').symm)

/-! ## The file -/

/-- **The file of a builder** reads as its tree. -/
theorem build_tree (h : b.Valid) {n : Nat} (hn : b.depth < n)
    (hsize : b.planOf.totalFileSize < 2 ^ 31) :
    ∃ image hive, (b.build n : Exec HiveError Bytes) = .ok image ∧
      Hive.fromBytes image = .ok hive ∧ hive.ReadsTree b.tree := by
  obtain ⟨image, hbuild, himage⟩ := @build_holds b HiveError h n hn hsize
  have hroot : (b.hive image).rootKey = .ok (b.keyAt []) :=
    Hive.rootKey_eq (readCell_key hsize himage h (p := []) (Or.inl rfl)) rfl
  refine ⟨image, b.hive image, hbuild, fromBytes_built hsize himage, b.keyAt [], hroot, ?_⟩
  refine reads_subtree hsize himage h (n := b.depth) (Or.inl rfl) fun q hq => ?_
  rw [List.length_nil, Nat.zero_add]
  exact length_le_depth hq

end Winreg.TestUtil
