/-
  KEY PATHS: from a key up to the root, and back down.

  `Key.path` follows the parent fields upwards until it reads a key with the flag `KEY_HIVE_ENTRY`,
  at most 512 times; the names it has read, and that of the key itself, make up the path.
  `open_key` goes down from the root by the parts of a path.

  1. **Up** — along the parent fields the walk reads the ancestors of the key from the nearest on;
     the path has the last 513 names on the way from the root (`path_eq`).
  2. **Down** — where sibling names differ by more than ASCII case, each part of the path has one
     subkey (`descend_below`).
  3. **Round trip** — down to a depth of 513 the path of a key opens that key (`openKey_path`).
-/
import Winreg.Core.IterOrder
import Winreg.Format.Records

namespace Winreg

open Rust Relation

/-! ## The walk up -/

namespace Key

/-- One step up: the names so far, the nearest first, and the parent to be read. -/
def pathPass (r : CellReader) (_ : Nat) (s : List Str × CellOffset) :
    Exec HiveError (Exec.Pass (List Str × CellOffset) (List Str × CellOffset)) :=
  let (parts, currentParent) := s
  if currentParent.isNull then .ok (.leave s)
  else do
    match ← r.readCell currentParent with
    | .keyNode nk =>
      -- the name of the root is not part of the path
      if nk.isRoot then .ok (.leave s)
      else .ok (.again (parts ++ [nk.keyName], nk.parent))
    | _ => .ok (.leave s)

/-- The full path of a key, without the root. -/
def path (r : CellReader) (k : Key) : Exec HiveError Str := do
  let (parts, _) ← Exec.forRange (pathPass r) 512 0 ([k.name], k.node.parent)
  .ok (['\\'].intercalate parts.reverse)

end Key

/-! ## Readable key trees -/

/-- The key below the root that is reached over keys with these names. -/
inductive Below (r : CellReader) (root : Key) : List Str → Key → Prop where
  | root : Below r root [] root
  | kid {names : List Str} {a b : Key} (habove : Below r root names a) (hkid : Kids r a b) :
      Below r root (names ++ [b.name]) b

/-- A finite readable key tree whose keys can be told apart by their paths, wherever the flag of the
    root is. -/
structure ConsistentTree (r : CellReader) (root : Key) : Prop where
  /-- The root is the parsed cell at its offset. -/
  atOffset : root.AtOffset r
  /-- The subkeys of every key are listed. -/
  readable : ∀ k, ReflTransGen (Kids r) root k →
    ∃ kids, Exec.Evals (fun n => k.subkeys r n) (.ok kids)
  /-- No key lists itself or an ancestor. -/
  acyclic : NoCycleFrom (Kids r) root
  /-- The parent field of a key is the offset of the key that lists it. -/
  parent : ∀ a b, ReflTransGen (Kids r) root a → Kids r a b → b.node.parent = a.offset
  /-- Names are nonempty and contain no backslash. -/
  names : ∀ k, ReflTransGen (Kids r) root k → k ≠ root → k.name ≠ [] ∧ '\\' ∉ k.name
  /-- Sibling names differ by more than ASCII case. -/
  distinct : ∀ a kids, ReflTransGen (Kids r) root a →
    Exec.Evals (fun n => a.subkeys r n) (.ok kids) →
    (kids.map fun k => toAsciiUppercase k.name).Nodup

/-- The flag `KEY_HIVE_ENTRY` tells the root from the other keys. -/
def FlagsRoot (r : CellReader) (root : Key) : Prop :=
  ∀ k, ReflTransGen (Kids r) root k → (k.node.isRoot = true ↔ k = root)

/-- Such a tree in which the walk up along the parent fields ends at the root and nowhere else. -/
structure PathTree (r : CellReader) (root : Key) : Prop extends
    consistent : ConsistentTree r root where
  /-- The root has the flag `KEY_HIVE_ENTRY`, and no other key has. -/
  hiveEntry : FlagsRoot r root

section Walk

variable {r : CellReader} {root : Key}

/-- A key below the root is in reach of it. -/
theorem Below.reachable {names : List Str} {k : Key} (h : Below r root names k) :
    ReflTransGen (Kids r) root k := by
  induction h with
  | root => exact ReflTransGen.refl
  | kid _ hkid ih => exact ih.tail hkid

/-- And each key in reach is below the root, under the names of some way down. -/
theorem exists_below {k : Key} (h : ReflTransGen (Kids r) root k) :
    ∃ names, Below r root names k := by
  induction h with
  | refl => exact ⟨[], .root⟩
  | tail _ hkid ih =>
    obtain ⟨names, habove⟩ := ih
    exact ⟨_, .kid habove hkid⟩

/-- Only the root is below itself under no names. -/
theorem Below.names_ne_nil {names : List Str} {k : Key} (h : Below r root names k)
    (hk : k ≠ root) : names ≠ [] := by
  cases h with
  | root => exact absurd rfl hk
  | kid => simp

/-- A key below the root is the one at its offset. -/
theorem Below.atOffset (tree : ConsistentTree r root) {names : List Str} {k : Key}
    (h : Below r root names k) : k.AtOffset r := by
  cases h with
  | root => exact tree.atOffset
  | kid _ hkid => exact hkid.atOffset

/-- A listed key is not the root. -/
theorem ConsistentTree.kid_ne_root (tree : ConsistentTree r root) {a b : Key}
    (ha : ReflTransGen (Kids r) root a) (hkid : Kids r a b) : b ≠ root := by
  rintro rfl
  exact tree.acyclic b ReflTransGen.refl (TransGen.tail' ha hkid)

/-- The root is not below a key. -/
theorem Below.root_names (tree : ConsistentTree r root) {names : List Str} {k : Key}
    (h : Below r root names k) (hk : k = root) : names = [] := by
  cases h with
  | root => rfl
  | kid habove hkid => exact absurd hk (tree.kid_ne_root habove.reachable hkid)

/-- The parent field tells by which key a key is listed. -/
theorem ConsistentTree.lister_eq (tree : ConsistentTree r root) {a a' b : Key}
    (ha : ReflTransGen (Kids r) root a) (ha' : ReflTransGen (Kids r) root a') (hkid : Kids r a b)
    (hkid' : Kids r a' b) : a = a' := by
  have hat : ∀ {k}, ReflTransGen (Kids r) root k → k.AtOffset r := fun hk =>
    (exists_below hk).elim fun _ h => h.atOffset tree
  have hoff := (tree.parent a b ha hkid).symm.trans (tree.parent a' b ha' hkid')
  exact (hat ha).unique (hat ha') hoff

/-- There is one way from the root to a key. -/
theorem Below.names_unique (tree : ConsistentTree r root) {names names' : List Str} {k : Key}
    (h : Below r root names k) (h' : Below r root names' k) : names = names' := by
  induction h generalizing names' with
  | root => exact (h'.root_names tree rfl).symm
  | @kid names a b habove hkid ih =>
    have hne : b ≠ root := tree.kid_ne_root habove.reachable hkid
    cases h' with
    | root => exact absurd rfl hne
    | @kid names' a' _ habove' hkid' =>
      obtain rfl := tree.lister_eq habove.reachable habove'.reachable hkid hkid'
      rw [ih habove']

/-- Ways down are put together. -/
theorem Below.append {names : List Str} {a b : Key} (h : Below r root names a)
    (hreach : ReflTransGen (Kids r) a b) : ∃ rest, Below r root (names ++ rest) b := by
  induction hreach with
  | refl => exact ⟨[], by rwa [List.append_nil]⟩
  | tail _ hkid ih =>
    obtain ⟨rest, hbelow⟩ := ih
    exact ⟨rest ++ [_], by rw [← List.append_assoc]; exact .kid hbelow hkid⟩

/-- What holds of the names of listed keys holds of the names on the way to a key. -/
theorem Below.forall_names {p : Str → Prop} {names : List Str} {k : Key}
    (h : Below r root names k)
    (hp : ∀ a b, ReflTransGen (Kids r) root a → Kids r a b → p b.name) : ∀ name ∈ names, p name := by
  induction h with
  | root => exact fun name hname => absurd hname List.not_mem_nil
  | kid habove hkid ih =>
    intro name hname
    rcases List.mem_append.mp hname with hname | hname
    · exact ih name hname
    · rw [List.mem_singleton.mp hname]
      exact hp _ _ habove.reachable hkid

/-- The names on the way to a key can be joined to a path and split again. -/
theorem Below.names_ok (tree : ConsistentTree r root) {names : List Str} {k : Key}
    (h : Below r root names k) : ∀ name ∈ names, name ≠ [] ∧ '\\' ∉ name :=
  h.forall_names fun _ b ha hkid => tree.names b (ha.tail hkid) (tree.kid_ne_root ha hkid)

/-- A cell that was read is not at the null offset. -/
theorem isNull_of_readCell {hive : Hive} {off : CellOffset} {cell : Cell}
    (h : hive.reader.readCell off = .ok cell) : off.isNull = false := by
  obtain ⟨_, _, hread, _⟩ := Hive.readsCell_of_readCell h
  exact hread.not_null

end Walk

section Hive

variable {hive : Hive} {root : Key}

/-- **The walk up** from the offset of a key reads its name and those of its ancestors, the nearest
    first, as far as the number of steps goes. -/
theorem forRange_pathPass (tree : PathTree hive.reader root) {names : List Str} {k : Key}
    (h : Below hive.reader root names k) : ∀ (steps i : Nat) (parts : List Str), ∃ off,
      Exec.forRange (Key.pathPass hive.reader) steps i (parts, k.offset) =
        .ok (parts ++ names.reverse.take steps, off) := by
  induction h with
  | root =>
    intro steps i parts
    refine ⟨root.offset, ?_⟩
    rw [List.reverse_nil, List.take_nil, List.append_nil]
    cases steps with
    | zero => rfl
    | succ steps =>
      have hroot : root.node.isRoot = true :=
        (tree.hiveEntry root ReflTransGen.refl).mpr rfl
      refine Exec.forRange_leave ?_ steps
      unfold Key.pathPass
      dsimp only
      rw [if_neg (by rw [isNull_of_readCell tree.atOffset]; decide),
        show hive.reader.readCell root.offset = _ from tree.atOffset, Exec.ok_bind]
      dsimp only
      rw [if_pos hroot]
  | @kid names a b habove hkid ih =>
    intro steps i parts
    cases steps with
    | zero => exact ⟨b.offset, by rw [List.take_zero, List.append_nil]; rfl⟩
    | succ steps =>
      -- `b` is not the root, so its name is taken and the walk goes on at its parent
      have hread : hive.reader.readCell b.offset = .ok (.keyNode b.node) := hkid.atOffset
      have hinner : b.node.isRoot ≠ true := fun hflag =>
        tree.consistent.kid_ne_root habove.reachable hkid
          ((tree.hiveEntry b (habove.reachable.tail hkid)).mp hflag)
      have hpass : Key.pathPass hive.reader i (parts, b.offset) =
          .ok (.again (parts ++ [b.name], a.offset)) := by
        unfold Key.pathPass
        dsimp only
        rw [if_neg (by rw [isNull_of_readCell hread]; decide), hread, Exec.ok_bind]
        dsimp only
        rw [if_neg hinner, tree.parent a b habove.reachable hkid]
        rfl
      obtain ⟨off, hrest⟩ := ih steps (i + 1) (parts ++ [b.name])
      refine ⟨off, ?_⟩
      rw [Exec.forRange_again hpass, hrest, List.reverse_append, List.append_assoc]
      rfl

/-- **The path of a key**: the last 513 names on the way from the root. -/
theorem path_eq (tree : PathTree hive.reader root) {names : List Str} {k : Key}
    (h : Below hive.reader root names k) (hk : k ≠ root) :
    k.path hive.reader = .ok (['\\'].intercalate (names.reverse.take 513).reverse) := by
  cases h with
  | root => exact absurd rfl hk
  | @kid names a _ habove hkid =>
    obtain ⟨off, hwalk⟩ := forRange_pathPass tree habove 512 0 [k.name]
    unfold Key.path
    rw [tree.parent a k habove.reachable hkid, hwalk, Exec.ok_bind, List.reverse_append]
    rfl

/-! ## The walk down -/

/-- The one key with a name is found. -/
theorem find?_folded {kids : List Key} {k : Key} (hk : k ∈ kids)
    (hdistinct : (kids.map fun k => toAsciiUppercase k.name).Nodup) :
    kids.find? (fun key => toAsciiUppercase key.name = toAsciiUppercase k.name) = some k := by
  induction kids with
  | nil => cases hk
  | cons a kids ih =>
    obtain ⟨hnew, hrest⟩ := List.nodup_cons.mp hdistinct
    rcases List.mem_cons.mp hk with rfl | hk
    · exact List.find?_cons_of_pos (by simp)
    · have hfolded := List.mem_map_of_mem (f := fun k : Key => toAsciiUppercase k.name) hk
      have hne : toAsciiUppercase a.name ≠ toAsciiUppercase k.name := fun heq => by
        rw [← heq] at hfolded
        exact hnew hfolded
      rw [List.find?_cons_of_neg (by simpa using hne), ih hk hrest]

/-- Where siblings differ by name, a key in reach finds each of its subkeys by that name. -/
theorem subkey_below (tree : ConsistentTree hive.reader root) {a b : Key}
    (ha : ReflTransGen (Kids hive.reader) root a) (hkid : Kids hive.reader a b) :
    Exec.Evals (fun n => a.subkey hive.reader n b.name) (.ok (some b)) := by
  obtain ⟨kids, hkids, hmem⟩ := hkid
  have hfind := find?_folded hmem (tree.distinct a kids ha hkids)
  refine Exec.Evals.bind hkids ?_
  rw [hfind]
  exact Exec.Evals.const _

/-- In a readable tree every path opens a key in reach, or none. -/
theorem exists_descend {r : CellReader} (hreadable : ∀ k, ReflTransGen (Kids r) root k →
    ∃ kids, Exec.Evals (fun n => k.subkeys r n) (.ok kids)) : ∀ (parts : List Str) {key : Key},
    ReflTransGen (Kids r) root key → ∃ found,
      Exec.Evals (fun n => Key.descend r n key parts) (.ok found) ∧
      ∀ k, found = some k → ReflTransGen (Kids r) root k
  | [], key, hkey => ⟨some key, Exec.Evals.const _, fun k hk => Option.some.inj hk ▸ hkey⟩
  | part :: parts, key, hkey => by
    obtain ⟨kids, hkids⟩ := hreadable key hkey
    have hsubkey : Exec.Evals (fun n => key.subkey r n part)
        (.ok (kids.find? fun kid => toAsciiUppercase kid.name = toAsciiUppercase part)) :=
      Exec.Evals.bind hkids (Exec.Evals.const _)
    cases hfind : kids.find? fun kid => toAsciiUppercase kid.name = toAsciiUppercase part with
    | none =>
      rw [hfind] at hsubkey
      exact ⟨none, Exec.Evals.bind hsubkey (Exec.Evals.const _), fun k hk => by cases hk⟩
    | some next =>
      rw [hfind] at hsubkey
      obtain ⟨found, hfound, hreach⟩ := exists_descend hreadable parts
        (hkey.tail ⟨kids, hkids, List.mem_of_find?_eq_some hfind⟩)
      exact ⟨found, Exec.Evals.bind hsubkey hfound, hreach⟩

/-- Going down a path in two steps: a missing key on the way ends both. -/
theorem descend_append {r : CellReader} (n : Nat) (below : List Str) : ∀ (parts : List Str)
    (key : Key), Key.descend r n key (parts ++ below) = (Key.descend r n key parts >>= fun
      | none => .ok none
      | some next => Key.descend r n next below)
  | [], key => rfl
  | part :: parts, key => by
    rw [List.cons_append, Key.descend, Key.descend, bind_assoc]
    refine congrArg _ (funext fun found => ?_)
    cases found with
    | none => rfl
    | some next => exact descend_append n below parts next

/-- **The walk down** along the names on the way to a key ends at that key. -/
theorem descend_below (tree : ConsistentTree hive.reader root) {names : List Str} {k : Key}
    (h : Below hive.reader root names k) :
    Exec.Evals (fun n => Key.descend hive.reader n root names) (.ok (some k)) := by
  induction h with
  | root => exact Exec.Evals.const _
  | @kid names a b habove hkid ih =>
    refine (Exec.Evals.bind ih (g := fun n found => match found with
      | none => .ok none
      | some next => Key.descend hive.reader n next [b.name]) ?_).congr
      fun n => descend_append n [b.name] names root
    exact Exec.Evals.bind (subkey_below tree habove.reachable hkid) (Exec.Evals.const _)

/-! ## Round trip -/

/-- Joined names are split into the same names. -/
theorem pathParts_intercalate {names : List Str} (h : ∀ name ∈ names, name ≠ [] ∧ '\\' ∉ name) :
    Key.pathParts (['\\'].intercalate names) = names := by
  rcases eq_or_ne names [] with rfl | hne
  · rfl
  unfold Key.pathParts
  rw [List.splitOn_intercalate '\\' (fun name hname => (h name hname).2) hne]
  exact List.filter_eq_self.mpr fun name hname => decide_eq_true (h name hname).1

/-- **Path round trip**: down to a depth of 513, the path of a key opens that key.  Going up the
    parents gives the names that going down from the root needs; the two are compared by induction
    on the way from the root. -/
theorem openKey_path (hroot : hive.rootKey = .ok root) (tree : PathTree hive.reader root)
    {names : List Str} {k : Key} (h : Below hive.reader root names k) (hk : k ≠ root)
    (hdepth : names.length ≤ 513) :
    ∃ p, k.path hive.reader = .ok p ∧ Exec.Evals (fun n => hive.openKey n p) (.ok (some k)) := by
  have hne := h.names_ne_nil hk
  refine ⟨['\\'].intercalate names, ?_, ?_⟩
  · rw [path_eq tree h hk, List.take_of_length_le (by rw [List.length_reverse]; exact hdepth),
      List.reverse_reverse]
  · have hdown := descend_below tree.consistent h
    have hparts := pathParts_intercalate (h.names_ok tree.consistent)
    refine hdown.congr fun n => ?_
    rw [Hive.openKey, hroot, Exec.ok_bind, Key.subkeyPath, hparts]
    cases names with
    | nil => exact absurd rfl hne
    | cons name names => rfl

end Hive

/-- A root with the key `A`, which has the key `B`; each knows its parent. -/
def nestedRoot : Key := ⟨nkRecord ⟨0x24⟩ 1 112 0 0xFFFFFFFF [], ⟨32⟩⟩
/-- The key `A`, with its parent. -/
def nestedA : Key := ⟨{ nkRecord ⟨0x20⟩ 1 216 0 0xFFFFFFFF [0x41] with parent := ⟨32⟩ }, ⟨128⟩⟩
/-- The key `B` below it. -/
def nestedB : Key :=
  ⟨{ nkRecord ⟨0x20⟩ 0 0xFFFFFFFF 0 0xFFFFFFFF [0x42] with parent := ⟨128⟩ }, ⟨232⟩⟩

/-- The cells of the root and the two keys. -/
def nestedCells : Bytes :=
  cellBytes (-80) nestedRoot.node.toBytes ++
    (cellBytes (-16) ([0x6C, 0x68] ++ u16Bytes 1 ++ u32Bytes 128 ++ u32Bytes 0) ++
    (cellBytes (-88) (nestedA.node.toBytes ++ List.replicate 7 0) ++
    (cellBytes (-16) ([0x6C, 0x68] ++ u16Bytes 1 ++ u32Bytes 232 ++ u32Bytes 0) ++
    cellBytes (-88) (nestedB.node.toBytes ++ List.replicate 7 0))))

/-- A hive with these cells. -/
def nestedHive : Hive := oneBinHive 32 nestedCells

/-- The cells are read as these keys and their lists. -/
theorem nested_readCell :
    nestedRoot.AtOffset nestedHive.reader ∧ nestedA.AtOffset nestedHive.reader ∧
    nestedB.AtOffset nestedHive.reader ∧
    nestedHive.reader.readCell ⟨112⟩ = .ok (.index (.hashLeaf [⟨⟨128⟩, 0⟩])) ∧
    nestedHive.reader.readCell ⟨216⟩ = .ok (.index (.hashLeaf [⟨⟨232⟩, 0⟩])) := by
  have hcells : nestedCells.length = 288 := by decide +kernel
  refine ⟨?_, ?_, ?_, ?_, ?_⟩
  · exact Hive.readCell_oneBin 0 80 (by omega) rfl (by decide) (by omega) (by decide)
      (by decide)
  · exact Hive.readCell_oneBin 96 88 (by omega) rfl (by decide) (by omega) (by decide)
      (by decide)
  · exact Hive.readCell_oneBin 200 88 (by omega) rfl (by decide) (by omega) (by decide)
      (by decide)
  · exact Hive.readCell_oneBin 80 16 (by omega) rfl (by decide) (by omega) (by decide)
      (by decide)
  · exact Hive.readCell_oneBin 184 16 (by omega) rfl (by decide) (by omega) (by decide)
      (by decide)

/-- The listings of the three keys. -/
theorem nested_subkeys :
    Exec.Evals (fun n => nestedRoot.subkeys nestedHive.reader n) (.ok [nestedA]) ∧
    Exec.Evals (fun n => nestedA.subkeys nestedHive.reader n) (.ok [nestedB]) ∧
    Exec.Evals (fun n => nestedB.subkeys nestedHive.reader n) (.ok []) := by
  obtain ⟨_, ha, hb, hrootIndex, haIndex⟩ := nested_readCell
  refine ⟨?_, ?_, ⟨0, fun _ _ => rfl⟩⟩
  · exact subkeys_of_listed ⟨by decide, by decide⟩ (.leaf hrootIndex rfl) (.cons ⟨rfl, ha⟩ .nil)
  · exact subkeys_of_listed ⟨by decide, by decide⟩ (.leaf haIndex rfl) (.cons ⟨rfl, hb⟩ .nil)

/-- The unrolled tree: one key below the other. -/
theorem nested_unrolls : Unrolls nestedHive.reader nestedRoot
    (.node (.ok nestedRoot) [.node (.ok nestedA) [.node (.ok nestedB) []]]) := by
  obtain ⟨hroot, ha, hb⟩ := nested_subkeys
  have hB : Unrolls nestedHive.reader nestedB (.node (.ok nestedB) []) :=
    .listed hb rfl fun p hp => absurd hp List.not_mem_nil
  have hA : Unrolls nestedHive.reader nestedA (.node (.ok nestedA) [.node (.ok nestedB) []]) := by
    refine .listed ha rfl fun p hp => ?_
    obtain rfl := List.mem_singleton.mp hp
    exact hB
  refine .listed hroot rfl fun p hp => ?_
  obtain rfl := List.mem_singleton.mp hp
  exact hA

/-- The keys in reach and their subkeys. -/
theorem nested_reachable {k : Key} (h : ReflTransGen (Kids nestedHive.reader) nestedRoot k) :
    k = nestedRoot ∨ k = nestedA ∨ k = nestedB := by
  obtain ⟨hroot, ha, hb⟩ := nested_subkeys
  induction h with
  | refl => exact Or.inl rfl
  | tail _ hkid ih =>
    obtain ⟨kids, hkids, hmem⟩ := hkid
    rcases ih with rfl | rfl | rfl
    · obtain rfl := Exec.ok.inj (hkids.unique hroot)
      exact Or.inr (Or.inl (List.mem_singleton.mp hmem))
    · obtain rfl := Exec.ok.inj (hkids.unique ha)
      exact Or.inr (Or.inr (List.mem_singleton.mp hmem))
    · obtain rfl := Exec.ok.inj (hkids.unique hb)
      cases hmem

/-- Names, parents and flags are those of a tree of paths. -/
theorem nested_pathTree : PathTree nestedHive.reader nestedRoot := by
  obtain ⟨hroot, ha, hb⟩ := nested_subkeys
  refine ⟨⟨nested_readCell.1, fun k hk => ?_, noCycleFrom_iff_acc.mpr nested_unrolls.acc,
    fun a b hreach hkid => ?_, fun k hk hne => ?_, fun a kids hreach hkids => ?_⟩, fun k hk => ?_⟩
  · rcases nested_reachable hk with rfl | rfl | rfl
    · exact ⟨_, hroot⟩
    · exact ⟨_, ha⟩
    · exact ⟨_, hb⟩
  · obtain ⟨kids, hkids, hmem⟩ := hkid
    rcases nested_reachable hreach with rfl | rfl | rfl
    · obtain rfl := Exec.ok.inj (hkids.unique hroot)
      rw [List.mem_singleton.mp hmem]
      rfl
    · obtain rfl := Exec.ok.inj (hkids.unique ha)
      rw [List.mem_singleton.mp hmem]
      rfl
    · obtain rfl := Exec.ok.inj (hkids.unique hb)
      cases hmem
  · rcases nested_reachable hk with rfl | rfl | rfl
    · exact absurd rfl hne
    · decide
    · decide
  · rcases nested_reachable hreach with rfl | rfl | rfl
    · obtain rfl := Exec.ok.inj (hkids.unique hroot)
      exact List.nodup_singleton _
    · obtain rfl := Exec.ok.inj (hkids.unique ha)
      exact List.nodup_singleton _
    · obtain rfl := Exec.ok.inj (hkids.unique hb)
      exact List.nodup_nil
  · rcases nested_reachable hk with rfl | rfl | rfl <;> decide

/-- The root key is the root. -/
theorem nested_rootKey : nestedHive.rootKey = .ok nestedRoot :=
  Hive.rootKey_eq nested_readCell.1 rfl

/-- The key `A\B` of that hive. -/
theorem openKey_path_nested :
    ∃ p, nestedB.path nestedHive.reader = .ok p ∧
      Exec.Evals (fun n => nestedHive.openKey n p) (.ok (some nestedB)) := by
  obtain ⟨hroot, ha, _⟩ := nested_subkeys
  have hA : Below nestedHive.reader nestedRoot [nestedA.name] nestedA :=
    .kid .root ⟨_, hroot, List.mem_singleton_self _⟩
  have hB : Below nestedHive.reader nestedRoot [nestedA.name, nestedB.name] nestedB :=
    .kid hA ⟨_, ha, List.mem_singleton_self _⟩
  exact openKey_path nested_rootKey nested_pathTree hB (by decide)
    (show 2 ≤ 513 by decide)

end Winreg
