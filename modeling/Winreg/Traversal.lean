/-
  WHOLE-TREE TRAVERSALS: which hives they come to an end on.

  Four traversals walk the key tree of a hive: the two iterators, the shell bag walk and the diff.
  None of them remembers which keys it has visited.

  1. **Diff** — its recursion moves along the subkeys of both sides at once, so it ends when the
     keys of one side are accessible (`diffKeyRecursive_ends`).
  2. **All traversals** — they end exactly on the hives in which no key in reach of the root lists
     itself or an ancestor (`traversalsEnd_iff`).
-/
import Winreg.Artifacts.ShellBags
import Winreg.Core.Tree
import Winreg.Diff.Engine

namespace Winreg

open Rust Relation

namespace Diff

/-! ## Faults of the value comparison -/

section Faults

variable {rl rr : CellReader} {fault : Exec.Fault}

/-- A default in the place of an error adds no fault. -/
theorem unwrapOr_avoids {α : Type} {x : Exec HiveError α} (h : x.Avoids fault) (d : α) :
    (x.unwrapOr d).Avoids fault := by
  cases x with
  | err e => exact .ok d
  | ok a => exact h
  | panic => exact h
  | timeout => exact h

/-- Keeping a value for a diff adds no fault to reading its cells. -/
theorem valueToSnapshot_avoids {r : CellReader} (hr : ∀ off, (r.readCellRaw off).Avoids fault)
    (val : Value) : (valueToSnapshot r val).Avoids fault := by
  have hraw := Value.rawData_avoids hr val
  refine .bind (unwrapOr_avoids hraw []) fun raw _ => .bind ?_ fun display _ => .ok _
  unfold formatValue
  split
  · exact unwrapOr_avoids (.bind hraw fun _ _ => .ok _) _
  · exact unwrapOr_avoids (.bind hraw fun _ _ => .ok _) _
  · exact unwrapOr_avoids (.bind (.bind hraw fun _ _ => .ok _) fun _ _ => .ok _) _
  · exact .ok _

/-- **Comparing the values of two keys** avoids a fault that cell reads avoid. -/
theorem diffValues_avoids (hl : ∀ off, (rl.readCellRaw off).Avoids fault)
    (hr : ∀ off, (rr.readCellRaw off).Avoids fault) (left right : Key) :
    (diffValues rl rr left right).Avoids fault := by
  refine .bind (Key.values_avoids hl left) fun leftVals _ =>
    .bind (Key.values_avoids hr right) fun rightVals _ => ?_
  rw [mergeJoin_eq]
  refine Exec.foldlM_avoids (fun diffs x => ?_) _ _
  cases x with
  | left l => exact .bind (valueToSnapshot_avoids hl l) fun _ _ => .ok _
  | right r => exact .bind (valueToSnapshot_avoids hr r) fun _ _ => .ok _
  | both l r =>
    refine .bind (unwrapOr_avoids (Value.rawData_avoids hl l) []) fun leftRaw _ =>
      .bind (unwrapOr_avoids (Value.rawData_avoids hr r) []) fun rightRaw _ => ?_
    split
    · exact .bind (valueToSnapshot_avoids hl l) fun _ _ =>
        .bind (valueToSnapshot_avoids hr r) fun _ _ => .ok _
    · exact .ok _

end Faults

/-! ## The recursion of the diff -/

/-- A step of the recursion: to a subkey on either side. -/
def PairKids (rl rr : CellReader) (a b : Key × Key) : Prop :=
  Kids rl a.1 b.1 ∧ Kids rr a.2 b.2

/-- A pair of keys is well-founded when its left key is: each step goes down on both sides. -/
theorem acc_pair_of_left {rl : CellReader} (rr : CellReader) {l : Key}
    (h : Acc (flip (Kids rl)) l) (r : Key) : Acc (flip (PairKids rl rr)) (l, r) :=
  Subrelation.accessible (r := InvImage (flip (Kids rl)) Prod.fst) (fun h => h.1)
    (InvImage.accessible Prod.fst h)

/-- Or its right key. -/
theorem acc_pair_of_right (rl : CellReader) {rr : CellReader} {r : Key}
    (h : Acc (flip (Kids rr)) r) (l : Key) : Acc (flip (PairKids rl rr)) (l, r) :=
  Subrelation.accessible (r := InvImage (flip (Kids rr)) Prod.snd) (fun h => h.2)
    (InvImage.accessible Prod.snd h)

/-- More fuel never changes the comparison of two lists of subkeys. -/
theorem mergeJoinSubkeys_grows (rl rr : CellReader) (ls rs : List Key) (path : Str)
    (delta : Delta) :
    Exec.Grows fun n => mergeJoinSubkeys (diffKeyRecursive rl rr n) ls rs path delta :=
  fun n => mergeJoinSubkeys_refines (diffKeyRecursive_refines rl rr n) ls rs path delta

/-- The join ends when the recursion ends on every pair of subkeys. -/
theorem mergeJoinSubkeys_ends {rl rr : CellReader} {ls rs : List Key}
    (h : ∀ l ∈ ls, ∀ r ∈ rs, ∀ path delta,
      Exec.Ends fun n => diffKeyRecursive rl rr n l r path delta) (path : Str) (delta : Delta) :
    Exec.Ends fun n => mergeJoinSubkeys (diffKeyRecursive rl rr n) ls rs path delta := by
  simp only [mergeJoinSubkeys, mergeJoin_eq]
  refine Exec.ends_foldlM (fun delta x => ?_) _ (fun x hx delta => ?_) _
  · cases x with
    | left l => exact Exec.grows_const _
    | right r => exact Exec.grows_const _
    | both l r => exact fun n => diffKeyRecursive_refines rl rr n l r _ delta
  · cases x with
    | left l => exact ⟨0, by simp [Handlers.run]⟩
    | right r => exact ⟨0, by simp [Handlers.run]⟩
    | both l r => exact h l ((mem_of_align hx).1 l rfl) r ((mem_of_align hx).2 r rfl) _ delta

/-- **The recursion ends on accessible pairs of keys.** -/
theorem diffKeyRecursive_ends (rl rr : CellReader)
    (hl : ∀ off, (rl.readCellRaw off).Avoids .timeout)
    (hr : ∀ off, (rr.readCellRaw off).Avoids .timeout) {pair : Key × Key}
    (hacc : Acc (flip (PairKids rl rr)) pair) :
    ListingsReturn rl pair.1 → ListingsReturn rr pair.2 → ∀ path delta,
      Exec.Ends fun n => diffKeyRecursive rl rr n pair.1 pair.2 path delta := by
  induction hacc with
  | intro pair _ ih =>
    intro hlistL hlistR path delta
    obtain ⟨x, hx, hevL⟩ := hlistL pair.1 ReflTransGen.refl
    obtain ⟨y, hy, hevR⟩ := hlistR pair.2 ReflTransGen.refl
    refine Exec.Ends.of_succ ?_
    simp only [diffKeyRecursive]
    refine Exec.Ends.bind (Exec.grows_const _) (fun diffs n => ?_)
      (Exec.ends_const_iff.mpr (diffValues_avoids hl hr _ _)) fun _ diffs _ => ?_
    · exact Exec.Refines.bind (subkeys_grows pair.1 n) fun ls =>
        Exec.Refines.bind (subkeys_grows pair.2 n) fun rs => mergeJoinSubkeys_grows rl rr _ _ _ _ n
    refine Exec.Ends.bind (subkeys_grows pair.1) (fun ls n => ?_) (hevL.ends hx.ne_timeout)
      fun _ ls hls => ?_
    · exact Exec.Refines.bind (subkeys_grows pair.2 n) fun rs =>
        mergeJoinSubkeys_grows rl rr _ _ _ _ n
    refine Exec.Ends.bind (subkeys_grows pair.2) (fun rs => mergeJoinSubkeys_grows rl rr _ _ _ _)
      (hevR.ends hy.ne_timeout) fun _ rs hrs => ?_
    refine mergeJoinSubkeys_ends (fun l hlmem r hrmem path delta => ?_) _ _
    have hkl := (kids_iff_mem hls).mpr (mem_sortByKey.mp hlmem)
    have hkr := (kids_iff_mem hrs).mpr (mem_sortByKey.mp hrmem)
    exact ih (l, r) ⟨hkl, hkr⟩ (hlistL.of_kids hkl) (hlistR.of_kids hkr) path delta

/-- Two hives are compared in finitely many steps when one of them has no cycle of keys. -/
theorem diffHives_ends {left right : Hive} (hl : left.SubkeysReturn) (hr : right.SubkeysReturn)
    (hcycle : left.NoKeyCycle ∨ right.NoKeyCycle) (leftLabel rightLabel : Str) :
    Exec.Ends fun n => diffHives n left right leftLabel rightLabel := by
  have hrec : ∀ l r delta, Exec.Grows fun n =>
      diffKeyRecursive left.reader right.reader n l r [] delta >>= fun delta =>
        (.ok ⟨leftLabel, rightLabel, delta.entries, delta.stats⟩ : Exec HiveError DiffResult) :=
    fun l r delta n => Exec.Refines.bind (diffKeyRecursive_refines _ _ n l r [] delta)
      fun _ => Exec.Refines.refl _
  simp only [diffHives]
  refine Exec.Ends.bind (Exec.grows_const _) (fun l n => ?_)
    (Exec.ends_const_iff.mpr left.rootKey_ne_timeout) fun _ l hrootL => ?_
  · exact Exec.Refines.bind (Exec.Refines.refl _) fun r => hrec l r _ n
  refine Exec.Ends.bind (Exec.grows_const _) (fun r => hrec l r _)
    (Exec.ends_const_iff.mpr right.rootKey_ne_timeout) fun _ r hrootR => ?_
  refine Exec.Ends.bind (fun n => diffKeyRecursive_refines _ _ n l r [] _)
    (fun _ => Exec.grows_const _) ?_ fun _ _ _ => ⟨0, by simp⟩
  have hacc : Acc (flip (PairKids left.reader right.reader)) (l, r) := by
    rcases hcycle with h | h
    · exact acc_pair_of_left _ (noCycleFrom_iff_acc.mp (h l hrootL)) r
    · exact acc_pair_of_right _ (noCycleFrom_iff_acc.mp (h r hrootR)) l
  exact diffKeyRecursive_ends left.reader right.reader left.readCellRaw_ne_timeout
    right.readCellRaw_ne_timeout hacc (hl l hrootL) (hr r hrootR) [] _

end Diff

/-! ## All traversals -/

/-- The whole-tree traversals of a hive end: draining either iterator, extracting its shell bags,
    and comparing it, on either side, with any accepted hive whose listings come back. -/
structure Hive.TraversalsEnd (hive : Hive) : Prop where
  bfs : Exec.Ends fun n => hive.iterBfs n
  dfs : Exec.Ends fun n => hive.iterDfs n
  shellbags : ∀ env, Exec.Ends fun n => ShellBags.parse env hive n
  diff : ∀ (data : Bytes) (other : Hive), Hive.fromBytes data = .ok other → other.SubkeysReturn →
    ∀ label otherLabel,
      (Exec.Ends fun n => Diff.diffHives n hive other label otherLabel) ∧
      (Exec.Ends fun n => Diff.diffHives n other hive otherLabel label)

/-- A whole iteration ends exactly when no cycle of keys can be reached. -/
theorem iter_ends_iff {hive : Hive} (hlist : hive.SubkeysReturn)
    {next : Nat → List Key → Exec HiveError IterStep} (h : TakesOne hive.reader next) :
    (Exec.Ends fun n => hive.rootKey >>= fun root => drain next n [root]) ↔ hive.NoKeyCycle := by
  cases hroot : hive.rootKey with
  | timeout => exact absurd hroot hive.rootKey_ne_timeout
  | err e => exact ⟨fun _ root hr => (by rw [hroot] at hr; cases hr), fun _ => ⟨0, by simp⟩⟩
  | panic => exact ⟨fun _ root hr => (by rw [hroot] at hr; cases hr), fun _ => ⟨0, by simp⟩⟩
  | ok root =>
    have hstart : ∀ k ∈ [root], ListingsReturn hive.reader k := by
      simpa using hlist root hroot
    simp only [Exec.ok_bind]
    rw [drain_ends_iff h hstart]
    constructor
    · intro hacc root' hr
      obtain rfl : root = root' := by rw [hroot] at hr; simpa using hr
      exact noCycleFrom_iff_acc.mpr (hacc root (by simp))
    · intro hcycle k hk
      rw [List.mem_singleton.mp hk]
      exact noCycleFrom_iff_acc.mp (hcycle root hroot)

/-- **When whole-tree traversals end**: exactly when no key in reach of the root lists itself or an
    ancestor.  Each traversal takes a key for its subkeys again and again: it ends where the
    relation of listed subkeys is well-founded, and in a file, with finitely many offsets, that is
    the absence of cycles. -/
theorem traversalsEnd_iff {hive : Hive} (hlist : hive.SubkeysReturn) :
    hive.TraversalsEnd ↔ hive.NoKeyCycle := by
  constructor
  · exact fun h => (iter_ends_iff hlist (BfsIter.takesOne hive.reader)).mp h.bfs
  · intro hcycle
    exact
      { bfs := (iter_ends_iff hlist (BfsIter.takesOne hive.reader)).mpr hcycle
        dfs := (iter_ends_iff hlist (DfsIter.takesOne hive.reader)).mpr hcycle
        shellbags := fun env => ShellBags.parse_ends env hlist hcycle
        diff := fun _ other _ hother label otherLabel =>
          ⟨Diff.diffHives_ends hlist hother (Or.inl hcycle) label otherLabel,
            Diff.diffHives_ends hother hlist (Or.inr hcycle) otherLabel label⟩ }

/-- Two cells: a root key that lists one subkey, and its `lh` index, which lists the root. -/
def selfListedCells : Bytes :=
  cellBytes (-80) (nkRecordBytes 0x20 1 112 0 0xFFFFFFFF []) ++
    cellBytes (-16) ([0x6C, 0x68] ++ u16Bytes 1 ++ u32Bytes 32 ++ u32Bytes 0)

/-- The hive of these cells and its root key. -/
def selfListedHive : Hive := oneBinHive 32 selfListedCells
/-- A root whose list of subkeys names the root. -/
def selfListedRoot : Key := ⟨nkRecord ⟨0x20⟩ 1 112 0 0xFFFFFFFF [], ⟨32⟩⟩

/-- The cells are read as the root and this list. -/
theorem selfListed_readCell :
    selfListedHive.reader.readCell ⟨32⟩ = .ok (.keyNode selfListedRoot.node) ∧
    selfListedHive.reader.readCell ⟨112⟩ = .ok (.index (.hashLeaf [⟨⟨32⟩, 0⟩])) := by
  constructor
  · exact Hive.readCell_oneBin 0 80 (by decide) rfl (by decide) (by decide)
      (by decide) (by decide)
  · exact Hive.readCell_oneBin 80 16 (by decide) rfl (by decide) (by decide)
      (by decide) (by decide)

/-- The root key is the root. -/
theorem selfListed_rootKey : selfListedHive.rootKey = .ok selfListedRoot :=
  Hive.rootKey_eq selfListed_readCell.1 rfl

/-- The root is its own and only subkey. -/
theorem selfListed_subkeys :
    Exec.Evals (fun n => selfListedRoot.subkeys selfListedHive.reader n)
      (.ok [selfListedRoot]) :=
  subkeys_of_listed ⟨by decide, by decide⟩ (.leaf selfListed_readCell.2 rfl)
    (.cons ⟨rfl, selfListed_readCell.1⟩ .nil)

/-- Each listing returns; it is the going down that does not end. -/
theorem selfListed_subkeysReturn : selfListedHive.SubkeysReturn := by
  intro root hroot
  obtain rfl : selfListedRoot = root := by rw [selfListed_rootKey] at hroot; simpa using hroot
  -- nothing but the root is in reach
  have honly : ∀ w, ReflTransGen (Kids selfListedHive.reader) selfListedRoot w →
      w = selfListedRoot := by
    intro w hw
    induction hw with
    | refl => rfl
    | tail _ hkid ih =>
      obtain ⟨children, hev, hmem⟩ := hkid
      rw [ih] at hev
      obtain rfl : [selfListedRoot] = children := by
        simpa using selfListed_subkeys.unique hev
      exact List.mem_singleton.mp hmem
  intro w hw
  rw [honly w hw]
  exact ⟨_, Or.inl ⟨_, rfl⟩, selfListed_subkeys⟩

/-- The root that lists itself has a key cycle, and no traversal of it ends. -/
theorem traversalsEnd_iff_self_listed : selfListedHive.TraversalsEnd ↔ selfListedHive.NoKeyCycle :=
  traversalsEnd_iff selfListed_subkeysReturn

/-- The hive opens, its only listing comes back, and neither iterator ever ends on it. -/
theorem iter_diverges_self_listed :
    Hive.fromBytes (oneBinImage 32 selfListedCells) = .ok selfListedHive ∧
    selfListedHive.SubkeysReturn ∧
    (Exec.Diverges fun n => selfListedHive.iterBfs n) ∧
    Exec.Diverges fun n => selfListedHive.iterDfs n := by
  have hcycle : ¬ selfListedHive.NoKeyCycle := fun h =>
    h selfListedRoot selfListed_rootKey selfListedRoot ReflTransGen.refl
      (TransGen.single ⟨_, selfListed_subkeys, by simp⟩)
  have hdiv : ∀ {next : Nat → List Key → Exec HiveError IterStep},
      TakesOne selfListedHive.reader next →
      Exec.Diverges fun n => selfListedHive.rootKey >>= fun root => drain next n [root] := by
    intro next htake
    by_contra hnot
    exact hcycle ((iter_ends_iff selfListed_subkeysReturn htake).mp
      (Exec.ends_iff_not_diverges.mpr hnot))
  exact ⟨Hive.fromBytes_oneBinImage (by decide), selfListed_subkeysReturn,
    hdiv (BfsIter.takesOne _), hdiv (DfsIter.takesOne _)⟩

end Winreg
