/-
  DIFF ENGINE: compare two hives by a merge join at every level.

  At each pair of keys the values and then the subkeys of both sides are sorted by name, ASCII case
  ignored, and merge-joined.  Values without a counterpart and values with other data are recorded
  in one entry of the key; a subkey without a counterpart gets an entry of its own, and a pair of
  subkeys is compared recursively.  The recursion follows the subkeys of both sides at once, with
  no bound and no set of visited keys, so it takes a budget.
-/
import Winreg.Base.MergeJoin
import Winreg.Core.Iter
import Winreg.Diff.Types

namespace Winreg

open Rust Relation

namespace Diff

/-- The entries and counters built up so far (`&mut entries`, `&mut stats`). -/
structure Delta where
  entries : List DiffEntry
  stats : DiffStats
deriving DecidableEq, Repr

/-- A child path from the current path and a key name. -/
def childPath (current name : Str) : Str :=
  if current = [] then name else current ++ '\\' :: name

/-- The name by which keys are sorted and joined. -/
def keyOrder (key : Key) : Str := toAsciiUppercase key.name

/-- The name by which values are sorted and joined. -/
def valueOrder (val : Value) : Str := toAsciiUppercase val.name

/-- What the comparison of two values of one name records. -/
def diffValue (rl rr : CellReader) (diffs : List ValueDiff) (l r : Value) :
    Exec HiveError (List ValueDiff) := do
  let leftRaw ← (l.rawData rl).unwrapOr []
  let rightRaw ← (r.rawData rr).unwrapOr []
  if leftRaw ≠ rightRaw ∨ l.dataType ≠ r.dataType then do
    let left ← valueToSnapshot rl l
    let right ← valueToSnapshot rr r
    .ok (diffs ++ [⟨l.name, .changed left right⟩])
  else .ok diffs

/-- Values found on one side only. -/
def valueHandlers (rl rr : CellReader) : Handlers HiveError (List ValueDiff) Value Value where
  onBoth := diffValue rl rr
  onLeft diffs l := do
    let value ← valueToSnapshot rl l
    .ok (diffs ++ [⟨l.name, .removed value⟩])
  onRight diffs r := do
    let value ← valueToSnapshot rr r
    .ok (diffs ++ [⟨r.name, .added value⟩])

/-- Compare the values of two keys. -/
def diffValues (rl rr : CellReader) (left right : Key) : Exec HiveError (List ValueDiff) := do
  let leftVals ← left.values rl
  let rightVals ← right.values rr
  mergeJoin valueOrder valueOrder (valueHandlers rl rr)
    (sortByKey valueOrder leftVals) (sortByKey valueOrder rightVals) []

/-- Count one value-level change. -/
def countValueDiff (stats : DiffStats) (vd : ValueDiff) : DiffStats :=
  match vd.kind with
  | .added _ => { stats with valuesAdded := stats.valuesAdded + 1 }
  | .removed _ => { stats with valuesRemoved := stats.valuesRemoved + 1 }
  | .changed _ _ => { stats with valuesChanged := stats.valuesChanged + 1 }

/-- Record the value changes of a key, if there are any. -/
def recordValueDiffs (left : Key) (currentPath : Str) (delta : Delta)
    (valueDiffs : List ValueDiff) : Delta :=
  if valueDiffs ≠ [] then
    let path := if currentPath = [] then left.name else currentPath
    let stats := valueDiffs.foldl countValueDiff delta.stats
    ⟨delta.entries ++ [⟨path, .keyModified, valueDiffs⟩],
      { stats with keysModified := stats.keysModified + 1 }⟩
  else delta

/-- Record a key found on the left only. -/
def recordRemoved (currentPath : Str) (delta : Delta) (key : Key) : Delta :=
  ⟨delta.entries ++ [⟨childPath currentPath key.name, .keyRemoved, []⟩],
    { delta.stats with keysRemoved := delta.stats.keysRemoved + 1 }⟩

/-- Record a key found on the right only. -/
def recordAdded (currentPath : Str) (delta : Delta) (key : Key) : Delta :=
  ⟨delta.entries ++ [⟨childPath currentPath key.name, .keyAdded, []⟩],
    { delta.stats with keysAdded := delta.stats.keysAdded + 1 }⟩

/-- Merge-join two sorted subkey lists; pairs go to `recurse`. -/
def mergeJoinSubkeys (recurse : Key → Key → Str → Delta → Exec HiveError Delta)
    (leftSorted rightSorted : List Key) (currentPath : Str) (delta : Delta) :
    Exec HiveError Delta :=
  mergeJoin keyOrder keyOrder
    { onBoth := fun delta l r => recurse l r (childPath currentPath l.name) delta
      onLeft := fun delta l => .ok (recordRemoved currentPath delta l)
      onRight := fun delta r => .ok (recordAdded currentPath delta r) }
    leftSorted rightSorted delta

/-- Compare two keys and their subtrees. -/
def diffKeyRecursive (rl rr : CellReader) : Nat → Key → Key → Str → Delta → Exec HiveError Delta
  | 0, _, _, _, _ => .timeout
  | n + 1, left, right, currentPath, delta => do
    let valueDiffs ← diffValues rl rr left right
    let delta := recordValueDiffs left currentPath delta valueDiffs
    let leftSubkeys ← left.subkeys rl n
    let rightSubkeys ← right.subkeys rr n
    mergeJoinSubkeys (diffKeyRecursive rl rr n) (sortByKey keyOrder leftSubkeys)
      (sortByKey keyOrder rightSubkeys) currentPath delta

/-- Compare two hives. -/
def diffHives (n : Nat) (left right : Hive) (leftLabel rightLabel : Str) :
    Exec HiveError DiffResult := do
  let leftRoot ← left.rootKey
  let rightRoot ← right.rootKey
  let delta ← diffKeyRecursive left.reader right.reader n leftRoot rightRoot [] ⟨[], {}⟩
  .ok ⟨leftLabel, rightLabel, delta.entries, delta.stats⟩

/-! ## Budget -/

/-- A better-informed comparison of the common subkeys gives a better-informed merge: the merge
    looks at the comparison only through its result. -/
theorem mergeJoinSubkeys_refines {f g : Key → Key → Str → Delta → Exec HiveError Delta}
    (h : ∀ l r path delta, Exec.Refines (f l r path delta) (g l r path delta)) (ls rs : List Key)
    (path : Str) (delta : Delta) :
    Exec.Refines (mergeJoinSubkeys f ls rs path delta) (mergeJoinSubkeys g ls rs path delta) := by
  unfold mergeJoinSubkeys
  rw [mergeJoin_eq, mergeJoin_eq]
  refine Exec.Refines.foldlM (fun delta x => ?_) _ _
  cases x with
  | left l => exact Exec.Refines.refl _
  | right r => exact Exec.Refines.refl _
  | both l r => exact h l r _ delta

/-- More fuel never changes a result that was there.  By induction on the fuel, with the merge of
    the subkeys as the step. -/
theorem diffKeyRecursive_refines (rl rr : CellReader) (n : Nat) :
    ∀ l r path delta, Exec.Refines (diffKeyRecursive rl rr n l r path delta)
      (diffKeyRecursive rl rr (n + 1) l r path delta) := by
  induction n with
  | zero => exact fun _ _ _ _ => Or.inl rfl
  | succ n ih =>
    intro l r path delta
    exact Exec.Refines.bind (Exec.Refines.refl _) fun diffs =>
      Exec.Refines.bind (subkeys_grows l n) fun ls =>
        Exec.Refines.bind (subkeys_grows r n) fun rs => mergeJoinSubkeys_refines ih _ _ _ _

/-- A comparison of two hives grows with its budget. -/
theorem diffHives_grows (left right : Hive) (leftLabel rightLabel : Str) :
    Exec.Grows fun n => diffHives n left right leftLabel rightLabel := fun n =>
  Exec.Refines.bind (Exec.Refines.refl _) fun l => Exec.Refines.bind (Exec.Refines.refl _) fun r =>
    Exec.Refines.bind (diffKeyRecursive_refines _ _ n l r _ _) fun _ => Exec.Refines.refl _

end Diff

end Winreg
