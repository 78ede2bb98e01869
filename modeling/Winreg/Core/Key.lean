/-
  KEYS: navigating from a key to its subkeys and values.

  The subkeys of a key are listed by an index cell; an `ri` index lists further indices, which are
  followed recursively.  That recursion has no bound in the source, so `collectSubkeyOffsets`
  takes a budget; `subkeys` and everything above it takes the same budget.
-/
import Winreg.Core.Value

namespace Winreg

open Rust

/-- A registry key: its parsed `nk` cell and the offset of that cell. -/
structure Key where
  node : RawKeyNode
  offset : CellOffset
deriving DecidableEq, Repr

namespace Key

/-- Mint a key from a cell offset: the cell there has to be an `nk`. -/
def fromCellOffset (r : CellReader) (offset : CellOffset) : Exec HiveError Key := do
  match ← r.readCell offset with
  | .keyNode node => .ok ⟨node, offset⟩
  | _ => .err (.invalidCellSignature offset "nk (root key node)" 0 0)

/-- The name of the key, as its record spells it. -/
def name (k : Key) : Str := k.node.keyName

/-- The time stamp of the record. -/
def lastWrittenRaw (k : Key) : UInt64 := k.node.lastWritten

/-- The key offsets listed by an index cell; `ri` indices are followed in order. -/
def collectSubkeyOffsets (r : CellReader) : Nat → CellOffset → Exec HiveError (List CellOffset)
  | 0, _ => .timeout
  | n + 1, indexOffset => do
    match ← r.readCell indexOffset with
    | .index (.hashLeaf elements) => .ok (elements.map (·.keyOffset))
    | .index (.fastLeaf elements) => .ok (elements.map (·.keyOffset))
    | .index (.indexLeaf offsets) => .ok offsets
    | .index (.rootIndex subIndices) =>
      subIndices.foldlM (fun all sub => do
        let more ← collectSubkeyOffsets r n sub
        .ok (all ++ more)) []
    | _ => .ok []

/-- Read one listed cell; anything but an `nk` is skipped. -/
def pushKey (r : CellReader) (keys : List Key) (offset : CellOffset) :
    Exec HiveError (List Key) := do
  match ← r.readCell offset with
  | .keyNode nk => .ok (keys ++ [⟨nk, offset⟩])
  | _ => .ok keys

/-- The subkeys of a key, in index order. -/
def subkeys (r : CellReader) (n : Nat) (k : Key) : Exec HiveError (List Key) :=
  if k.node.subkeyCount = 0 ∨ k.node.subkeysListOffset.isNull then .ok []
  else do
    let offsets ← collectSubkeyOffsets r n k.node.subkeysListOffset
    offsets.foldlM (pushKey r) []

/-- The first subkey whose name equals `name`, ASCII case ignored. -/
def subkey (r : CellReader) (n : Nat) (k : Key) (name : Str) : Exec HiveError (Option Key) := do
  let target := toAsciiUppercase name
  let keys ← k.subkeys r n
  .ok (keys.find? fun key => toAsciiUppercase key.name = target)

/-- `path.split('\\')` without the empty parts. -/
def pathParts (path : Str) : List Str := (path.splitOn '\\').filter (· ≠ [])

/-- Descend one level per part; `none` where a part has no subkey. -/
def descend (r : CellReader) (n : Nat) : Key → List Str → Exec HiveError (Option Key)
  | current, [] => .ok (some current)
  | current, part :: rest => do
    match ← current.subkey r n part with
    | none => .ok none
    | some next => descend r n next rest

/-- Walk a backslash-separated path from a key; an empty path gives `none`. -/
def subkeyPath (r : CellReader) (n : Nat) (k : Key) (path : Str) :
    Exec HiveError (Option Key) :=
  match pathParts path with
  | [] => .ok none
  | parts => descend r n k parts

/-- One pass over entry `i` of a values list. -/
def readValueEntry (r : CellReader) (body : Bytes) (i : Nat) (values : List Value) :
    Exec HiveError (Exec.Pass (List Value) (List Value)) :=
  let base := i * 4
  if base + 4 > body.length then .ok (.leave values)
  else do
    let vkOffset : CellOffset := ⟨leU32 body base⟩
    match ← r.readCell vkOffset with
    | .keyValue vk => .ok (.again (values ++ [⟨vk, vkOffset⟩]))
    | _ => .ok (.again values)

/-- The values of a key, in list order. -/
def values (r : CellReader) (k : Key) : Exec HiveError (List Value) :=
  if k.node.valueCount = 0 ∨ k.node.valuesListOffset.isNull then .ok []
  else do
    let (_, body) ← r.readCellRaw k.node.valuesListOffset
    let count := k.node.valueCount.toNat
    Exec.forRange (readValueEntry r body) count 0 []

/-- The first value whose name equals `name`, ASCII case ignored. -/
def value (r : CellReader) (k : Key) (name : Str) : Exec HiveError (Option Value) := do
  let target := toAsciiUppercase name
  let vals ← k.values r
  .ok (vals.find? fun v => toAsciiUppercase v.name = target)

end Key

namespace Hive

/-- The root key: the cell that the header names. -/
def rootKey (hive : Hive) : Exec HiveError Key :=
  Key.fromCellOffset hive.reader hive.rootCellOffset

/-- Open a key by its path from the root. -/
def openKey (hive : Hive) (n : Nat) (path : Str) : Exec HiveError (Option Key) := do
  let root ← hive.rootKey
  root.subkeyPath hive.reader n path

end Hive

/-- The first of some paths that opens. -/
def Hive.openFirst (hive : Hive) (n : Nat) : List Str → Exec HiveError (Option Key)
  | [] => .ok none
  | path :: paths => do
    match ← (hive.openKey n path).attempt with
    | .ok (some key) => .ok (some key)
    | _ => hive.openFirst n paths

/-! ## Which faults a key avoids -/

/-- A pass over a values list avoids a fault that the read of its cell avoids. -/
theorem Key.readValueEntry_avoids {r : CellReader} {fault : Exec.Fault}
    (h : ∀ o, (r.readCellRaw o).Avoids fault) (body : Bytes) (i : Nat) (values : List Value) :
    (readValueEntry r body i values).Avoids fault := by
  unfold readValueEntry
  dsimp only
  split
  · exact .ok _
  · refine .bind (r.readCell_avoids (h _)) fun cell _ => ?_
    split <;> exact .ok _

/-- **Listing the values of a key** avoids a fault that cell reads avoid. -/
theorem Key.values_avoids {r : CellReader} {fault : Exec.Fault}
    (h : ∀ o, (r.readCellRaw o).Avoids fault) (k : Key) : (k.values r).Avoids fault := by
  unfold values
  split
  · exact .ok _
  · exact .bind (h _) fun cell _ => Exec.forRange_avoids (readValueEntry_avoids h _) _ _ _

end Winreg
