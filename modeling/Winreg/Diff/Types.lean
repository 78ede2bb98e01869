/-
  DIFF TYPES and value snapshots.

  A diff is a list of entries, one for a key that was added, removed or has other values, and six
  counters.  A value is recorded by its snapshot: the name of its type, its raw bytes, and a text
  that depends on the type.
-/
import Winreg.Core.Key

namespace Winreg

open Rust

/-! ## Results -/

/-- A registry value at a point in time. -/
structure ValueSnapshot where
  dataType : Str
  display : Str
  raw : Bytes
deriving DecidableEq, Repr

/-- What has become of a value, with its data on the sides that have it. -/
inductive ValueDiffKind where
  | added (value : ValueSnapshot)
  | removed (value : ValueSnapshot)
  | changed (left right : ValueSnapshot)
deriving DecidableEq, Repr

/-- A single value-level change. -/
structure ValueDiff where
  name : Str
  kind : ValueDiffKind
deriving DecidableEq, Repr

/-- What has become of a key. -/
inductive DiffKind where
  | keyAdded
  | keyRemoved
  | keyModified
deriving DecidableEq, Repr

/-- A single key-level change. -/
structure DiffEntry where
  path : Str
  kind : DiffKind
  details : List ValueDiff
deriving DecidableEq, Repr

/-- Aggregate counts of changes. -/
structure DiffStats where
  keysAdded : Nat := 0
  keysRemoved : Nat := 0
  keysModified : Nat := 0
  valuesAdded : Nat := 0
  valuesRemoved : Nat := 0
  valuesChanged : Nat := 0
deriving DecidableEq, Repr

/-- Complete result of comparing two hives. -/
structure DiffResult where
  leftLabel : Str
  rightLabel : Str
  entries : List DiffEntry
  stats : DiffStats
deriving DecidableEq, Repr

/-! ## Snapshots -/

/-- `format!("[{} bytes]", raw.len())`. -/
def byteCount (raw : Bytes) : Str := '[' :: ((Nat.repr raw.length).toList ++ " bytes]".toList)

/-- `x.unwrap_or_else(|_| "<decode error>".into())`. -/
def orDecodeError (x : Exec HiveError Str) : Exec HiveError Str :=
  x.unwrapOr "<decode error>".toList

/-- The text of a value whose type is not one of the string types. -/
def formatRaw (dataType : ValueType) (raw : Bytes) : Str :=
  match dataType with
  | .dword =>
    if raw.length ≥ 4 then "0x".toList ++ hexUpper 8 (fromLe (bytesAt raw 0 4)) else byteCount raw
  | .dwordBigEndian =>
    if raw.length ≥ 4 then "0x".toList ++ hexUpper 8 (fromLe (bytesAt raw 0 4).reverse)
    else byteCount raw
  | .qword =>
    if raw.length ≥ 8 then "0x".toList ++ hexUpper 16 (fromLe (bytesAt raw 0 8)) else byteCount raw
  | _ =>
    if raw.length ≤ 16 then List.intercalate " ".toList (raw.map fun b => hexUpper 2 b.toNat)
    else byteCount raw

/-- The text of a value, by its type; a string type is read and decoded once more. -/
def formatValue (r : CellReader) (dataType : ValueType) (raw : Bytes) (val : Value) :
    Exec HiveError Str :=
  match dataType with
  | .sz | .expandSz => orDecodeError (val.asString r)
  | .multiSz => orDecodeError do
    let strings ← val.asMultiString r
    .ok (List.intercalate " | ".toList strings)
  | _ => .ok (formatRaw dataType raw)

/-- Capture a value for comparison. -/
def valueToSnapshot (r : CellReader) (val : Value) : Exec HiveError ValueSnapshot := do
  let raw ← (val.rawData r).unwrapOr []
  let dataType := val.dataType
  let display ← formatValue r dataType raw val
  .ok ⟨dataType.name, display, raw⟩

end Winreg
