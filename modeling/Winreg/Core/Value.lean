/-
  VALUES: the raw data of a registry value and its decodings.

  Data of at most four bytes may sit in the `vk` cell itself (resident); up to 16344 bytes sit in
  one data cell; larger data in a `db` record: a list of segment cells that are read in order
  until the declared size is reached, the list ends, or a segment cannot be read.
-/
import Winreg.Core.CellReader

namespace Winreg

open Rust

/-- A registry value: its parsed `vk` cell and the offset of that cell.  The reader it borrows is
    an argument of the functions that read through it. -/
structure Value where
  vk : RawKeyValue
  offset : CellOffset
deriving DecidableEq, Repr

/-- Values larger than this are stored as a `db` record. -/
def bigDataThreshold : Nat := 16344

/-- Maximum bytes contributed by one segment cell. -/
def bigDataSegmentSize : Nat := 16344

/-- UTF-16LE bytes up to the first NUL. -/
def decodeUtf16le (data : Bytes) : Str :=
  fromUtf16Lossy ((utf16Units data).takeWhile (· ≠ 0))

/-- The loop of `decodeMultiSz` over the units from index `i` on; the state is the start of the
    current string and the strings so far.  An empty string ends the loop. -/
def splitMultiSz (u16s : List UInt16) : List UInt16 → Nat → Nat → List Str → Nat × List Str
  | [], _, start, strings => (start, strings)
  | ch :: rest, i, start, strings =>
    if ch = 0 then
      if i = start then (start, strings)
      else splitMultiSz u16s rest (i + 1) (i + 1)
        (strings ++ [fromUtf16Lossy ((u16s.drop start).take (i - start))])
    else splitMultiSz u16s rest (i + 1) start strings

/-- NUL-terminated UTF-16LE strings up to an empty one; a last string without a terminator
    counts. -/
def decodeMultiSz (data : Bytes) : List Str :=
  let u16s := utf16Units data
  let (start, strings) := splitMultiSz u16s u16s 0 0 []
  if start < u16s.length then
    let remaining := (u16s.drop start).takeWhile (· ≠ 0)
    if remaining ≠ [] then strings ++ [fromUtf16Lossy remaining] else strings
  else strings

namespace Value

/-- The name of the value; it is empty for the default value. -/
def name (v : Value) : Str := v.vk.valueName

/-- The type of its data. -/
def dataType (v : Value) : ValueType := v.vk.dataType

/-- The size field without the resident bit. -/
def dataSize (v : Value) : UInt32 := v.vk.dataSize

/-- The data stands in the record itself. -/
def isResident (v : Value) : Bool := v.vk.isResident

/-- One pass over segment `i` of a `db` record. -/
def readSegment (r : CellReader) (listBody : Bytes) (size i : Nat) (out : Bytes) :
    Exec HiveError (Exec.Pass Bytes Bytes) :=
  if out.length ≥ size then .ok (.leave out)
  else
    match getRange listBody (i * 4) (i * 4 + 4) with
    | none => .ok (.leave out)
    | some offBytes => do
      let segOff : CellOffset := ⟨u32At offBytes 0⟩
      match ← (r.readCellRaw segOff).attempt with
      | .error _ => .ok (.leave out)
      | .ok (_, segBody) =>
        let take := min (min (size - out.length) bigDataSegmentSize) segBody.length
        let segment ← slice segBody 0 take
        .ok (.again (out ++ segment))

/-- Reassemble a `db` record into its `size`-byte value. -/
def readBigData (r : CellReader) (dbOffset : CellOffset) (size : Nat) :
    Exec HiveError Bytes := do
  let (_, dbBody) ← r.readCellRaw dbOffset
  if dbBody.length < 8 ∨ bytesAt dbBody 0 2 ≠ [0x64, 0x62] then
    -- not a `db` record: what is there, rather than an error
    slice dbBody 0 (min size dbBody.length)
  else do
    let segmentCount := (u16At dbBody 2).toNat
    let listOffset : CellOffset := ⟨u32At dbBody 4⟩
    let (_, listBody) ← r.readCellRaw listOffset
    Exec.forRange (readSegment r listBody size) segmentCount 0 []

/-- Read the raw data bytes of a value. -/
def rawData (r : CellReader) (v : Value) : Exec HiveError Bytes :=
  let size := v.vk.dataSize.toNat
  if size = 0 then .ok []
  else if v.vk.isResident then .ok v.vk.inlineData
  else
    let dataOffset := v.vk.dataOffset
    if size > bigDataThreshold then readBigData r dataOffset size
    else do
      let (_, body) ← r.readCellRaw dataOffset
      slice body 0 (min size body.length)

/-- Decode as a 32-bit number; shorter data gives zero. -/
def asU32 (r : CellReader) (v : Value) : Exec HiveError UInt32 := do
  let data ← v.rawData r
  .ok (if data.length < 4 then 0 else u32At data 0)

/-- Decode as a big-endian 32-bit number; shorter data gives zero. -/
def asU32Be (r : CellReader) (v : Value) : Exec HiveError UInt32 := do
  let data ← v.rawData r
  .ok (if data.length < 4 then 0 else u32At (bytesAt data 0 4).reverse 0)

/-- Decode as a 64-bit number; shorter data gives zero. -/
def asU64 (r : CellReader) (v : Value) : Exec HiveError UInt64 := do
  let data ← v.rawData r
  .ok (if data.length < 8 then 0 else u64At data 0)

/-- Decode as a string. -/
def asString (r : CellReader) (v : Value) : Exec HiveError Str := do
  let data ← rawData r v
  .ok (decodeUtf16le data)

/-- Decode as a multi-string. -/
def asMultiString (r : CellReader) (v : Value) : Exec HiveError (List Str) := do
  let data ← rawData r v
  .ok (decodeMultiSz data)

end Value

/-! ## Which faults a value avoids -/

/-- Taking at most all bytes of a buffer is always in range. -/
theorem slice_min_returns (body : Bytes) {n : Nat} (h : n ≤ body.length) :
    (slice body 0 n : Exec HiveError Bytes).Returns :=
  Or.inl ⟨_, slice_eq_ok (Nat.zero_le _) h⟩

/-- A pass over a segment avoids a fault that the read of its cell avoids. -/
theorem Value.readSegment_avoids {r : CellReader} {fault : Exec.Fault}
    (h : ∀ o, (r.readCellRaw o).Avoids fault) (listBody : Bytes) (size i : Nat) (out : Bytes) :
    (readSegment r listBody size i out).Avoids fault := by
  unfold readSegment
  split
  · exact .ok _
  · split
    · exact .ok _
    · refine .bind (h _).attempt fun x _ => ?_
      cases x with
      | error e => exact .ok _
      | ok cell =>
        refine .bind ((slice_min_returns _ ?_).avoids fault) fun segment _ => .ok _
        exact Nat.min_le_right _ _

/-- **Reading the data of a value** avoids a fault that cell reads avoid. -/
theorem Value.rawData_avoids {r : CellReader} {fault : Exec.Fault}
    (h : ∀ o, (r.readCellRaw o).Avoids fault) (v : Value) : (rawData r v).Avoids fault := by
  unfold rawData
  dsimp only
  split
  · exact .ok _
  · split
    · exact .ok _
    · split
      · refine .bind (h _) fun db _ => ?_
        dsimp only
        split
        · exact (slice_min_returns _ (Nat.min_le_right _ _)).avoids fault
        · exact .bind (h _) fun list _ => Exec.forRange_avoids (readSegment_avoids h _ _) _ _ _
      · exact .bind (h _) fun cell _ => (slice_min_returns _ (Nat.min_le_right _ _)).avoids fault

end Winreg
