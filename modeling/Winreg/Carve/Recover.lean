/-
  CARVING: recover deleted keys and values from free cells and from slack.

  The walk goes through every cataloged bin, cell by cell.  A free cell is parsed as a record at its
  head and then swept for further record signatures; an allocated cell is only swept, from behind
  the two bytes where the signature of its live record stands.  The number of records and the
  number of bytes scanned are capped.

  Positions are file positions; a `usize` has 64 bits, so that sums of a position in the buffer and
  a cell or bin size do not overflow and the saturating additions are plain ones.
-/
import Winreg.Core.CellReader

namespace Winreg

open Rust

namespace Carve

/-- Hard cap on the number of recovered records. -/
def maxRecoveries : Nat := 100000

/-- Hard cap on the number of bytes scanned across all bins. -/
def maxScanBytes : Nat := 512 * 1024 * 1024

/-- Smallest plausible cell. -/
def minCellSize : Nat := 8

/-! ## Records -/

/-- Where a recovered record was found. -/
inductive RecoverySource where
  | unallocatedCell
  | slack
deriving DecidableEq, Repr

/-- Graded confidence that a carved record is a genuine deleted artifact. -/
inductive Confidence where
  | high
  | medium
  | low
deriving DecidableEq, Repr

/-- A recovered deleted key. -/
structure RecoveredKey where
  name : Str
  lastWritten : UInt64
  parentOffset : UInt32
  /-- File offset of the size field of the enclosing cell. -/
  fileOffset : UInt32
  allocated : Bool
  source : RecoverySource
  confidence : Confidence
deriving DecidableEq, Repr

/-- A recovered deleted value; its data only when it is stored in the record itself. -/
structure RecoveredValue where
  name : Str
  dataType : UInt32
  data : Bytes
  /-- File offset of the size field of the enclosing cell. -/
  fileOffset : UInt32
  allocated : Bool
  source : RecoverySource
  confidence : Confidence
deriving DecidableEq, Repr

/-- A single carved record. -/
inductive RecoveredCell where
  | key (k : RecoveredKey)
  | value (v : RecoveredValue)
deriving DecidableEq, Repr

/-- Where a record was found. -/
def RecoveredCell.fileOffset : RecoveredCell → UInt32
  | .key k => k.fileOffset
  | .value v => v.fileOffset

/-- Whether it is reported as lying in a cell in use. -/
def RecoveredCell.allocated : RecoveredCell → Bool
  | .key k => k.allocated
  | .value v => v.allocated

/-! ## Plausibility -/

/-- Structural sanity for a carved `nk`. -/
def nkIsPlausible (nk : RawKeyNode) : Bool :=
  0 < nk.keyNameLen && nk.keyNameLen.toNat ≤ 512 && nk.subkeyCount ≤ 1000000 &&
    nk.valueCount ≤ 1000000

/-- Structural sanity for a carved `vk`. -/
def vkIsPlausible (vk : RawKeyValue) : Bool :=
  vk.nameLen.toNat ≤ 512 && vk.dataSize ≤ 16 * 1024 * 1024

/-- Whether a decoded name looks like a registry name: no control characters, no U+FFFD. -/
def nameIsPlausible (name : Str) : Bool :=
  if name = [] ∨ utf8Len name > 1024 then false
  else name.all fun c => c ≠ replacementChar && (c = ' ' || !isControl c)

/-- Map a parsed type back to its raw number. -/
def valueTypeRaw : ValueType → UInt32
  | .none => 0
  | .sz => 1
  | .expandSz => 2
  | .binary => 3
  | .dword => 4
  | .dwordBigEndian => 5
  | .link => 6
  | .multiSz => 7
  | .resourceList => 8
  | .fullResourceDescriptor => 9
  | .resourceRequirementsList => 10
  | .qword => 11
  | .unknown n => n

/-- `u32::try_from(n).unwrap_or(u32::MAX)`. -/
def toU32OrMax (n : Nat) : UInt32 := if n < 2 ^ 32 then UInt32.ofNat n else 0xFFFFFFFF

/-- A record found in a free cell is intact; one found in slack may be partly overwritten. -/
def confidenceOf (source : RecoverySource) : Confidence :=
  if source = .unallocatedCell then .high else .medium

/-- A plausible `nk` as a recovered key. -/
def recoverKey (nk : RawKeyNode) (fileOffset : UInt32) (allocated : Bool)
    (source : RecoverySource) : Option RecoveredCell :=
  if !nkIsPlausible nk then none
  else
    let name := nk.keyName
    if !nameIsPlausible name then none
    else some (.key ⟨name, nk.lastWritten, nk.parent.val, fileOffset, allocated, source,
      confidenceOf source⟩)

/-- A plausible `vk` as a recovered value.  The name may be empty: the default value. -/
def recoverValue (vk : RawKeyValue) (fileOffset : UInt32) (allocated : Bool)
    (source : RecoverySource) : Option RecoveredCell :=
  if !vkIsPlausible vk then none
  else
    let name := vk.valueName
    if name ≠ [] ∧ !nameIsPlausible name then none
    else
      let data := if vk.isResident then vk.inlineData else []
      some (.value ⟨name, valueTypeRaw vk.dataType, data, fileOffset, allocated, source,
        confidenceOf source⟩)

/-- The record with this signature and these bytes after it. -/
def recordFrom (b0 b1 : UInt8) (afterSig : Bytes) (fileOffset : UInt32) (allocated : Bool)
    (source : RecoverySource) : Option RecoveredCell :=
  match CellSignature.fromBytes b0 b1 with
  | some .keyNode => do
    let nk ← RawKeyNode.parse afterSig
    recoverKey nk fileOffset allocated source
  | some .keyValue => do
    let vk ← RawKeyValue.parse afterSig
    recoverValue vk fileOffset allocated source
  | _ => none

/-- Attempt to parse the bytes at `bodyStart` as a deleted record. -/
def tryRecord (data : Bytes) (bodyStart regionEnd cellOffset : Nat) (allocated : Bool)
    (source : RecoverySource) : Exec HiveError (Option RecoveredCell) :=
  if bodyStart + 2 > regionEnd ∨ regionEnd > data.length then .ok none
  else do
    let b0 ← index data bodyStart
    let b1 ← index data (bodyStart + 1)
    match getRange data (bodyStart + 2) regionEnd with
    | none => .ok none
    | some afterSig =>
      let fileOffset := toU32OrMax cellOffset
      .ok (recordFrom b0 b1 afterSig fileOffset allocated source)

/-! ## Sweeping slack -/

/-- The signatures that the sweep looks for. -/
def isRecordSignature (b0 b1 : UInt8) : Bool :=
  match CellSignature.fromBytes b0 b1 with
  | some .keyNode => true
  | some .keyValue => true
  | _ => false

/-- A position and the records so far. -/
structure ScanState where
  pos : Nat
  out : List RecoveredCell

/-- One pass of the byte scan over `region`, which is `data[start..stop]`. -/
def scanSlackPass (data region : Bytes) (start stop : Nat) (s : ScanState) :
    Exec HiveError (Exec.Pass ScanState (List RecoveredCell)) :=
  if s.pos + 2 ≤ region.length ∧ s.out.length < maxRecoveries then do
    let b0 ← index region s.pos
    let b1 ← index region (s.pos + 1)
    if isRecordSignature b0 b1 then do
      let abs := start + s.pos
      let cellOff := abs - 4
      match ← tryRecord data abs stop cellOff false .slack with
      | some record => .ok (.again ⟨s.pos + 1, s.out ++ [record]⟩)
      | none => .ok (.again ⟨s.pos + 1, s.out⟩)
    else .ok (.again ⟨s.pos + 1, s.out⟩)
  else .ok (.leave s.out)

/-- Byte-scan `[start, stop)` for orphaned record signatures. -/
def scanSlack (data : Bytes) (start stop : Nat) (out : List RecoveredCell) :
    Exec HiveError (List RecoveredCell) :=
  if start ≥ stop ∨ stop > data.length then .ok out
  else do
    let region ← slice data start stop
    Exec.loop (scanSlackPass data region start stop) (region.length + 1) ⟨0, out⟩

/-! ## Walking cells and bins -/

/-- `read_i32`: a little-endian signed word, zero when it is not inside the buffer. -/
def readI32 (data : Bytes) (off : Nat) : Int :=
  match getRange data off (off + 4) with
  | some bytes => i32At bytes 0
  | none => 0

/-- One pass of the walk over the cells of a bin. -/
def scanBinPass (data : Bytes) (stop : Nat) (s : ScanState) :
    Exec HiveError (Exec.Pass ScanState (List RecoveredCell)) :=
  if s.pos + 4 ≤ stop ∧ s.out.length < maxRecoveries then
    let header : CellHeader := ⟨readI32 data s.pos⟩
    let cellSize := header.size
    if cellSize < minCellSize then .ok (.leave s.out)
    else
      let cellEnd := min (s.pos + cellSize) stop
      if header.isAllocated then do
        -- a live cell: sweep from behind its own signature
        let out ← scanSlack data (s.pos + 4 + 2) cellEnd s.out
        .ok (.again ⟨s.pos + cellSize, out⟩)
      else do
        let bodyStart := s.pos + 4
        let head ← tryRecord data bodyStart cellEnd s.pos false .unallocatedCell
        let sweepFrom := if head.isSome then bodyStart + 2 else bodyStart
        let out ← scanSlack data sweepFrom cellEnd (s.out ++ head.toList)
        .ok (.again ⟨s.pos + cellSize, out⟩)
  else .ok (.leave s.out)

/-- Walk the cell chain of one bin.  Every pass that goes round again advances by a cell, so the
    length of the buffer bounds the number of passes. -/
def scanBin (data : Bytes) (start stop : Nat) (out : List RecoveredCell) :
    Exec HiveError (List RecoveredCell) :=
  Exec.loop (scanBinPass data stop) (data.length + 1) ⟨start, out⟩

/-- The end of the cells of a bin: the end of the bin or of the buffer. -/
def binEnd (data : Bytes) (bin : HbinDescriptor) : Nat :=
  min (bin.fileOffset + bin.size.toNat) data.length

/-- The loop over the bins, with the bytes scanned and the records so far. -/
def scanBins (data : Bytes) : List HbinDescriptor → Nat → List RecoveredCell →
    Exec HiveError (List RecoveredCell)
  | [], _, out => .ok out
  | bin :: bins, scanned, out =>
    if out.length ≥ maxRecoveries ∨ scanned ≥ maxScanBytes then .ok out
    else
      let cellsStart := bin.fileOffset + 32
      let stop := binEnd data bin
      if cellsStart ≥ stop then scanBins data bins scanned out
      else do
        let out ← scanBin data cellsStart stop out
        scanBins data bins (scanned + (stop - cellsStart)) out

/-- Carve a hive for deleted keys and values. -/
def recoverDeleted (hive : Hive) : Exec HiveError (List RecoveredCell) :=
  scanBins hive.rawBytes hive.bins 0 []

end Carve

end Winreg
