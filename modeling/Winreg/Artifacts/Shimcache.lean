/-
  SHIMCACHE: the entries of the `AppCompatCache` blob of a SYSTEM hive.

  The blob is looked for in the control set that the live registry calls `CurrentControlSet`, in the
  one that `Select\Current` names, and in `ControlSet001`, in that order.  What it looks like is told
  from its first bytes, or from the marker behind the header of the Windows 8 layout; a blob of no
  known form gives one entry without a path.

  The offsets and markers of the layouts are constants of another package.
-/
import Winreg.Artifacts.PathExpansion
import Winreg.Core.Detect

namespace Winreg

open Rust

namespace Shimcache

open PathExpansion

/-! ## Constants of the format -/

/-- The two lengths that the header of Windows 10 can have. -/
def win10HeaderLen1507 : UInt32 := 0x30
def win10HeaderLen1607 : UInt32 := 0x34
/-- Where the entries of Windows 8 start. -/
def win8xEntryStreamOffset : Nat := 128
/-- The mark, a hash and the length in front of the body. -/
def entryFramingLen : Nat := 12
def win10PathToFiletime : Nat := 0
def win8xPathToFiletimeFixed : Nat := 8
/-- `00ts`. -/
def entryMarkerWin80 : Bytes := [0x30, 0x30, 0x74, 0x73]
/-- `10ts`. -/
def entryMarkerWin81Win10 : Bytes := [0x31, 0x30, 0x74, 0x73]
def entryMarkerWin81Win10U32 : UInt32 := u32At entryMarkerWin81Win10 0
def win8HeaderSig : UInt8 := 0x80

/-! ## Entries -/

/-- A single entry of the cache. -/
structure ShimcacheEntry where
  path : Str
  lastModified : Option Str
  rawSize : Nat
  entryIndex : Nat
deriving DecidableEq, Repr

/-- The layouts of the body: what stands between path and time. -/
inductive EntryBodyLayout where
  | win10
  | win8x
deriving DecidableEq, Repr

variable {Timestamp : Type} (jiff : Jiff Timestamp)

/-- A FILETIME as text. -/
def formatFiletime (filetime : UInt64) : Option Str :=
  (filetimeToDatetime jiff filetime).bind jiff.format

/-- Where the FILETIME of an entry is. -/
def filetimeOffset (body : Bytes) (layout : EntryBodyLayout) (pathEnd : Nat) : Option Nat :=
  match layout with
  | .win10 => some (pathEnd + win10PathToFiletime)
  | .win8x =>
    if pathEnd + 2 ≤ body.length then
      some (pathEnd + (2 + (u16At body pathEnd).toNat + win8xPathToFiletimeFixed))
    else none

/-- Decode the body of an entry. -/
def decodeWin10EntryBody (body : Bytes) (layout : EntryBodyLayout) : Str × Option Str :=
  if body.length < 2 then ([], none)
  else
    let pathSize := (u16At body 0).toNat
    let pathEnd := 2 + pathSize
    let path :=
      if pathSize > 0 ∧ pathEnd ≤ body.length then decodeUtf16le (bytesAt body 2 pathSize) else []
    let lastModified := ((filetimeOffset body layout pathEnd).filter fun o =>
      o + 8 ≤ body.length).bind fun o => formatFiletime jiff (u64At body o)
    (path, lastModified)

/-- Parse a stream of entries from an offset on. -/
def parseWin10Entries (blob : Bytes) (entrySig : Bytes) (layout : EntryBodyLayout)
    (offset entryIndex : Nat) : List ShimcacheEntry :=
  if h : offset + entryFramingLen ≤ blob.length then
    if bytesAt blob offset 4 ≠ entrySig then []
    else
      let bodyStart := offset + entryFramingLen
      let bodyEnd := bodyStart + (u32At blob (offset + 8)).toNat
      if bodyEnd ≤ blob.length then
        let decoded :=
          decodeWin10EntryBody jiff (bytesAt blob bodyStart (bodyEnd - bodyStart)) layout
        ⟨decoded.1, decoded.2, blob.length, entryIndex⟩ ::
          parseWin10Entries blob entrySig layout bodyEnd (entryIndex + 1)
      else []
  else []
termination_by blob.length - offset
decreasing_by
  simp only [entryFramingLen] at h ⊢
  omega

/-- Decode the body of an entry behind a header without a marker. -/
def decodeEntryBody (body : Bytes) : Str × Option Str :=
  if body.length < 2 then ([], none)
  else
    let pathLen := (u16At body 0).toNat
    let lastModified := if body.length ≥ 16 then formatFiletime jiff (u64At body 8) else none
    let path :=
      if pathLen = 0 ∨ body.length < 18 then []
      else
        let pathOffset := (u16At body 16).toNat
        if pathOffset < body.length ∧ pathOffset + pathLen ≤ body.length then
          decodeUtf16le (bytesAt body pathOffset pathLen)
        else []
    (path, lastModified)

/-- The entries behind a header without a marker, from an offset on. -/
def legacyEntries (blob : Bytes) : Nat → Nat → Nat → List ShimcacheEntry
  | 0, _, _ => []
  | left + 1, offset, entryIndex =>
    if offset + 8 ≤ blob.length then
      if u32At blob offset ≠ entryMarkerWin81Win10U32 then []
      else
        let bodyStart := offset + 8
        let bodyEnd := bodyStart + (u32At blob (offset + 4)).toNat
        if bodyEnd > blob.length then []
        else
          let decoded := decodeEntryBody jiff (bytesAt blob bodyStart (bodyEnd - bodyStart))
          ⟨decoded.1, decoded.2, blob.length, entryIndex⟩ ::
            legacyEntries blob left bodyEnd (entryIndex + 1)
    else []

/-- Parse a blob with a header without a marker: the header says how many entries there are. -/
def parseWin10 (blob : Bytes) : List ShimcacheEntry :=
  if blob.length < 128 then []
  else legacyEntries jiff blob (u32At blob 4).toNat 128 0

/-- The position of the first marker. -/
def findMarker : Bytes → Option Nat
  | [] => none
  | b :: rest =>
    if (b :: rest).take 4 = entryMarkerWin81Win10 then some 0 else (findMarker rest).map (· + 1)

/-- The entries of a blob. -/
def parseBlob (blob : Bytes) : List ShimcacheEntry :=
  if blob.length < 4 then []
  else
    let sig := u32At blob 0
    let marker := bytesAt blob win8xEntryStreamOffset 4
    if sig = win10HeaderLen1507 ∨ sig = win10HeaderLen1607 then
      parseWin10Entries jiff blob entryMarkerWin81Win10 .win10 sig.toNat 0
    else if sig = entryMarkerWin81Win10U32 then
      parseWin10Entries jiff blob entryMarkerWin81Win10 .win10 0 0
    else if blob.length ≥ win8xEntryStreamOffset + 4 ∧
        (marker = entryMarkerWin80 ∨ marker = entryMarkerWin81Win10) then
      parseWin10Entries jiff blob marker .win8x win8xEntryStreamOffset 0
    else if blob.head? = some win8HeaderSig then parseWin10 jiff blob
    else
      match findMarker blob with
      | some pos => parseWin10Entries jiff blob entryMarkerWin81Win10 .win10 pos 0
      | none => [⟨[], none, blob.length, 0⟩]

/-! ## The hive -/

/-- Key path below a control set. -/
def appcompatSuffix : Str := "Control\\Session Manager\\AppCompatCache".toList

/-- The number in `Select\Current`, one if there is none. -/
def selectCurrent (hive : Hive) (n : Nat) : Exec HiveError UInt32 := do
  match ← (hive.openKey n "Select".toList).attempt with
  | .ok (some sel) =>
    match ← (sel.value hive.reader "Current".toList).attempt with
    | .ok (some v) =>
      match ← (v.rawData hive.reader).attempt with
      | .ok d => .ok (if d.length ≥ 4 then u32At d 0 else 1)
      | .error _ => .ok 1
    | _ => .ok 1
  | _ => .ok 1

/-- Where the cache may be. -/
def candidates (current : UInt32) : List Str :=
  ["CurrentControlSet\\".toList ++ appcompatSuffix,
   controlSetName current.toNat ++ '\\' :: appcompatSuffix,
   "ControlSet001\\".toList ++ appcompatSuffix]

/-- The entries of the blob of one key. -/
def parseKey (r : CellReader) (key : Key) : Exec HiveError (List ShimcacheEntry) := do
  match ← (key.value r "AppCompatCache".toList).attempt with
  | .ok (some v) =>
    match ← (v.rawData r).attempt with
    | .ok blob => .ok (parseBlob jiff blob)
    | .error _ => .ok []
  | _ => .ok []

/-- Extract the entries of the cache of a SYSTEM hive. -/
def parse (hive : Hive) (n : Nat) : Exec HiveError (List ShimcacheEntry) := do
  let current ← selectCurrent hive n
  match ← hive.openFirst n (candidates current) with
  | none => .ok []
  | some key => parseKey jiff hive.reader key

end Shimcache

end Winreg
