/-
  TRANSACTION LOGS: the overlay of dirty pages, and the scan that fills it.

  1. **Overlay** — a base buffer and a map from the start offset of a page to its bytes.  Applying
     a page is one insertion; reading a byte takes the page with the greatest start offset among
     the pages of the map that cover the byte, and the base when there is none.
  2. **Scan** — a log is searched byte by byte for entries marked `HvLE`; each entry lists pages
     and gives its own size, by which the search moves on.

  The sum of the page sizes of an entry is a `u32` sum, so the build profile decides what happens
  when it overflows; the scan takes the profile as an argument.
-/
import Winreg.Base.OrdMap
import Winreg.Core.Hive

namespace Winreg

open Rust

/-! ## The overlay -/

/-- A page to write: its start offset and its bytes. -/
abbrev Page := Nat × Bytes

/-- The page covers the byte at `pos`. -/
def Page.covers (pos : Nat) (page : Page) : Bool :=
  decide (page.1 ≤ pos ∧ pos < page.1 + page.2.length)

/-- A page covers the half-open range of its bytes. -/
@[simp] theorem Page.covers_iff {pos : Nat} {page : Page} :
    page.covers pos = true ↔ page.1 ≤ pos ∧ pos < page.1 + page.2.length := by
  simp [Page.covers]

/-- Original hive bytes with replacement pages by start offset. -/
structure OverlayBuffer where
  base : Bytes
  dirtyPages : BTreeMap Nat Bytes

namespace OverlayBuffer

/-- An overlay without pages. -/
def new (base : Bytes) : OverlayBuffer := ⟨base, ∅⟩

/-- Apply a dirty page at the given offset. -/
def applyPage (o : OverlayBuffer) (offset : Nat) (data : Bytes) : OverlayBuffer :=
  { o with dirtyPages := o.dirtyPages.insert offset data }

/-- The byte at `pos`.  A page found covers `pos`, so its index is in range; offsets and lengths
    stay below 2^64 because a page covers a position of a buffer in memory. -/
def byteAt (o : OverlayBuffer) (pos : Nat) : UInt8 :=
  match o.dirtyPages.findRev (Page.covers pos) with
  | some (pageOffset, pageData) => pageData.getD (pos - pageOffset) 0
  | none => o.base.getD pos 0

/-- Read bytes at the given offset, with dirty pages overlaid. -/
def readAt (o : OverlayBuffer) (offset len : Nat) : Bytes :=
  (List.range len).map fun i => o.byteAt (offset + i)

/-- The length of the hive: pages never make it longer. -/
def len (o : OverlayBuffer) : Nat := o.base.length

/-- The full overlaid buffer. -/
def materialize (o : OverlayBuffer) : Bytes := o.readAt 0 o.base.length

/-- The number of pages, one for each start. -/
def dirtyPageCount (o : OverlayBuffer) : Nat := o.dirtyPages.size

/-- A sequence of `apply_page` calls. -/
def applyPages (o : OverlayBuffer) (pages : List Page) : OverlayBuffer :=
  pages.foldl (fun o page => o.applyPage page.1 page.2) o

/-- Pages are laid over the base, which stays as it is. -/
@[simp] theorem base_applyPages (o : OverlayBuffer) (pages : List Page) :
    (o.applyPages pages).base = o.base := by
  induction pages generalizing o with
  | nil => rfl
  | cons page pages ih => exact ih (o.applyPage page.1 page.2)

end OverlayBuffer

/-! ## The log scan -/

/-- The magic `HvLE` of a log entry. -/
def hvleMagic : Bytes := [0x48, 0x76, 0x4C, 0x45]

/-- `(0..i).map(|j| size field of reference j).sum()`, a sum of `u32`. -/
def accumulatedSize (profile : Profile) (log : Bytes) (refStart i : Nat) :
    Exec HiveError UInt32 :=
  (List.range i).foldlM (fun sum j => do
    let r := refStart + j * 8 + 4
    let raw ← slice log r (r + 4)
    profile.addU32 sum (u32At raw 0)) 0

/-- One pass over page reference `i` of an entry. -/
def applyDirtyPage (profile : Profile) (log : Bytes) (refStart dataStart i : Nat)
    (overlay : OverlayBuffer) : Exec HiveError (Exec.Pass OverlayBuffer OverlayBuffer) :=
  let refOffset := refStart + i * 8
  if refOffset + 8 > log.length then .ok (.leave overlay)
  else do
    let pageOffset := leU32 log refOffset
    let pageSize := leU32 log (refOffset + 4)
    let accumulated ← accumulatedSize profile log refStart i
    let dataOffset := dataStart + accumulated.toNat
    let dataEnd := dataOffset + pageSize.toNat
    if dataEnd ≤ log.length then do
      let fileOffset := 4096 + pageOffset.toNat
      let page ← slice log dataOffset dataEnd
      .ok (.again (overlay.applyPage fileOffset page))
    else .ok (.again overlay)

/-- The number of page references an entry at `pos` declares. -/
def entryPageCount (log : Bytes) (pos : Nat) : Nat := (leU32 log (pos + 16)).toNat

/-- The size an entry at `pos` declares for itself. -/
def entrySize (log : Bytes) (pos : Nat) : Nat := (leU32 log (pos + 4)).toNat

/-- Apply the pages of the entry at `pos`. -/
def applyEntry (profile : Profile) (log : Bytes) (pos : Nat) (overlay : OverlayBuffer) :
    Exec HiveError OverlayBuffer :=
  let pageCount := entryPageCount log pos
  let refStart := pos + 40
  let dataStart := refStart + pageCount * 8
  Exec.forRange (applyDirtyPage profile log refStart dataStart) pageCount 0 overlay

/-- State of the scan: the position and the overlay so far. -/
structure ScanState where
  pos : Nat
  overlay : OverlayBuffer

/-- One pass of the scan. -/
def scanPass (profile : Profile) (log : Bytes) (s : ScanState) :
    Exec HiveError (Exec.Pass ScanState OverlayBuffer) :=
  if s.pos + 4 ≤ log.length then do
    let mark ← slice log s.pos (s.pos + 4)
    if mark = hvleMagic then
      if s.pos + 40 > log.length then .ok (.leave s.overlay)
      else do
        let overlay ← applyEntry profile log s.pos s.overlay
        .ok (.again ⟨s.pos + entrySize log s.pos, overlay⟩)
    else .ok (.again ⟨s.pos + 1, s.overlay⟩)
  else .ok (.leave s.overlay)

/-- Parse the `HvLE` entries of a log, from the end of its header on. -/
def parseNewFormatLog (profile : Profile) (n : Nat) (log : Bytes) (overlay : OverlayBuffer) :
    Exec HiveError OverlayBuffer :=
  Exec.loop (scanPass profile log) n ⟨512, overlay⟩

/-- One log file: too short, without magic, or of another file type, it is passed over. -/
def replayLog (profile : Profile) (n : Nat) (overlay : OverlayBuffer) (log : Bytes) :
    Exec HiveError OverlayBuffer :=
  if log.length < 512 then .ok overlay
  else do
    let sig ← slice log 0 4
    if sig ≠ BaseBlock.magic then .ok overlay
    else
      let fileType := leU32 log 0x1C
      if fileType = 1 ∨ fileType = 6 then parseNewFormatLog profile n log overlay
      else .ok overlay

/-- Replay transaction logs onto a hive. -/
def replayTransactionLogs (profile : Profile) (n : Nat) (hiveData : Bytes)
    (logDatas : List Bytes) : Exec HiveError OverlayBuffer :=
  logDatas.foldlM (replayLog profile n) (OverlayBuffer.new hiveData)

end Winreg
