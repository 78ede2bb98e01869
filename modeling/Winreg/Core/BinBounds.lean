/-
  CELLS AND THEIR BINS: the flat-file backend checks a cell against the end of the buffer.

  The catalog of the bins is made when the hive is opened, and `readCellRaw` does not look at it:
  the `hbin_end` of its overflow error is the length of the buffer.  So a cell may reach past its
  bin, lie over the header of a bin, or lie behind the last bin, and still be read.

  1. **Rejections** — which error a cell outside of the buffer and a free cell give.
  2. **The bins** — a cell is kept inside of its bin only where the end of the buffer keeps it there
     (`Hive.staysInBin_iff`).
-/
import Winreg.Core.Image

namespace Winreg

open Rust

/-! ## Rejections -/

namespace Hive

variable {hive : Hive} {offset : CellOffset}

/-- A cell without room for its size field is refused. -/
theorem readCellRaw_past_field (hnull : offset.isNull = false)
    (h : hive.data.length < offset.fileOffset + 4) :
    hive.readCellRaw offset = .err (.cellOverflow offset 0 hive.data.length) := by
  unfold Hive.readCellRaw Hive.rawBytes
  rw [if_neg (by rw [hnull]; decide)]
  exact if_pos h

/-- A free cell is refused. -/
theorem readCellRaw_free (hnull : offset.isNull = false)
    (hfield : offset.fileOffset + 4 ≤ hive.data.length)
    (h : (hive.cellHeader offset).isAllocated = false) :
    hive.readCellRaw offset = .err (.unallocatedCell offset) := by
  unfold Hive.readCellRaw Hive.rawBytes
  rw [if_neg (by rw [hnull]; decide)]
  dsimp only
  rw [if_neg (Nat.not_lt.mpr hfield), Hive.headerBytes_eq hfield, h]
  rfl

/-- An allocated cell that ends behind the file is refused. -/
theorem readCellRaw_past_end (hnull : offset.isNull = false)
    (hfield : offset.fileOffset + 4 ≤ hive.data.length)
    (halloc : (hive.cellHeader offset).isAllocated = true)
    (h : hive.data.length < offset.fileOffset + (hive.cellHeader offset).size) :
    hive.readCellRaw offset =
      .err (.cellOverflow offset (hive.cellHeader offset).size hive.data.length) := by
  unfold Hive.readCellRaw Hive.rawBytes
  rw [if_neg (by rw [hnull]; decide)]
  dsimp only
  rw [if_neg (Nat.not_lt.mpr hfield), Hive.headerBytes_eq hfield, halloc, if_neg (by decide)]
  exact if_pos h

/-- An allocated cell inside the buffer is never an overflow: it is read, or the read aborts. -/
theorem readCellRaw_inside (hnull : offset.isNull = false)
    (hend : offset.fileOffset + 4 ≤ hive.data.length)
    (halloc : (hive.cellHeader offset).isAllocated = true)
    (h : offset.fileOffset + (hive.cellHeader offset).size ≤ hive.data.length) :
    hive.readCellRaw offset = .panic ∨ ∃ cell, hive.readCellRaw offset = .ok cell := by
  rcases hive.readCellRaw_cases offset with ⟨_, hraw⟩ | ⟨hrefused, hsized, _⟩ | ⟨_, hraw⟩
  · exact Or.inl hraw
  · rcases hrefused with hr | hr | hr | hr | hr
    · rw [hnull] at hr; cases hr
    · omega
    · rw [halloc] at hr; cases hr
    · omega
    · exact absurd ⟨hnull, hend, halloc, hr⟩ hsized
  · exact Or.inr ⟨_, hraw⟩

end Hive

/-! ## The bins -/

/-- The cell at `offset`, size field and body, lies inside the data region of a cataloged bin. -/
def Hive.InBin (hive : Hive) (offset : CellOffset) : Prop :=
  ∃ bin ∈ hive.bins, bin.fileOffset + 32 ≤ offset.fileOffset ∧
    offset.fileOffset + 4 ≤ bin.fileOffset + bin.size.toNat ∧
    offset.fileOffset + (hive.cellHeader offset).size ≤ bin.fileOffset + bin.size.toNat

/-- Only cells inside of a bin are read, and any other cell is rejected as an overflow. -/
structure Hive.StaysInBin (hive : Hive) (offset : CellOffset) : Prop where
  read : ∀ cell, hive.readCellRaw offset = .ok cell → hive.InBin offset
  rejected : offset.isNull = false → ¬ hive.InBin offset →
    ∃ size stop, hive.readCellRaw offset = .err (.cellOverflow offset size stop)

/-- The end of the buffer rejects the cell: its size field runs past it, or the cell is allocated
    and does. -/
def Hive.PastBuffer (hive : Hive) (offset : CellOffset) : Prop :=
  hive.data.length < offset.fileOffset + 4 ∨
    ((hive.cellHeader offset).isAllocated = true ∧
      hive.data.length < offset.fileOffset + (hive.cellHeader offset).size)

/-- Whatever does not lie within the file is refused with an overflow error, at the field or at the
    end. -/
theorem Hive.PastBuffer.rejected {hive : Hive} {offset : CellOffset}
    (h : hive.PastBuffer offset) (hnull : offset.isNull = false) :
    ∃ size stop, hive.readCellRaw offset = .err (.cellOverflow offset size stop) := by
  by_cases hfield : hive.data.length < offset.fileOffset + 4
  · exact ⟨_, _, Hive.readCellRaw_past_field hnull hfield⟩
  · obtain ⟨halloc, hend⟩ := h.resolve_left hfield
    exact ⟨_, _, Hive.readCellRaw_past_end hnull (Nat.le_of_not_lt hfield) halloc hend⟩

/-- Nothing else is an overflow. -/
theorem Hive.pastBuffer_of_overflow {hive : Hive} {offset : CellOffset} {size stop : Nat}
    (hnull : offset.isNull = false)
    (h : hive.readCellRaw offset = .err (.cellOverflow offset size stop)) :
    hive.PastBuffer offset := by
  by_cases hfield : hive.data.length < offset.fileOffset + 4
  · exact Or.inl hfield
  have hfield := Nat.le_of_not_lt hfield
  cases halloc : (hive.cellHeader offset).isAllocated with
  | false =>
    rw [Hive.readCellRaw_free hnull hfield halloc] at h
    cases h
  | true =>
    refine Or.inr ⟨halloc, Nat.lt_of_not_le fun hend => ?_⟩
    rcases Hive.readCellRaw_inside hnull hfield halloc hend with hraw | ⟨cell, hraw⟩
    · rw [hraw] at h; cases h
    · rw [hraw] at h; cases h

/-- **Cells and their bins.**  The bins keep a cell in exactly when it is a null offset, when the
    end of the buffer rejects it, or when it lies inside of a bin as it is; and a read gives a cell
    inside of a bin exactly when the cell is refused or lies there.  The only bound that is checked
    is the end of the buffer; the bins are not asked. -/
theorem Hive.staysInBin_iff (hive : Hive) (offset : CellOffset) :
    (hive.StaysInBin offset ↔
      offset.isNull = true ∨ hive.PastBuffer offset ∨ hive.InBin offset) ∧
    ((∀ cell, hive.readCellRaw offset = .ok cell → hive.InBin offset) ↔
      hive.RefusedCell offset ∨ hive.InBin offset) := by
  constructor
  · constructor
    · intro h
      cases hnull : offset.isNull with
      | true => exact Or.inl rfl
      | false =>
        refine Or.inr (or_iff_not_imp_right.mpr fun hout => ?_)
        -- a cell outside of every bin is kept out only by an error about the buffer
        obtain ⟨size, stop, hraw⟩ := h.rejected hnull hout
        exact Hive.pastBuffer_of_overflow hnull hraw
    · rintro (hnull | hpast | hin)
      · refine ⟨fun cell hread => ?_, fun hfalse => ?_⟩
        · have hreads := @Hive.readsCell_of_readCellRaw _ _ cell.1 cell.2 hread
          rw [hreads.not_null] at hnull
          cases hnull
        · rw [hnull] at hfalse
          cases hfalse
      · refine ⟨fun cell hread => ?_, fun hnull _ => hpast.rejected hnull⟩
        have hreads := @Hive.readsCell_of_readCellRaw _ _ cell.1 cell.2 hread
        obtain ⟨size, stop, hraw⟩ := hpast.rejected hreads.not_null
        rw [hraw] at hread
        cases hread
      · exact ⟨fun _ _ => hin, fun _ hout => absurd hin hout⟩
  · -- a read panics on a tiny cell, refuses the cell, or gives it
    rcases hive.readCellRaw_cases offset with
      ⟨hsmall, hraw⟩ | ⟨hrefused, _, e, hraw⟩ | ⟨hread, hraw⟩
    · have hrefused : hive.RefusedCell offset := Or.inr (Or.inr (Or.inr (Or.inr hsmall.2.2.2)))
      exact ⟨fun _ => Or.inl hrefused, fun _ cell h => by rw [hraw] at h; cases h⟩
    · exact ⟨fun _ => Or.inl hrefused, fun _ cell h => by rw [hraw] at h; cases h⟩
    · exact ⟨fun h => Or.inr (h _ hraw), fun h _ _ => h.resolve_left hread⟩

/-- A hive of one empty bin, with a key cell behind it; the base block names that cell as the
    root. -/
def strayImage : Bytes :=
  oneBinImage 4096 [] ++ allocatedCell (nkRecordBytes 0 0 0xFFFFFFFF 0 0xFFFFFFFF [])

/-- The hive that opens from `strayImage`. -/
def strayHive : Hive where
  data := strayImage
  header := imageBaseBlock 4096 4096
  version := .v1_5
  bins := [⟨0, 4096, 4096⟩]
  headerBytes := bytesAt strayImage 0 BaseBlock.size

/-- The image is longer than its bin. -/
theorem length_strayImage : strayImage.length = 8272 := by
  rw [strayImage, List.length_append, length_oneBinImage 4096 (by decide)]
  rfl

/-- It opens: the header declares one bin, and nothing is asked of the bytes behind it. -/
theorem fromBytes_strayImage : Hive.fromBytes strayImage = .ok strayHive := by
  have hlen := length_strayImage
  have himage := length_oneBinImage 4096 (show ([] : Bytes).length ≤ 4064 by decide)
  have hsize : BaseBlock.size = 4096 := rfl
  have hleft : ∀ off n, off + n ≤ 8192 →
      bytesAt strayImage off n = bytesAt (oneBinImage 4096 []) off n := fun off n h =>
    bytesAt_append_left (by omega)
  have hbin : ∀ off n, off + n ≤ 32 → bytesAt strayImage (4096 + off) n =
      bytesAt (hbinMagic ++ u32Bytes 0 ++ u32Bytes 4096 ++ List.replicate 20 0) off n :=
    fun off n h => (hleft _ _ (by omega)).trans (bytesAt_oneBinBin 4096 [] h)
  obtain ⟨hread, hsum⟩ := BaseBlock.read_imageBlock (by omega)
    ((hleft 0 512 (by omega)).trans (bytesAt_oneBinBlock 4096 []))
  rw [Hive.fromBytes_oneBin .v1_5 4096 hread hsum rfl rfl (by decide) rfl (by omega)
    ((hbin 0 4 (by omega)).trans rfl) (u32At_of_bytesAt ((hbin 8 4 (by omega)).trans rfl)),
    u32At_of_bytesAt (x := 0) ((hbin 4 4 (by omega)).trans rfl)]
  rfl

/-- A range of the cell behind the bin. -/
theorem bytesAt_strayCell (off n : Nat) : bytesAt strayImage (8192 + off) n =
    bytesAt (allocatedCell (nkRecordBytes 0 0 0xFFFFFFFF 0 0xFFFFFFFF [])) off n := by
  have himage := length_oneBinImage 4096 (show ([] : Bytes).length ≤ 4064 by decide)
  rw [strayImage, bytesAt_append_right (by omega), himage, Nat.add_sub_cancel_left]

/-- The root key, read from behind the last bin. -/
theorem readCellRaw_strayRoot : strayHive.readCellRaw strayHive.rootCellOffset =
    .ok (⟨-80⟩, nkRecordBytes 0 0 0xFFFFFFFF 0 0xFFFFFFFF []) := by
  have hraw : i32At strayImage 8192 = -80 :=
    i32At_of_bytesAt (by decide) (by decide) ((bytesAt_strayCell 0 4).trans rfl)
  have hbody : bytesAt strayImage 8196 76 = nkRecordBytes 0 0 0xFFFFFFFF 0 0xFFFFFFFF [] :=
    (bytesAt_strayCell 4 76).trans (by decide)
  have hread := @Hive.readCellRaw_allocated strayHive ⟨4096⟩ 80 (by decide) hraw (by decide)
    (show 8192 + 80 ≤ strayImage.length by rw [length_strayImage])
  rw [show (CellOffset.mk 4096).fileOffset + 4 = 8196 from rfl] at hread
  rw [show strayHive.data = strayImage from rfl, hbody] at hread
  exact hread

/-- **The hive opens with a root key that is in no bin.** -/
theorem readCell_outside_bins :
    Hive.fromBytes strayImage = .ok strayHive ∧
      strayHive.readCellRaw ⟨4096⟩ = .ok (⟨-80⟩, nkRecordBytes 0 0 0xFFFFFFFF 0 0xFFFFFFFF []) ∧
      (∀ bin ∈ strayHive.bins,
        bin.fileOffset + bin.size.toNat ≤ (CellOffset.mk 4096).fileOffset) ∧
      ¬ strayHive.StaysInBin ⟨4096⟩ := by
  have hbehind : ∀ bin ∈ strayHive.bins,
      bin.fileOffset + bin.size.toNat ≤ (CellOffset.mk 4096).fileOffset := by decide
  refine ⟨fromBytes_strayImage, readCellRaw_strayRoot, hbehind, fun h => ?_⟩
  obtain ⟨bin, hbin, _, hin, _⟩ := h.read _ readCellRaw_strayRoot
  have hend := hbehind bin hbin
  omega

end Winreg
