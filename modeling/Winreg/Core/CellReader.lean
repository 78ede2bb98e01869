/-
  READING CELLS: the one backend operation, and the typed cells built on it.

  `CellReader` is the seam between navigation and storage: an offset gives a cell header and the
  bytes of the body, or an error.  Everything else is shared by all backends and dispatches on the
  signature of the body.  `Hive.reader` is the flat-file backend: bytes live at `4096 + offset`.

  The last section says exactly what the flat-file backend does with a cell
  (`Hive.readCellRaw_cases`): it returns a body, returns an error, or, on an allocated cell too
  small to hold its own size field, aborts on the slice `data[start + 4..start + size]`.
-/
import Winreg.Core.Hive

namespace Winreg

open Rust

/-! ## Typed cells over any backend -/

/-- Typed cell content after dispatching on the signature. -/
inductive Cell where
  | keyNode (nk : RawKeyNode)
  | keyValue (vk : RawKeyValue)
  | securityKey (sk : RawSecurityKey)
  | index (idx : SubkeyIndex)
  | bigData (db : RawBigData)
  | data (bytes : Bytes)
deriving DecidableEq, Repr

/-- Backend that resolves a cell offset to its header and its body. -/
structure CellReader where
  readCellRaw : CellOffset → Exec HiveError (CellHeader × Bytes)

/-- `parse(..).ok_or(InvalidCellSignature { .. })?`, wrapped as a typed cell. -/
def parsedCell {α : Type} (offset : CellOffset) (expected : String) (b0 b1 : UInt8)
    (wrap : α → Cell) : Option α → Exec HiveError Cell
  | some x => .ok (wrap x)
  | none => .err (.invalidCellSignature offset expected b0 b1)

/-- Dispatch a cell body on its signature. -/
def dispatchCell (offset : CellOffset) (body : Bytes) : Exec HiveError Cell :=
  match body with
  | b0 :: b1 :: afterSig =>
    match CellSignature.fromBytes b0 b1 with
    | some .keyNode =>
      parsedCell offset "nk (valid key node)" b0 b1 .keyNode (RawKeyNode.parse afterSig)
    | some .keyValue =>
      parsedCell offset "vk (valid key value)" b0 b1 .keyValue (RawKeyValue.parse afterSig)
    | some .securityKey =>
      parsedCell offset "sk (valid security key)" b0 b1 .securityKey (RawSecurityKey.parse afterSig)
    | some .fastLeaf =>
      parsedCell offset "lf (valid fast leaf)" b0 b1 .index (SubkeyIndex.parseLf afterSig)
    | some .hashLeaf =>
      parsedCell offset "lh (valid hash leaf)" b0 b1 .index (SubkeyIndex.parseLh afterSig)
    | some .indexLeaf =>
      parsedCell offset "li (valid index leaf)" b0 b1 .index (SubkeyIndex.parseLi afterSig)
    | some .rootIndex =>
      parsedCell offset "ri (valid root index)" b0 b1 .index (SubkeyIndex.parseRi afterSig)
    | some .bigData =>
      parsedCell offset "db (valid big data)" b0 b1 .bigData (RawBigData.parse afterSig)
    | none => .ok (.data body)
  | _ => .ok (.data body)

/-- Read and parse a typed cell. -/
def CellReader.readCell (r : CellReader) (offset : CellOffset) : Exec HiveError Cell := do
  let (_, body) ← r.readCellRaw offset
  dispatchCell offset body

/-- A cell whose parser is total is read without a panic. -/
theorem parsedCell_returns {α : Type} (offset : CellOffset) (expected : String) (b0 b1 : UInt8)
    (wrap : α → Cell) (x : Option α) : (parsedCell offset expected b0 b1 wrap x).Returns := by
  cases x with
  | none => exact Or.inr ⟨_, rfl⟩
  | some x => exact Or.inl ⟨_, rfl⟩

/-- Dispatching never aborts: it gives a typed cell or an `InvalidCellSignature`. -/
theorem dispatchCell_returns (offset : CellOffset) (body : Bytes) :
    (dispatchCell offset body).Returns := by
  unfold dispatchCell
  split
  · split
    all_goals first | exact parsedCell_returns .. | exact Or.inl ⟨_, rfl⟩
  · exact Or.inl ⟨_, rfl⟩

/-- A key node is dispatched to its parser. -/
theorem dispatchCell_keyNode {afterSig : Bytes} {nk : RawKeyNode}
    (h : RawKeyNode.parse afterSig = some nk) (offset : CellOffset) :
    dispatchCell offset (0x6E :: 0x6B :: afterSig) = .ok (.keyNode nk) := by
  have hsig : CellSignature.fromBytes 0x6E 0x6B = some .keyNode := by decide
  unfold dispatchCell
  dsimp only
  rw [hsig]
  dsimp only
  rw [h, parsedCell]

/-- A key value is dispatched to its parser. -/
theorem dispatchCell_keyValue {afterSig : Bytes} {vk : RawKeyValue}
    (h : RawKeyValue.parse afterSig = some vk) (offset : CellOffset) :
    dispatchCell offset (0x76 :: 0x6B :: afterSig) = .ok (.keyValue vk) := by
  have hsig : CellSignature.fromBytes 0x76 0x6B = some .keyValue := by decide
  unfold dispatchCell
  dsimp only
  rw [hsig]
  dsimp only
  rw [h, parsedCell]

/-- A hash leaf is dispatched to its parser. -/
theorem dispatchCell_hashLeaf {afterSig : Bytes} {index : SubkeyIndex}
    (h : SubkeyIndex.parseLh afterSig = some index) (offset : CellOffset) :
    dispatchCell offset (0x6C :: 0x68 :: afterSig) = .ok (.index index) := by
  have hsig : CellSignature.fromBytes 0x6C 0x68 = some .hashLeaf := by decide
  unfold dispatchCell
  dsimp only
  rw [hsig]
  dsimp only
  rw [h, parsedCell]

/-- A typed read comes back exactly when the raw read does. -/
theorem CellReader.readCell_returns_iff (r : CellReader) (offset : CellOffset) :
    (r.readCell offset).Returns ↔ (r.readCellRaw offset).Returns := by
  constructor
  · intro h
    rw [Exec.returns_iff] at h ⊢
    obtain ⟨hp, ht⟩ := h
    refine ⟨fun hraw => hp ?_, fun hraw => ht ?_⟩
    all_goals rw [CellReader.readCell, hraw]; rfl
  · rintro (⟨⟨hdr, body⟩, h⟩ | ⟨e, h⟩)
    · rw [CellReader.readCell, h, Exec.ok_bind]
      exact dispatchCell_returns offset body
    · rw [CellReader.readCell, h, Exec.err_bind]
      exact Or.inr ⟨e, rfl⟩

/-- A typed read avoids a fault that the raw read avoids. -/
theorem CellReader.readCell_avoids (r : CellReader) {offset : CellOffset} {fault : Exec.Fault}
    (h : (r.readCellRaw offset).Avoids fault) : (r.readCell offset).Avoids fault :=
  .bind h fun cell _ => (dispatchCell_returns offset cell.2).avoids fault

/-! ## The flat-file backend -/

/-- Flat-file cell resolution: rejects null offsets, cells out of bounds and unallocated cells. -/
def Hive.readCellRaw (hive : Hive) (offset : CellOffset) :
    Exec HiveError (CellHeader × Bytes) :=
  if offset.isNull then .err .nullOffset
  else
    let fileOffset := offset.fileOffset
    let data := hive.rawBytes
    if fileOffset + 4 > data.length then .err (.cellOverflow offset 0 data.length)
    else
      let headerBytes := (getRange data fileOffset (fileOffset + 4)).getD [0, 0, 0, 0]
      let header := CellHeader.fromBytes headerBytes
      if !header.isAllocated then .err (.unallocatedCell offset)
      else
        let size := header.size
        let stop := fileOffset + size
        if stop > data.length then .err (.cellOverflow offset header.size data.length)
        else do
          let body ← slice data (fileOffset + 4) stop
          .ok (header, body)

/-- A hive as a cell backend. -/
def Hive.reader (hive : Hive) : CellReader := ⟨hive.readCellRaw⟩

/-- The header that `readCellRaw` reads at an offset whose size field is inside the buffer. -/
def Hive.cellHeader (hive : Hive) (offset : CellOffset) : CellHeader :=
  ⟨i32At hive.data offset.fileOffset⟩

/-- The conditions under which a cell is refused: a null offset, a size field past the end of the
    buffer, a free cell, a cell past the end of the buffer, a cell smaller than its size field. -/
def Hive.RefusedCell (hive : Hive) (offset : CellOffset) : Prop :=
  offset.isNull = true ∨ hive.data.length < offset.fileOffset + 4 ∨
    (hive.cellHeader offset).isAllocated = false ∨
    hive.data.length < offset.fileOffset + (hive.cellHeader offset).size ∨
    (hive.cellHeader offset).size < 4

/-- An allocated cell inside the buffer whose size is 1, 2 or 3. -/
def Hive.UndersizedCell (hive : Hive) (offset : CellOffset) : Prop :=
  offset.isNull = false ∧ offset.fileOffset + 4 ≤ hive.data.length ∧
    (hive.cellHeader offset).isAllocated = true ∧ (hive.cellHeader offset).size < 4

/-- The four bytes that `readCellRaw` takes as the header. -/
theorem Hive.headerBytes_eq {hive : Hive} {offset : CellOffset}
    (h : offset.fileOffset + 4 ≤ hive.data.length) :
    CellHeader.fromBytes ((getRange hive.data offset.fileOffset
      (offset.fileOffset + 4)).getD [0, 0, 0, 0]) = hive.cellHeader offset := by
  rw [getRange_eq_some (by omega) h, Nat.add_sub_cancel_left, Option.getD_some]
  show CellHeader.mk _ = CellHeader.mk _
  congr 1
  exact i32At_congr (bytesAt_bytesAt (by omega))

/-- **Every outcome of a flat-file read**: abort on an undersized cell, an error on every other
    refused cell, and else the header with the bytes between the size field and the cell's end. -/
theorem Hive.readCellRaw_cases (hive : Hive) (offset : CellOffset) :
    (hive.UndersizedCell offset ∧ hive.readCellRaw offset = .panic) ∨
    (hive.RefusedCell offset ∧ ¬ hive.UndersizedCell offset ∧
      ∃ e, hive.readCellRaw offset = .err e) ∨
    (¬ hive.RefusedCell offset ∧ hive.readCellRaw offset =
      .ok (hive.cellHeader offset,
        bytesAt hive.data (offset.fileOffset + 4) ((hive.cellHeader offset).size - 4))) := by
  unfold Hive.readCellRaw Hive.rawBytes
  -- one case for each check of the source, in its order
  by_cases hnull : offset.isNull = true
  · rw [if_pos hnull]
    refine Or.inr (Or.inl ⟨Or.inl hnull, fun hu => ?_, _, rfl⟩)
    rw [hu.1] at hnull; cases hnull
  rw [if_neg hnull]
  by_cases hfield : offset.fileOffset + 4 > hive.data.length
  · simp only [if_pos hfield]
    refine Or.inr (Or.inl ⟨Or.inr (Or.inl hfield), fun hu => ?_, _, rfl⟩)
    have := hu.2.1; omega
  simp only [if_neg hfield, Hive.headerBytes_eq (Nat.le_of_not_lt hfield)]
  by_cases halloc : (hive.cellHeader offset).isAllocated = true
  · rw [halloc, Bool.not_true, if_neg (by decide)]
    by_cases hend : offset.fileOffset + (hive.cellHeader offset).size > hive.data.length
    · rw [if_pos hend]
      refine Or.inr (Or.inl ⟨?_, fun hu => ?_, _, rfl⟩)
      · exact Or.inr (Or.inr (Or.inr (Or.inl hend)))
      · have := hu.2.2.2; omega
    · rw [if_neg hend]
      by_cases hsmall : (hive.cellHeader offset).size < 4
      · -- the only abort: the slice starts four bytes in and ends before that
        rw [slice_eq_panic (by omega), Exec.panic_bind]
        exact Or.inl ⟨⟨by simpa using hnull, by omega, halloc, hsmall⟩, rfl⟩
      · rw [slice_eq_ok (by omega) (by omega), Exec.ok_bind]
        refine Or.inr (Or.inr ⟨?_, ?_⟩)
        · rintro (h | h | h | h | h)
          · exact hnull h
          · omega
          · rw [halloc] at h; cases h
          · omega
          · omega
        · congr 2
          congr 1; omega
  · have hfree : (hive.cellHeader offset).isAllocated = false := by simpa using halloc
    rw [hfree, Bool.not_false, if_pos rfl]
    refine Or.inr (Or.inl ⟨Or.inr (Or.inr (Or.inl hfree)), fun hu => ?_, _, rfl⟩)
    have := hu.2.2.1; rw [hfree] at this; cases this

/-- **What a read gives**: the header and the body of an allocated cell inside the buffer. -/
structure Hive.ReadsCell (hive : Hive) (offset : CellOffset) (hdr : CellHeader) (body : Bytes) :
    Prop where
  not_null : offset.isNull = false
  header : hdr = hive.cellHeader offset
  allocated : (hive.cellHeader offset).isAllocated = true
  size : 4 ≤ (hive.cellHeader offset).size
  inside : offset.fileOffset + (hive.cellHeader offset).size ≤ hive.data.length
  body : body = bytesAt hive.data (offset.fileOffset + 4) ((hive.cellHeader offset).size - 4)

/-- What the bounds-checked read gives is what stands at the offset: the size field and the bytes
    behind it. -/
theorem Hive.readsCell_of_readCellRaw {hive : Hive} {offset : CellOffset} {hdr : CellHeader}
    {body : Bytes} (h : hive.readCellRaw offset = .ok (hdr, body)) :
    hive.ReadsCell offset hdr body := by
  rcases hive.readCellRaw_cases offset with ⟨_, hraw⟩ | ⟨_, _, e, hraw⟩ | ⟨hok, hraw⟩
  · rw [hraw] at h; cases h
  · rw [hraw] at h; cases h
  · rw [hraw] at h
    obtain ⟨rfl, rfl⟩ := Prod.mk.inj (Exec.ok.inj h)
    obtain ⟨hnull, hok⟩ := not_or.mp hok
    obtain ⟨_, hok⟩ := not_or.mp hok
    obtain ⟨halloc, hok⟩ := not_or.mp hok
    obtain ⟨hend, hsize⟩ := not_or.mp hok
    exact ⟨by simpa using hnull, rfl, by simpa using halloc, by omega, by omega, rfl⟩

/-- A typed read parses a body that was read. -/
theorem Hive.readsCell_of_readCell {hive : Hive} {offset : CellOffset} {cell : Cell}
    (h : hive.reader.readCell offset = .ok cell) :
    ∃ hdr body, hive.ReadsCell offset hdr body ∧ dispatchCell offset body = .ok cell := by
  obtain ⟨⟨hdr, body⟩, hraw, hdispatch⟩ := Exec.bind_eq_ok.mp h
  exact ⟨hdr, body, Hive.readsCell_of_readCellRaw hraw, hdispatch⟩

/-- An allocated cell inside the buffer is read whole. -/
theorem Hive.readCellRaw_allocated {hive : Hive} {offset : CellOffset} {size : Nat}
    (hnull : offset.isNull = false) (hraw : i32At hive.data offset.fileOffset = -size)
    (hsize : 4 ≤ size) (hend : offset.fileOffset + size ≤ hive.data.length) :
    hive.readCellRaw offset =
      .ok (⟨-size⟩, bytesAt hive.data (offset.fileOffset + 4) (size - 4)) := by
  have hheader : hive.cellHeader offset = ⟨-size⟩ := congrArg CellHeader.mk hraw
  have hnat : (hive.cellHeader offset).size = size := by
    rw [hheader]
    show (-(size : Int)).natAbs = size
    omega
  rcases hive.readCellRaw_cases offset with ⟨hu, _⟩ | ⟨hr, _, _⟩ | ⟨_, h⟩
  · have := hu.2.2.2
    omega
  · rcases hr with h | h | h | h | h
    · rw [hnull] at h; cases h
    · omega
    · rw [hheader] at h
      have : ¬ (-(size : Int) < 0) := by simpa [CellHeader.isAllocated] using h
      omega
    · omega
    · omega
  · rw [h, hnat, hheader]

/-- A flat-file read never exceeds a budget: it does not recurse. -/
theorem Hive.readCellRaw_ne_timeout (hive : Hive) (offset : CellOffset) :
    hive.readCellRaw offset ≠ .timeout := by
  rcases hive.readCellRaw_cases offset with ⟨_, h⟩ | ⟨_, _, e, h⟩ | ⟨_, h⟩ <;> rw [h] <;> simp

/-- A flat-file read comes back exactly on the cells that are not undersized. -/
theorem Hive.readCellRaw_returns_iff (hive : Hive) (offset : CellOffset) :
    (hive.readCellRaw offset).Returns ↔ ¬ hive.UndersizedCell offset := by
  rcases hive.readCellRaw_cases offset with ⟨hu, h⟩ | ⟨_, hu, e, h⟩ | ⟨hr, h⟩
  · rw [h, Exec.returns_iff]
    exact ⟨fun hp => absurd rfl hp.1, fun hn => absurd hu hn⟩
  · exact ⟨fun _ => hu, fun _ => Or.inr ⟨e, h⟩⟩
  · refine ⟨fun _ hu => hr ?_, fun _ => Or.inl ⟨_, h⟩⟩
    exact Or.inr (Or.inr (Or.inr (Or.inr hu.2.2.2)))

/-- Reading and parsing a cell panics exactly where the bounds-checked read does, since the parsers
    themselves are total. -/
theorem Hive.readCell_returns_iff (hive : Hive) (offset : CellOffset) :
    (hive.reader.readCell offset).Returns ↔ ¬ hive.UndersizedCell offset := by
  rw [CellReader.readCell_returns_iff]
  exact hive.readCellRaw_returns_iff offset

/-- Reading a cell needs no fuel. -/
theorem Hive.readCell_ne_timeout (hive : Hive) (offset : CellOffset) :
    hive.reader.readCell offset ≠ .timeout := by
  have hraw : (hive.reader.readCellRaw offset).Avoids .timeout :=
    hive.readCellRaw_ne_timeout offset
  exact hive.reader.readCell_avoids hraw

end Winreg
