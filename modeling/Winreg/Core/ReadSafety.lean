/-
  READ SAFETY of the flat-file backend: when a cell read comes back, and what it gives.

  `Hive.ReadContract` is the contract of `readCellRaw` at one offset: it does not abort, it refuses
  the five kinds of unusable cells, and on every other cell it gives exactly the bytes between the
  size field and the end of the cell.  The slice that takes the body starts four bytes into the
  cell whatever the size says, so an allocated cell of size 1, 2 or 3 inside the buffer aborts it;
  these cells are the only exception (`readCellRaw_contract_iff`).
-/
import Winreg.Core.Image

namespace Winreg

open Rust

/-- The contract of a cell read at one offset. -/
structure Hive.ReadContract (hive : Hive) (offset : CellOffset) : Prop where
  no_panic : hive.readCellRaw offset ≠ .panic
  refuses : hive.RefusedCell offset → ∃ e, hive.readCellRaw offset = .err e
  gives_body : ¬ hive.RefusedCell offset → ∃ body,
    hive.readCellRaw offset = .ok (hive.cellHeader offset, body) ∧
      body.length = (hive.cellHeader offset).size - 4 ∧
      body = bytesAt hive.data (offset.fileOffset + 4) ((hive.cellHeader offset).size - 4)

/-- No call built on the cell read aborts: typed cells, values of a key, data of a value. -/
structure Hive.ReadersSafe (hive : Hive) : Prop where
  read_cell : ∀ offset, hive.reader.readCell offset ≠ .panic
  values : ∀ key : Key, key.values hive.reader ≠ .panic
  raw_data : ∀ value : Value, value.rawData hive.reader ≠ .panic

/-- A cell that is not refused lies inside the buffer, so its body has the declared length. -/
theorem Hive.length_body {hive : Hive} {offset : CellOffset} (h : ¬ hive.RefusedCell offset) :
    (bytesAt hive.data (offset.fileOffset + 4) ((hive.cellHeader offset).size - 4)).length =
      (hive.cellHeader offset).size - 4 := by
  have hend : offset.fileOffset + (hive.cellHeader offset).size ≤ hive.data.length :=
    Nat.le_of_not_lt fun hlt => h (Or.inr (Or.inr (Or.inr (Or.inl hlt))))
  have hsmall : 4 ≤ (hive.cellHeader offset).size :=
    Nat.le_of_not_lt fun hlt => h (Or.inr (Or.inr (Or.inr (Or.inr hlt))))
  exact length_bytesAt_of_le (by omega)

/-- The contract holds at an offset exactly when no undersized cell starts there. -/
theorem Hive.readContract_iff (hive : Hive) (offset : CellOffset) :
    hive.ReadContract offset ↔ ¬ hive.UndersizedCell offset := by
  constructor
  · intro h hu
    have hret := (hive.readCellRaw_returns_iff offset).not.mpr (not_not.mpr hu)
    exact hret (Exec.returns_iff.mpr ⟨h.no_panic, hive.readCellRaw_ne_timeout offset⟩)
  · intro hu
    rcases hive.readCellRaw_cases offset with ⟨hu', _⟩ | ⟨hr, _, e, h⟩ | ⟨hr, h⟩
    · exact absurd hu' hu
    · exact ⟨by rw [h]; simp, fun _ => ⟨e, h⟩, fun hn => absurd hr hn⟩
    · exact ⟨by rw [h]; simp, fun hr' => absurd hr' hr, fun _ => ⟨_, h, length_body hr, rfl⟩⟩

/-- Without undersized cells nothing built on the cell read aborts. -/
theorem Hive.readersSafe_of_no_undersized {hive : Hive}
    (h : ∀ offset, ¬ hive.UndersizedCell offset) : hive.ReadersSafe := by
  have hraw : ∀ offset, (hive.reader.readCellRaw offset).Avoids .panic :=
    fun offset => ((hive.readCellRaw_returns_iff offset).mpr (h offset)).ne_panic
  exact
    { read_cell := fun offset => hive.reader.readCell_avoids (hraw offset)
      values := fun key => Key.values_avoids hraw key
      raw_data := fun value => Value.rawData_avoids hraw value }

/-- An abort of the raw read is an abort of everything that starts with it. -/
theorem Hive.rootKey_eq_panic {hive : Hive} (h : hive.readCellRaw hive.rootCellOffset = .panic) :
    hive.rootKey = .panic := by
  have hcell : hive.reader.readCell hive.rootCellOffset = .panic := by
    unfold CellReader.readCell
    rw [show hive.reader.readCellRaw hive.rootCellOffset = .panic from h, Exec.panic_bind]
  rw [Hive.rootKey, Key.fromCellOffset, hcell, Exec.panic_bind]

/-- **Exactly which reads are safe.**  At each offset the contract of the cell read holds if and
    only if no undersized cell starts there; the whole hive is safe to read, with everything built
    on the cell read, if and only if it has no undersized cell. -/
theorem readCellRaw_contract_iff {data : Bytes} {hive : Hive}
    (h : Hive.fromBytes data = .ok hive) :
    hive.data = data ∧
    (∀ offset, hive.ReadContract offset ↔ ¬ hive.UndersizedCell offset) ∧
    (((∀ offset, hive.ReadContract offset) ∧ hive.ReadersSafe) ↔
      ∀ offset, ¬ hive.UndersizedCell offset) := by
  refine ⟨(Hive.fromBytes_accepted h).2, hive.readContract_iff, ?_, ?_⟩
  · intro hc offset
    exact (hive.readContract_iff offset).mp (hc.1 offset)
  · intro hu
    exact ⟨fun offset => (hive.readContract_iff offset).mpr (hu offset),
      Hive.readersSafe_of_no_undersized hu⟩

/-- The image whose only cell is the size field `-1`. -/
def undersizedCells : Bytes := cellBytes (-1) []

/-- A root cell with the size field -1 breaks the contract at its own offset and keeps it at every
    other one. -/
theorem readCellRaw_contract_iff_undersized :
    (oneBinHive 32 undersizedCells).data = oneBinImage 32 undersizedCells ∧
    (∀ offset, (oneBinHive 32 undersizedCells).ReadContract offset ↔
      ¬ (oneBinHive 32 undersizedCells).UndersizedCell offset) ∧
    (((∀ offset, (oneBinHive 32 undersizedCells).ReadContract offset) ∧
        (oneBinHive 32 undersizedCells).ReadersSafe) ↔
      ∀ offset, ¬ (oneBinHive 32 undersizedCells).UndersizedCell offset) :=
  readCellRaw_contract_iff (Hive.fromBytes_oneBinImage (by decide))

/-- The root cell of that image is undersized. -/
theorem undersizedCells_undersized : (oneBinHive 32 undersizedCells).UndersizedCell ⟨32⟩ := by
  have hhdr : (oneBinHive 32 undersizedCells).cellHeader ⟨32⟩ = ⟨-1⟩ :=
    Hive.cellHeader_oneBin (k := 0) rfl (by decide) (by decide) (by decide) rfl
  have hlen : (oneBinHive 32 undersizedCells).data.length = 8192 :=
    length_oneBinImage 32 (by decide)
  refine ⟨rfl, ?_, ?_, ?_⟩
  · rw [hlen]; decide
  · rw [hhdr]; decide
  · rw [hhdr]; decide

/-- An accepted hive whose root cell has size 1: reading it aborts on the body slice. -/
theorem readCellRaw_panics_undersized :
    Hive.fromBytes (oneBinImage 32 undersizedCells) = .ok (oneBinHive 32 undersizedCells) ∧
    (oneBinHive 32 undersizedCells).readCellRaw ⟨32⟩ = .panic ∧
    (oneBinHive 32 undersizedCells).rootKey = .panic ∧
    ¬ (oneBinHive 32 undersizedCells).ReadContract ⟨32⟩ := by
  have hu := undersizedCells_undersized
  have hpanic : (oneBinHive 32 undersizedCells).readCellRaw ⟨32⟩ = .panic := by
    rcases (oneBinHive 32 undersizedCells).readCellRaw_cases ⟨32⟩ with ⟨_, h⟩ | ⟨_, hn, _⟩ | ⟨hr, _⟩
    · exact h
    · exact absurd hu hn
    · exact absurd (Or.inr (Or.inr (Or.inr (Or.inr hu.2.2.2)))) hr
  exact ⟨Hive.fromBytes_oneBinImage (by decide), hpanic, Hive.rootKey_eq_panic hpanic,
    fun hc => hc.no_panic hpanic⟩

end Winreg
