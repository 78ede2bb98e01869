/-
  PLANTED records: whatever is written into free space is found, once.

  A free cell is parsed at its head, and then swept byte by byte.  The sweep starts at the head or,
  behind a record there, two bytes further.  So the two together come to every position of the
  body exactly once, whatever the other bytes spell.

  1. **Records** — `Plantable bytes report`: a complete record that passes the checks, and what it
     is reported as; bytes behind it do not count (`Plantable.recordOf_append`).
  2. **One cell** — the records at the head of a free cell come from the unallocated cell, all
     others from slack (`recordOf_of_mem_cellRecords`).
  3. **The overwritten buffer** — it opens with the same bins, its cell chain leads to the same free
     cell, and the record is the only one at its offset (`planted_recovered`).
-/
import Winreg.Carve.Soundness

namespace Winreg

open Rust

namespace Carve

/-! ## Records -/

/-- The bytes start with a complete record that passes the checks of the carver; `report` is the
    record recovered from it. -/
inductive Plantable : Bytes → (UInt32 → RecoverySource → Confidence → RecoveredCell) → Prop where
  | key {afterSig : Bytes} {nk : RawKeyNode} (parse : RawKeyNode.parse afterSig = some nk)
      (checks : nkIsPlausible nk = true) (name : nameIsPlausible nk.keyName = true) :
      Plantable (0x6E :: 0x6B :: afterSig) fun fileOffset source confidence =>
        .key ⟨nk.keyName, nk.lastWritten, nk.parent.val, fileOffset, false, source, confidence⟩
  | value {afterSig : Bytes} {vk : RawKeyValue} (parse : RawKeyValue.parse afterSig = some vk)
      (checks : vkIsPlausible vk = true)
      (name : vk.valueName = [] ∨ nameIsPlausible vk.valueName = true) :
      Plantable (0x76 :: 0x6B :: afterSig) fun fileOffset source confidence =>
        .value ⟨vk.valueName, valueTypeRaw vk.dataType,
          if vk.isResident then vk.inlineData else [], fileOffset, false, source, confidence⟩

section Records

variable {planted : Bytes} {report : UInt32 → RecoverySource → Confidence → RecoveredCell}

/-- **The record is recovered**, whatever stands behind it. -/
theorem Plantable.recordOf_append (h : Plantable planted report) (tail : Bytes) (pos : Nat)
    (source : RecoverySource) : recordOf (planted ++ tail) pos source =
      some (report (toU32OrMax pos) source (confidenceOf source)) := by
  cases h with
  | @key afterSig nk parse checks name =>
    exact recordOf_eq_some_iff.mpr
      (Or.inl ⟨afterSig ++ tail, nk, rfl, RawKeyNode.parse_append parse tail, checks, name, rfl⟩)
  | @value afterSig vk parse checks name =>
    exact recordOf_eq_some_iff.mpr
      (Or.inr ⟨afterSig ++ tail, vk, rfl, RawKeyValue.parse_append parse tail, checks, name, rfl⟩)

/-- A record takes at least 20 bytes. -/
theorem Plantable.length_ge (h : Plantable planted report) : 20 ≤ planted.length := by
  have hrec := h.recordOf_append [] 0 .slack
  rw [List.append_nil] at hrec
  exact length_of_recordOf hrec

end Records

/-! ## One cell -/

/-- Where a record that starts at `abs` in the free cell at `c` is recovered from. -/
def sourceIn (c abs : Nat) : RecoverySource := if abs = c + 4 then .unallocatedCell else .slack

section Cell

variable {data : Bytes} {stop c : Nat}

/-- **The source of a record**: the head of a free cell is never reported from slack. -/
theorem recordOf_of_mem_cellRecords {x : Found} (hfree : (cellAt data c).isAllocated = false)
    (h : x ∈ cellRecords data c stop) :
    recordOf (bytesAt data (x.1 + 4) (stop - (x.1 + 4))) x.1 (sourceIn c (x.1 + 4)) =
      some x.2 := by
  unfold sourceIn
  rw [cellRecords, hfree, if_neg (by decide)] at h
  split at h
  · rename_i record hhead
    rcases List.mem_cons.mp h with rfl | hslack
    · rw [if_pos rfl]
      exact hhead
    · -- behind a record at the head the sweep starts two bytes further
      obtain ⟨hlo, hrec⟩ := mem_slackRecords (by omega) hslack
      rw [if_neg (by omega)]
      exact hrec
  · rename_i hnone
    obtain ⟨hlo, hrec⟩ := mem_slackRecords (by omega) h
    rw [if_neg]
    · exact hrec
    · -- what is no record at the head is none in slack either
      intro hhead
      obtain rfl : x.1 = c := by omega
      obtain ⟨record, hrecord⟩ := exists_recordOf hrec x.1 .unallocatedCell
      exact absurd (hnone.symm.trans hrecord) (by simp)

/-- A record anywhere in a free cell is found, with its source. -/
theorem mem_cellRecords_of_free {abs : Nat} {record : RecoveredCell}
    (hfree : (cellAt data c).isAllocated = false) (hlo : c + 4 ≤ abs)
    (h : recordOf (bytesAt data abs (stop - abs)) (abs - 4) (sourceIn c abs) = some record) :
    (abs - 4, record) ∈ cellRecords data c stop := by
  have hstarts : startsRecord data stop abs = true :=
    Option.isSome_iff_exists.mpr (exists_recordOf h _ _)
  have hlive : (cellAt data c).isAllocated = true → c + 6 ≤ abs := fun halloc => by
    rw [hfree] at halloc
    cases halloc
  obtain ⟨found, hfound⟩ := exists_mem_cellRecords hlo hlive hstarts
  have hrec := recordOf_of_mem_cellRecords hfree hfound
  dsimp only at hrec
  rw [show abs - 4 + 4 = abs by omega, h] at hrec
  obtain rfl := Option.some.inj hrec
  exact hfound

end Cell

/-- A record in a free cell is found when the scan cap is not reached before its bin. -/
theorem mem_hiveRecords_of_free {hive : Hive} {bin : HbinDescriptor} {c abs : Nat}
    {record : RecoveredCell} (henc : Encloses hive bin c abs)
    (hfree : (cellAt hive.data c).isAllocated = false)
    (h : recordOf (bytesAt hive.data abs (cellEnd hive.data bin c - abs)) (abs - 4)
      (sourceIn c abs) = some record) : (abs - 4, record) ∈ hiveRecords hive := by
  obtain ⟨before, after, hbins, hcap⟩ := henc.reached
  exact mem_binsRecords_iff.mpr ⟨before, bin, after, hbins, by omega,
    mem_binRecords_iff.mpr ⟨c, henc.cell.onChain, henc.cell.field_inside, henc.cell.size_min,
      mem_cellRecords_of_free hfree henc.behind_field h⟩⟩

/-! ## The overwritten buffer -/

/-- A cell on the chain with room for a cell is handled by the walk. -/
theorem cellOf_of_room {data : Bytes} {bin : HbinDescriptor} {c : Nat}
    (hchain : OnChain data c (bin.fileOffset + 32)) (hroom : c + minCellSize ≤ cellEnd data bin c) :
    CellOf data bin c := by
  have hmin : minCellSize = 8 := rfl
  have hbin : cellEnd data bin c ≤ binEnd data bin := Nat.min_le_right _ _
  obtain ⟨hcell, _, _⟩ := cellEnd_le data bin c
  exact ⟨hchain, by omega, by omega⟩

namespace ChangedIn

variable {data data' : Bytes} {lo hi c : Nat}

/-- The end of a cell in front of the planted bytes stays where it was. -/
theorem cellEnd_eq (h : ChangedIn data data' lo hi) (bin : HbinDescriptor) (hc : c + 4 ≤ lo) :
    cellEnd data' bin c = cellEnd data bin c := by
  unfold cellEnd
  rw [h.cellAt_eq (Or.inl hc), h.binEnd_eq]

/-- The walk comes to a cell before the changed bytes as it did. -/
theorem cellOf (h : ChangedIn data data' lo hi) {bin : HbinDescriptor} (hc : c + 4 ≤ lo)
    (hcell : CellOf data bin c) : CellOf data' bin c := by
  refine ⟨h.onChain (by omega) hcell.onChain, ?_, ?_⟩
  · rw [h.binEnd_eq]
    exact hcell.field_inside
  · rw [h.cellAt_eq (Or.inl hc)]
    exact hcell.size_min

end ChangedIn

section Patch

variable {data bs : Bytes} {p : Nat} (hin : p + bs.length ≤ data.length)

include hin

/-- Planting bytes changes their range only. -/
theorem changedIn_patch : ChangedIn data (patch data p bs) p (p + bs.length) :=
  ⟨length_patch hin, fun i hi => by rw [getElem?_patch hin, if_neg (by omega)]⟩

/-- The record stands where it was written. -/
theorem Plantable.recordOf_patch {report : UInt32 → RecoverySource → Confidence → RecoveredCell}
    (h : Plantable bs report) {stop : Nat} (hstop : p + bs.length ≤ stop) (pos : Nat)
    (source : RecoverySource) : recordOf (bytesAt (patch data p bs) p (stop - p)) pos source =
      some (report (toU32OrMax pos) source (confidenceOf source)) := by
  rw [show stop - p = bs.length + (stop - (p + bs.length)) by omega, bytesAt_add,
    bytesAt_patch_self hin]
  exact h.recordOf_append _ pos source

end Patch

/-- **Planted records are found wherever they lie in free space.**  Take a hive below 4 GiB and a
    free cell on the cell chain of one of its bins.  Overwrite bytes of the body of the cell, from
    any position on, by a complete record that passes the checks of the carver.  The hive opens
    again, with the same bins, and if no cap is reached before, carving returns exactly one record
    four bytes before that position: the planted one, from the unallocated cell when it is at the
    head, otherwise from slack.  The planted bytes lie within the body of one cell, so all size
    fields and headers are read as before, and the scan of that one body meets the record. -/
theorem planted_recovered {data planted : Bytes} {hive : Hive} {bin : HbinDescriptor} {f p : Nat}
    {report : UInt32 → RecoverySource → Confidence → RecoveredCell}
    (hopen : Hive.fromBytes data = .ok hive) (hlen : data.length < 2 ^ 32)
    (hbin : bin ∈ hive.bins) (hchain : OnChain data f (bin.fileOffset + 32))
    (hfree : (cellAt data f).isAllocated = false) (hplant : Plantable planted report)
    (hp : f + 4 ≤ p) (hfits : p + planted.length ≤ cellEnd data bin f) :
    ∃ hive' records, Hive.fromBytes (patch data p planted) = .ok hive' ∧
      hive'.bins = hive.bins ∧ recoverDeleted hive' = .ok records ∧
      (Reached hive' bin →
        (records.filter fun r => r.fileOffset.toNat < p - 4).length < maxRecoveries →
        (records.filter fun r => r.fileOffset.toNat = p - 4) =
          [if p = f + 4 then report (UInt32.ofNat (p - 4)) .unallocatedCell .high
            else report (UInt32.ofNat (p - 4)) .slack .medium]) := by
  have hmin : minCellSize = 8 := rfl
  have hrecord := hplant.length_ge
  have hstart := hchain.le
  obtain ⟨_, hbinEnd, hbuffer⟩ := cellEnd_le data bin f
  have hin : p + planted.length ≤ data.length := by omega
  have hchanged := changedIn_patch hin
  -- the overwritten buffer
  obtain ⟨before, after, hbins⟩ := List.append_of_mem hbin
  obtain ⟨hive', hopen', hdata', hbins'⟩ :=
    hchanged.fromBytes hopen hbins (by omega) (by omega)
  obtain ⟨haccepted', _⟩ := Hive.fromBytes_accepted hopen'
  refine ⟨hive', _, hopen', hbins', recoverDeleted_eq hive', fun hreached hcap => ?_⟩
  -- the free cell and the planted record in it
  rw [← hdata'] at hchanged
  have hcell := hchanged.cellOf hp (cellOf_of_room hchain (by omega))
  have hcellEnd := hchanged.cellEnd_eq bin hp
  have hfree' : (cellAt hive'.data f).isAllocated = false := by
    rw [hchanged.cellAt_eq (Or.inl hp)]
    exact hfree
  have henc : Encloses hive' bin f p := ⟨hreached, hcell, hp, by omega⟩
  have hrec := hplant.recordOf_patch hin hfits (p - 4) (sourceIn f p)
  rw [← hdata', ← hcellEnd] at hrec
  have hoffset : toU32OrMax (p - 4) = UInt32.ofNat (p - 4) := if_pos (by omega)
  have hreport : report (toU32OrMax (p - 4)) (sourceIn f p) (confidenceOf (sourceIn f p)) =
      if p = f + 4 then report (UInt32.ofNat (p - 4)) .unallocatedCell .high
      else report (UInt32.ofNat (p - 4)) .slack .medium := by
    rw [hoffset, sourceIn]
    split <;> rfl
  obtain ⟨found, more, hall⟩ := List.append_of_mem (mem_hiveRecords_of_free henc hfree' hrec)
  have hasc := hiveRecords_ascending haccepted'
  rw [hall] at hasc hcap ⊢
  rw [← hreport]
  exact filter_take_of_ascending hasc (by omega) hcap

/-- A value `V` planted into the slack of the free cell of `A`. -/
theorem planted_recovered_value :
    ∃ hive' records, Hive.fromBytes (patch (oneBinImage 32 (keyCells 88)) 4260
        (vkRecordBytes 0x80000004 0x2A 4 [0x56])) = .ok hive' ∧
      recoverDeleted hive' = .ok records ∧
      (records.filter fun r => r.fileOffset.toNat = 4256) =
        [.value ⟨['V'], 4, [0x2A, 0, 0, 0], 4256, false, .slack, .medium⟩] := by
  have hcells := length_keyCells 88
  have hlen := length_oneBinImage 32 (show (keyCells 88).length ≤ 4064 by omega)
  have hplant := @Plantable.value (bytesAt (vkRecordBytes 0x80000004 0x2A 4 [0x56]) 2 19)
    ⟨1, 0x80000004, 0x2A, .dword, ⟨1⟩, [0x56]⟩ (by decide) (by decide) (Or.inr (by decide))
  have hchain : OnChain (oneBinImage 32 (keyCells 88)) (4128 + 80) 4128 :=
    onChain_oneBin (-80) (by decide) rfl (by omega) (by omega) (by omega)
  obtain ⟨hcell, _, hend⟩ := @cellEnd_oneBin (keyCells 88) 80 88 88 (by omega) (by decide)
    (by omega) (by omega) rfl (by omega) (by omega)
  have hfree : (cellAt (oneBinImage 32 (keyCells 88)) 4208).isAllocated = false := by
    rw [show (4208 : Nat) = 4128 + 80 from rfl, hcell]
    decide
  obtain ⟨hive', records, hopen, hbins, hcarve, hone⟩ := @planted_recovered _ _ _ ⟨0, 4096, 4096⟩
    4208 4260 _ (Hive.fromBytes_oneBinImage (by omega)) (by omega) (List.mem_singleton_self _)
    hchain hfree hplant (by omega) (show 4260 + 21 ≤ _ from hend ▸ by decide)
  refine ⟨hive', records, hopen, hcarve, ?_⟩
  have hreached : Reached hive' ⟨0, 4096, 4096⟩ := ⟨[], [], hbins, show 0 < maxScanBytes by decide⟩
  have hshort : (patch (oneBinImage 32 (keyCells 88)) 4260
      (vkRecordBytes 0x80000004 0x2A 4 [0x56])).length < 2 ^ 32 := by
    rw [length_patch (show 4260 + 21 ≤ _ by omega)]
    omega
  obtain ⟨_, hcarve', _, hsorted⟩ := recoverDeleted_sound hopen hshort
  obtain rfl : records = _ := Exec.ok.inj (hcarve.symm.trans hcarve')
  have hfew := length_filter_lt_le hsorted (4260 - 4)
  have hmax : maxRecoveries = 100000 := rfl
  exact hone hreached (by omega)

end Carve

end Winreg
