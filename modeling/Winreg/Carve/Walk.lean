/-
  THE CARVING WALK as a list.

  The walk is three nested loops with a cap on what they push.  Without the cap it is a list of
  records with their positions, built bin by bin and cell by cell.

  1. **Uncapped walk** — `slackRecords`, `cellRecords`, `binRecords`, `binsRecords`: the records
     each loop finds, in order, each with the position of its cell's size field.
  2. **The loops** — each loop appends its records up to the cap; so `recoverDeleted` returns
     the first `maxRecoveries` records of the uncapped walk (`recoverDeleted_eq`).  No access is out
     of range and every loop comes to an end.
  3. **Positions** — they are strictly increasing, across heads and sweeps, cells and bins.  So no
     position is reported twice (`recoverDeleted_sound`).
-/
import Winreg.Carve.Recover
import Winreg.Core.Image

namespace Winreg

open Rust

namespace Carve

/-! ## Uncapped walk -/

/-- The record in a region that starts with its signature. -/
def recordOf (region : Bytes) (cellOffset : Nat) (source : RecoverySource) :
    Option RecoveredCell :=
  match region with
  | b0 :: b1 :: afterSig => recordFrom b0 b1 afterSig (toU32OrMax cellOffset) false source
  | _ => none

/-- The two letters of a key record. -/
theorem signature_keyNode_iff {b0 b1 : UInt8} :
    CellSignature.fromBytes b0 b1 = some .keyNode ↔ b0 = 0x6E ∧ b1 = 0x6B := by
  refine ⟨fun h => ?_, fun h => if_pos h⟩
  by_contra hother
  unfold CellSignature.fromBytes at h
  rw [if_neg hother] at h
  split_ifs at h <;> cases h

/-- The two letters of a value record. -/
theorem signature_keyValue_iff {b0 b1 : UInt8} :
    CellSignature.fromBytes b0 b1 = some .keyValue ↔ b0 = 0x76 ∧ b1 = 0x6B := by
  constructor
  · intro h
    by_contra hother
    unfold CellSignature.fromBytes at h
    simp only [if_neg hother] at h
    split_ifs at h <;> cases h
  · rintro ⟨rfl, rfl⟩
    decide

/-- The record of a plausible key. -/
def keyRecord (nk : RawKeyNode) (cellOffset : Nat) (source : RecoverySource) : RecoveredCell :=
  .key ⟨nk.keyName, nk.lastWritten, nk.parent.val, toU32OrMax cellOffset, false, source,
    confidenceOf source⟩

/-- The record of a plausible value. -/
def valueRecord (vk : RawKeyValue) (cellOffset : Nat) (source : RecoverySource) : RecoveredCell :=
  .value ⟨vk.valueName, valueTypeRaw vk.dataType, if vk.isResident then vk.inlineData else [],
    toU32OrMax cellOffset, false, source, confidenceOf source⟩

/-- What is recovered of a key record, and when. -/
theorem recoverKey_eq_some_iff {nk : RawKeyNode} {cellOffset : Nat} {source : RecoverySource}
    {record : RecoveredCell} :
    recoverKey nk (toU32OrMax cellOffset) false source = some record ↔
      nkIsPlausible nk = true ∧ nameIsPlausible nk.keyName = true ∧
        record = keyRecord nk cellOffset source := by
  unfold recoverKey
  cases hchecks : nkIsPlausible nk
  · simp
  · cases hname : nameIsPlausible nk.keyName
    · simp [hname]
    · simpa [hname, keyRecord] using eq_comm

/-- The default value has no name to check. -/
theorem recoverValue_eq_some_iff {vk : RawKeyValue} {cellOffset : Nat} {source : RecoverySource}
    {record : RecoveredCell} :
    recoverValue vk (toU32OrMax cellOffset) false source = some record ↔
      vkIsPlausible vk = true ∧ (vk.valueName = [] ∨ nameIsPlausible vk.valueName = true) ∧
        record = valueRecord vk cellOffset source := by
  unfold recoverValue
  cases hchecks : vkIsPlausible vk
  · simp
  · by_cases hempty : vk.valueName = []
    · simpa [hempty, valueRecord] using eq_comm
    · cases hname : nameIsPlausible vk.valueName
      · simp [hname, hempty]
      · simpa [hname, hempty, valueRecord] using eq_comm

/-- **What a record is**: a parsed `nk` or `vk` that passes the checks. -/
theorem recordOf_eq_some_iff {region : Bytes} {cellOffset : Nat} {source : RecoverySource}
    {record : RecoveredCell} : recordOf region cellOffset source = some record ↔
      (∃ afterSig nk, region = 0x6E :: 0x6B :: afterSig ∧ RawKeyNode.parse afterSig = some nk ∧
        nkIsPlausible nk = true ∧ nameIsPlausible nk.keyName = true ∧
        record = keyRecord nk cellOffset source) ∨
      (∃ afterSig vk, region = 0x76 :: 0x6B :: afterSig ∧ RawKeyValue.parse afterSig = some vk ∧
        vkIsPlausible vk = true ∧ (vk.valueName = [] ∨ nameIsPlausible vk.valueName = true) ∧
        record = valueRecord vk cellOffset source) := by
  constructor
  · intro h
    unfold recordOf at h
    split at h
    · rename_i b0 b1 afterSig
      unfold recordFrom at h
      split at h
      · rename_i hsig
        obtain ⟨rfl, rfl⟩ := signature_keyNode_iff.mp hsig
        obtain ⟨nk, hparse, hnk⟩ := Option.bind_eq_some_iff.mp h
        exact Or.inl ⟨afterSig, nk, rfl, hparse, recoverKey_eq_some_iff.mp hnk⟩
      · rename_i hsig
        obtain ⟨rfl, rfl⟩ := signature_keyValue_iff.mp hsig
        obtain ⟨vk, hparse, hvk⟩ := Option.bind_eq_some_iff.mp h
        exact Or.inr ⟨afterSig, vk, rfl, hparse, recoverValue_eq_some_iff.mp hvk⟩
      · cases h
    · cases h
  · have hnk := signature_keyNode_iff.mpr ⟨rfl, rfl⟩
    have hvk := signature_keyValue_iff.mpr ⟨rfl, rfl⟩
    rintro (⟨afterSig, nk, rfl, hparse, hchecks⟩ | ⟨afterSig, vk, rfl, hparse, hchecks⟩)
    · unfold recordOf recordFrom
      dsimp only
      rw [hnk]
      exact Option.bind_eq_some_iff.mpr ⟨nk, hparse, recoverKey_eq_some_iff.mpr hchecks⟩
    · unfold recordOf recordFrom
      dsimp only
      rw [hvk]
      exact Option.bind_eq_some_iff.mpr ⟨vk, hparse, recoverValue_eq_some_iff.mpr hchecks⟩

/-- A record with the position of its cell. -/
abbrev Found := Nat × RecoveredCell

/-- The record of an orphaned signature at `abs`, found in the slack that ends at `stop`. -/
def slackRecord (data : Bytes) (stop abs : Nat) : Option Found :=
  (recordOf (bytesAt data abs (stop - abs)) (abs - 4) .slack).map (abs - 4, ·)

/-- The records in the slack `[start, stop)`. -/
def slackRecords (data : Bytes) (start stop : Nat) : List Found :=
  (List.range' start (stop - 1 - start)).filterMap (slackRecord data stop)

/-- The record at the head of a free cell. -/
def headRecord (data : Bytes) (pos cellEnd : Nat) : Option RecoveredCell :=
  recordOf (bytesAt data (pos + 4) (cellEnd - (pos + 4))) pos .unallocatedCell

/-- The size field of the cell at a position. -/
def cellAt (data : Bytes) (pos : Nat) : CellHeader := ⟨i32At data pos⟩

/-- The records found in one cell. -/
def cellRecords (data : Bytes) (pos cellEnd : Nat) : List Found :=
  if (cellAt data pos).isAllocated then slackRecords data (pos + 6) cellEnd
  else
    match headRecord data pos cellEnd with
    | some record => (pos, record) :: slackRecords data (pos + 6) cellEnd
    | none => slackRecords data (pos + 4) cellEnd

/-- The records found in the cells of a bin from a position on. -/
def binRecords (data : Bytes) (stop pos : Nat) : List Found :=
  if pos + 4 ≤ stop ∧ minCellSize ≤ (cellAt data pos).size then
    cellRecords data pos (min (pos + (cellAt data pos).size) stop) ++
      binRecords data stop (pos + (cellAt data pos).size)
  else []
termination_by stop - pos
decreasing_by
  rename_i h
  have : minCellSize = 8 := rfl
  omega

/-- The records found in the bins while the scan cap is not reached. -/
def binsRecords (data : Bytes) : List HbinDescriptor → Nat → List Found
  | [], _ => []
  | bin :: bins, scanned =>
    if scanned ≥ maxScanBytes then []
    else if bin.fileOffset + 32 ≥ binEnd data bin then binsRecords data bins scanned
    else binRecords data (binEnd data bin) (bin.fileOffset + 32) ++
      binsRecords data bins (scanned + (binEnd data bin - (bin.fileOffset + 32)))

/-! ## The loops -/

/-- Append records up to the cap. -/
def capped (out : List RecoveredCell) (found : List Found) : List RecoveredCell :=
  (out ++ found.map (·.2)).take maxRecoveries

/-- The cap is kept. -/
theorem length_capped_le (out : List RecoveredCell) (found : List Found) :
    (capped out found).length ≤ maxRecoveries := List.length_take_le _ _

/-- Without new records nothing changes below the cap. -/
theorem capped_nil {out : List RecoveredCell} (h : out.length ≤ maxRecoveries) :
    capped out [] = out := by
  unfold capped
  rw [List.map_nil, List.append_nil, List.take_of_length_le h]

/-- Nothing is appended once the cap is reached. -/
theorem capped_of_full {out : List RecoveredCell} (h : out.length = maxRecoveries)
    (found : List Found) : capped out found = out := by
  unfold capped
  rw [← h, List.take_left]

/-- Appending in two steps is appending at once. -/
theorem capped_capped (out : List RecoveredCell) (found more : List Found) :
    capped (capped out found) more = capped out (found ++ more) := by
  have htake : ∀ xs ys : List RecoveredCell,
      (xs.take maxRecoveries ++ ys).take maxRecoveries = (xs ++ ys).take maxRecoveries := by
    intro xs ys
    have hrest : maxRecoveries - min maxRecoveries xs.length = maxRecoveries - xs.length := by omega
    rw [List.take_append, List.take_append, List.take_take, Nat.min_self, List.length_take, hrest]
  unfold capped
  rw [htake, List.map_append, List.append_assoc]

/-- Records are taken one after the other until the cap. -/
theorem capped_cons (out : List RecoveredCell) (f : Found) (found : List Found) :
    capped out (f :: found) = capped (out ++ [f.2]) found := by
  unfold capped
  rw [List.map_cons, List.append_assoc, List.singleton_append]

/-- The first two bytes of a region, and the rest of it. -/
theorem bytesAt_eq_cons_cons {data : Bytes} {pos stop : Nat} (hpos : pos + 2 ≤ stop)
    (hstop : stop ≤ data.length) : bytesAt data pos (stop - pos) =
      data[pos] :: data[pos + 1] :: bytesAt data (pos + 2) (stop - (pos + 2)) := by
  unfold bytesAt
  have hn : stop - pos = stop - (pos + 2) + 1 + 1 := by omega
  rw [List.drop_eq_getElem_cons (by omega), List.drop_eq_getElem_cons (by omega), hn,
    List.take_succ_cons, List.take_succ_cons]

/-- Parsing a record never aborts: the reads are inside the region that was checked. -/
theorem tryRecord_eq {data : Bytes} {bodyStart regionEnd cellOffset : Nat}
    (h : regionEnd ≤ data.length) (source : RecoverySource) :
    tryRecord data bodyStart regionEnd cellOffset false source =
      .ok (recordOf (bytesAt data bodyStart (regionEnd - bodyStart)) cellOffset source) := by
  unfold tryRecord
  by_cases hshort : bodyStart + 2 > regionEnd
  · rw [if_pos (Or.inl hshort)]
    have hlen : (bytesAt data bodyStart (regionEnd - bodyStart)).length ≤ 1 := by
      rw [length_bytesAt]; omega
    match hb : bytesAt data bodyStart (regionEnd - bodyStart) with
    | [] => rfl
    | [_] => rfl
    | _ :: _ :: _ => rw [hb] at hlen; simp at hlen
  · have hregion := bytesAt_eq_cons_cons (show bodyStart + 2 ≤ regionEnd by omega) h
    rw [if_neg (by omega), index_eq_ok (by omega), index_eq_ok (by omega), Exec.ok_bind,
      Exec.ok_bind, getRange_eq_some (by omega) h, hregion]
    rfl

/-- Bytes without one of the two signatures are no record. -/
theorem recordOf_eq_none {b0 b1 : UInt8} (h : isRecordSignature b0 b1 = false) (rest : Bytes)
    (cellOffset : Nat) (source : RecoverySource) :
    recordOf (b0 :: b1 :: rest) cellOffset source = none := by
  refine Option.eq_none_iff_forall_ne_some.mpr fun record hrecord => ?_
  rcases recordOf_eq_some_iff.mp hrecord with ⟨_, _, hregion, _⟩ | ⟨_, _, hregion, _⟩
  · obtain ⟨rfl, hrest⟩ := List.cons.inj hregion
    obtain ⟨rfl, _⟩ := List.cons.inj hrest
    exact absurd h (by decide)
  · obtain ⟨rfl, hrest⟩ := List.cons.inj hregion
    obtain ⟨rfl, _⟩ := List.cons.inj hrest
    exact absurd h (by decide)

theorem index_bytesAt {data : Bytes} {off n i : Nat} (hi : i < n) (h : off + i < data.length) :
    (index (bytesAt data off n) i : Exec HiveError UInt8) = .ok data[off + i] := by
  unfold index
  rw [getElem?_bytesAt, if_pos hi, List.getElem?_eq_getElem h]

/-- One pass of the byte scan looks at one position. -/
theorem scanSlackPass_eq {data : Bytes} {start stop i : Nat} {out : List RecoveredCell}
    (hstop : stop ≤ data.length) (hi : start + i + 2 ≤ stop) (hout : out.length < maxRecoveries) :
    scanSlackPass data (bytesAt data start (stop - start)) start stop ⟨i, out⟩ =
      .ok (.again ⟨i + 1, capped out (slackRecord data stop (start + i)).toList⟩) := by
  have hlen : (bytesAt data start (stop - start)).length = stop - start :=
    length_bytesAt_of_le (by omega)
  have hkeep : capped out [] = out := capped_nil hout.le
  unfold scanSlackPass slackRecord
  dsimp only
  rw [if_pos ⟨by omega, hout⟩, index_bytesAt (by omega) (by omega),
    index_bytesAt (by omega) (by omega), Exec.ok_bind, Exec.ok_bind, tryRecord_eq hstop,
    Exec.ok_bind]
  by_cases hsig : isRecordSignature data[start + i] data[start + (i + 1)] = true
  · rw [if_pos hsig]
    cases recordOf (bytesAt data (start + i) (stop - (start + i))) (start + i - 4) .slack with
    | none =>
      show Exec.ok (Exec.Pass.again (ScanState.mk (i + 1) out)) =
        Exec.ok (Exec.Pass.again (ScanState.mk (i + 1) (capped out [])))
      rw [hkeep]
    | some record =>
      have hpush : capped out [(start + i - 4, record)] = out ++ [record] := by
        rw [capped_cons, capped_nil (by rw [List.length_append]; exact hout)]
      show Exec.ok (Exec.Pass.again (ScanState.mk (i + 1) (out ++ [record]))) =
        Exec.ok (Exec.Pass.again (ScanState.mk (i + 1) (capped out [(start + i - 4, record)])))
      rw [hpush]
  · have hnone : isRecordSignature data[start + i] data[start + i + 1] = false :=
      Bool.eq_false_iff.mpr hsig
    rw [if_neg hsig, bytesAt_eq_cons_cons hi hstop, recordOf_eq_none hnone]
    show Exec.ok (Exec.Pass.again (ScanState.mk (i + 1) out)) =
      Exec.ok (Exec.Pass.again (ScanState.mk (i + 1) (capped out [])))
    rw [hkeep]

/-- The rest of the byte scan from a position. -/
theorem loop_scanSlackPass {data : Bytes} {start stop : Nat} (hstop : stop ≤ data.length) :
    ∀ (n i : Nat) (out : List RecoveredCell), out.length ≤ maxRecoveries →
      stop - start - i < n →
      Exec.loop (scanSlackPass data (bytesAt data start (stop - start)) start stop) n ⟨i, out⟩ =
        .ok (capped out (slackRecords data (start + i) stop)) := by
  intro n
  induction n with
  | zero => intro i out _ hn; exact absurd hn (Nat.not_lt_zero _)
  | succ n ih =>
    intro i out hout hn
    -- the condition of the loop fails: too near to the end, or enough records
    have hleave : ∀ r, ¬ (i + 2 ≤ (bytesAt data start (stop - start)).length ∧
        out.length < maxRecoveries) → out = r →
        Exec.loop (scanSlackPass data (bytesAt data start (stop - start)) start stop) (n + 1)
          ⟨i, out⟩ = .ok r := fun r hcond hr => Exec.loop_leave (hr ▸ if_neg hcond) n
    rcases Nat.lt_or_ge out.length maxRecoveries with hroom | hfull
    · rcases Nat.lt_or_ge (start + i + 1) stop with hi | hend
      · -- a position inside the slack: the scan goes on behind it
        have hcons : slackRecords data (start + i) stop =
            (slackRecord data stop (start + i)).toList ++
              slackRecords data (start + (i + 1)) stop := by
          unfold slackRecords
          have hrange : stop - 1 - (start + i) = stop - 1 - (start + (i + 1)) + 1 := by omega
          rw [hrange, List.range'_succ, List.filterMap_cons]
          cases slackRecord data stop (start + i) <;> rfl
        rw [Exec.loop_again (scanSlackPass_eq hstop (by omega) hroom),
          ih (i + 1) _ (length_capped_le _ _) (by omega), capped_capped, ← hcons]
      · -- no two bytes are left for a signature
        have hnil : slackRecords data (start + i) stop = [] := by
          unfold slackRecords
          rw [show stop - 1 - (start + i) = 0 by omega]
          rfl
        have hlen : (bytesAt data start (stop - start)).length ≤ stop - start := by
          rw [length_bytesAt]; exact Nat.min_le_left _ _
        exact hleave _ (fun h => by omega) (by rw [hnil, capped_nil hout])
    · exact hleave _ (fun h => absurd h.2 (by omega)) (capped_of_full (by omega) _).symm

/-- **Sweeping slack** appends the records in the slack. -/
theorem scanSlack_eq {data : Bytes} {start stop : Nat} {out : List RecoveredCell}
    (hstop : stop ≤ data.length) (hout : out.length ≤ maxRecoveries) :
    scanSlack data start stop out = .ok (capped out (slackRecords data start stop)) := by
  unfold scanSlack
  by_cases h : start ≥ stop
  · have hnil : slackRecords data start stop = [] := by
      unfold slackRecords
      rw [show stop - 1 - start = 0 by omega]
      rfl
    rw [if_pos (Or.inl h), hnil, capped_nil hout]
  · rw [if_neg (by omega), slice_eq_ok (by omega) hstop, Exec.ok_bind]
    have hlen : (bytesAt data start (stop - start)).length = stop - start :=
      length_bytesAt_of_le (by omega)
    exact loop_scanSlackPass hstop _ 0 out hout (by omega)

/-- A size field within the file is read as it stands. -/
theorem readI32_eq {data : Bytes} {pos : Nat} (h : pos + 4 ≤ data.length) :
    (⟨readI32 data pos⟩ : CellHeader) = cellAt data pos := by
  unfold readI32 cellAt
  rw [getRange_eq_some (by omega) h, Nat.add_sub_cancel_left]
  exact congrArg _ (i32At_congr (bytesAt_bytesAt (by omega)))

/-- One pass of the walk handles one cell. -/
theorem scanBinPass_eq {data : Bytes} {stop pos : Nat} {out : List RecoveredCell}
    (hstop : stop ≤ data.length) (hpos : pos + 4 ≤ stop)
    (hsize : minCellSize ≤ (cellAt data pos).size) (hout : out.length < maxRecoveries) :
    scanBinPass data stop ⟨pos, out⟩ =
      .ok (.again ⟨pos + (cellAt data pos).size,
        capped out (cellRecords data pos (min (pos + (cellAt data pos).size) stop))⟩) := by
  have hend : min (pos + (cellAt data pos).size) stop ≤ data.length :=
    Nat.le_trans (Nat.min_le_right _ _) hstop
  unfold scanBinPass cellRecords
  dsimp only
  rw [if_pos ⟨hpos, hout⟩, readI32_eq (by omega), if_neg (by omega)]
  by_cases halloc : (cellAt data pos).isAllocated = true
  · rw [if_pos halloc, if_pos halloc, scanSlack_eq hend hout.le, Exec.ok_bind]
  · rw [if_neg halloc, if_neg halloc, tryRecord_eq hend, Exec.ok_bind]
    generalize hhead : recordOf (bytesAt data (pos + 4) (min (pos + (cellAt data pos).size) stop -
      (pos + 4))) pos .unallocatedCell = head
    rw [show headRecord data pos (min (pos + (cellAt data pos).size) stop) = head from hhead]
    cases head with
    | none =>
      dsimp only [Option.isSome_none, Option.toList_none]
      rw [List.append_nil, if_neg (by decide), scanSlack_eq hend hout.le, Exec.ok_bind]
    | some record =>
      dsimp only [Option.isSome_some, Option.toList_some]
      rw [if_pos rfl, scanSlack_eq hend (by rw [List.length_append]; exact hout), Exec.ok_bind,
        capped_cons]

/-- The rest of the walk from a position. -/
theorem loop_scanBinPass {data : Bytes} {stop : Nat} (hstop : stop ≤ data.length) :
    ∀ (n pos : Nat) (out : List RecoveredCell), out.length ≤ maxRecoveries → stop - pos < n →
      Exec.loop (scanBinPass data stop) n ⟨pos, out⟩ =
        .ok (capped out (binRecords data stop pos)) := by
  intro n
  induction n with
  | zero => intro pos out _ hn; exact absurd hn (Nat.not_lt_zero _)
  | succ n ih =>
    intro pos out hout hn
    have hmin : minCellSize = 8 := rfl
    rcases Nat.lt_or_ge out.length maxRecoveries with hroom | hfull
    · by_cases hcell : pos + 4 ≤ stop ∧ minCellSize ≤ (cellAt data pos).size
      · rw [Exec.loop_again (scanBinPass_eq hstop hcell.1 hcell.2 hroom),
          ih _ _ (length_capped_le _ _) (by omega), capped_capped]
        conv_rhs => rw [binRecords, if_pos hcell]
      · -- the chain ends: no room for a size field, or a size that would not advance
        rw [binRecords, if_neg hcell, capped_nil hout]
        refine Exec.loop_leave ?_ n
        unfold scanBinPass
        dsimp only
        by_cases hpos : pos + 4 ≤ stop
        · rw [if_pos ⟨hpos, hroom⟩, readI32_eq (by omega), if_pos (by omega)]
        · exact if_neg fun h => hpos h.1
    · have hleave : scanBinPass data stop ⟨pos, out⟩ = .ok (.leave out) :=
        if_neg fun h => absurd h.2 (Nat.not_lt.mpr hfull)
      rw [capped_of_full (by omega), Exec.loop_leave hleave]

/-- **Walking a bin** appends the records in its cells. -/
theorem scanBin_eq {data : Bytes} {start stop : Nat} {out : List RecoveredCell}
    (hstop : stop ≤ data.length) (hout : out.length ≤ maxRecoveries) :
    scanBin data start stop out = .ok (capped out (binRecords data stop start)) :=
  loop_scanBinPass hstop _ start out hout (by omega)

/-- **Walking the bins** appends the records in them. -/
theorem scanBins_eq (data : Bytes) : ∀ (bins : List HbinDescriptor) (scanned : Nat)
    (out : List RecoveredCell), out.length ≤ maxRecoveries →
      scanBins data bins scanned out = .ok (capped out (binsRecords data bins scanned)) := by
  intro bins
  induction bins with
  | nil => intro scanned out hout; exact congrArg Exec.ok (capped_nil hout).symm
  | cons bin bins ih =>
    intro scanned out hout
    rw [scanBins]
    rcases Nat.lt_or_ge out.length maxRecoveries with hroom | hfull
    · by_cases hscan : scanned ≥ maxScanBytes
      · rw [if_pos (Or.inr hscan), binsRecords, if_pos hscan, capped_nil hout]
      · rw [if_neg (by omega), binsRecords, if_neg hscan]
        dsimp only
        by_cases hempty : bin.fileOffset + 32 ≥ binEnd data bin
        · rw [if_pos hempty, if_pos hempty, ih _ _ hout]
        · have hend : binEnd data bin ≤ data.length := Nat.min_le_right _ _
          rw [if_neg hempty, if_neg hempty, scanBin_eq hend hout, Exec.ok_bind,
            ih _ _ (length_capped_le _ _), capped_capped]
    · rw [if_pos (Or.inl hfull), capped_of_full (by omega)]

/-- The records of the uncapped walk over a hive. -/
def hiveRecords (hive : Hive) : List Found := binsRecords hive.data hive.bins 0

/-- **Carving returns the first records of the uncapped walk.** -/
theorem recoverDeleted_eq (hive : Hive) :
    recoverDeleted hive = .ok (((hiveRecords hive).map (·.2)).take maxRecoveries) :=
  scanBins_eq hive.data hive.bins 0 [] (Nat.zero_le _)

/-! ## Positions -/

/-- Records at strictly ascending positions in `[lo, hi)`, each with its position as its file
    offset. -/
structure Ascending (lo hi : Nat) (found : List Found) : Prop where
  sorted : found.Pairwise fun a b => a.1 < b.1
  bounds : ∀ a ∈ found, lo ≤ a.1 ∧ a.1 < hi
  placed : ∀ a ∈ found, a.2.fileOffset = toU32OrMax a.1

theorem Ascending.nil (lo hi : Nat) : Ascending lo hi [] :=
  ⟨.nil, fun _ h => absurd h List.not_mem_nil, fun _ h => absurd h List.not_mem_nil⟩

/-- Wider bounds hold as well. -/
theorem Ascending.mono {lo lo' hi hi' : Nat} {found : List Found} (h : Ascending lo hi found)
    (hlo : lo' ≤ lo) (hhi : hi ≤ hi') : Ascending lo' hi' found :=
  ⟨h.sorted, fun a ha => ⟨Nat.le_trans hlo (h.bounds a ha).1,
    Nat.lt_of_lt_of_le (h.bounds a ha).2 hhi⟩, h.placed⟩

/-- Records of two ranges, the second behind the first. -/
theorem Ascending.append {lo mid mid' hi : Nat} {before after : List Found}
    (hb : Ascending lo mid before) (ha : Ascending mid' hi after) (hmid : mid ≤ mid')
    (hlo : lo ≤ mid') (hhi : mid ≤ hi) : Ascending lo hi (before ++ after) where
  sorted := List.pairwise_append.mpr ⟨hb.sorted, ha.sorted, fun a hamem b hbmem => by
    have h1 := (hb.bounds a hamem).2
    have h2 := (ha.bounds b hbmem).1
    omega⟩
  bounds := by
    intro a hmem
    rcases List.mem_append.mp hmem with h | h
    · have := hb.bounds a h; omega
    · have := ha.bounds a h; omega
  placed := by
    intro a hmem
    rcases List.mem_append.mp hmem with h | h
    · exact hb.placed a h
    · exact ha.placed a h

/-- A record carries the position it was given. -/
theorem fileOffset_recordOf {region : Bytes} {cellOffset : Nat} {source : RecoverySource}
    {record : RecoveredCell} (h : recordOf region cellOffset source = some record) :
    record.fileOffset = toU32OrMax cellOffset := by
  rcases recordOf_eq_some_iff.mp h with ⟨_, _, _, _, _, _, rfl⟩ | ⟨_, _, _, _, _, _, rfl⟩
  · rfl
  · rfl

/-- A sweep reports each position once, in order. -/
theorem slackRecords_ascending {data : Bytes} {start stop : Nat} (hstart : 4 ≤ start) :
    Ascending (start - 4) stop (slackRecords data start stop) := by
  have hmem : ∀ a ∈ slackRecords data start stop, ∃ abs, start ≤ abs ∧ abs + 2 ≤ stop ∧
      slackRecord data stop abs = some a := by
    intro a ha
    obtain ⟨abs, habs, hrec⟩ := List.mem_filterMap.mp ha
    obtain ⟨hlo, hhi⟩ := List.mem_range'_1.mp habs
    exact ⟨abs, hlo, by omega, hrec⟩
  have hpos : ∀ {abs a}, slackRecord data stop abs = some a → a.1 = abs - 4 := by
    intro abs a h
    obtain ⟨record, _, rfl⟩ := Option.map_eq_some_iff.mp h
    rfl
  refine ⟨?_, fun a ha => ?_, fun a ha => ?_⟩
  · unfold slackRecords
    rw [List.pairwise_filterMap]
    refine List.Pairwise.imp_of_mem ?_ (List.pairwise_lt_range' (s := start) _ Nat.one_pos)
    intro abs abs' habs _ hlt a ha b hb
    rw [hpos ha, hpos hb]
    have := (List.mem_range'_1.mp habs).1
    omega
  · obtain ⟨abs, hlo, hhi, hrec⟩ := hmem a ha
    rw [hpos hrec]
    omega
  · obtain ⟨abs, _, _, hrec⟩ := hmem a ha
    obtain ⟨record, hrecord, rfl⟩ := Option.map_eq_some_iff.mp hrec
    exact fileOffset_recordOf hrecord

/-- A head record has at least its signature inside the cell. -/
theorem headRecord_inside {data : Bytes} {pos cellEnd : Nat} {record : RecoveredCell}
    (h : headRecord data pos cellEnd = some record) : pos + 6 ≤ cellEnd := by
  unfold headRecord recordOf at h
  split at h
  · rename_i hregion
    have hlen := congrArg List.length hregion
    rw [length_bytesAt, List.length_cons, List.length_cons] at hlen
    omega
  · cases h

/-- A cell reports its head, if it is free, and then what lies behind it. -/
theorem cellRecords_ascending {data : Bytes} {pos cellEnd : Nat} :
    Ascending pos cellEnd (cellRecords data pos cellEnd) := by
  unfold cellRecords
  split
  · exact (slackRecords_ascending (by omega)).mono (by omega) (Nat.le_refl _)
  · split
    · rename_i record hhead
      have hsweep : Ascending (pos + 2) cellEnd (slackRecords data (pos + 6) cellEnd) :=
        (slackRecords_ascending (by omega)).mono (by omega) (Nat.le_refl _)
      have hone : Ascending pos (pos + 1) [(pos, record)] :=
        ⟨List.pairwise_singleton _ _, by simp, by simpa using fileOffset_recordOf hhead⟩
      have hinside := headRecord_inside hhead
      exact hone.append hsweep (by omega) (by omega) (by omega)
    · exact (slackRecords_ascending (by omega)).mono (by omega) (Nat.le_refl _)

/-- The records of a bin are found in ascending order, since each cell starts where the one before
    ends. -/
theorem binRecords_ascending (data : Bytes) (stop pos : Nat) :
    Ascending pos stop (binRecords data stop pos) := by
  induction pos using binRecords.induct data stop with
  | case1 pos hcell ih =>
    rw [binRecords, if_pos hcell]
    exact cellRecords_ascending.append ih (Nat.min_le_left _ _) (by omega) (Nat.min_le_right _ _)
  | case2 pos hcell =>
    rw [binRecords, if_neg hcell]
    exact .nil _ _

/-- Bins that tile the file report ascending positions. -/
theorem binsRecords_ascending {data : Bytes} {start : Nat} {bins : List HbinDescriptor}
    (h : Tiling data start bins) : ∀ scanned,
      Ascending start data.length (binsRecords data bins scanned) := by
  induction h with
  | nil start => exact fun _ => .nil _ _
  | @cons start bin rest hat _ _ _ _ _ ih =>
    intro scanned
    have hend : binEnd data bin ≤ start + bin.size.toNat ∧ binEnd data bin ≤ data.length :=
      ⟨hat ▸ Nat.min_le_left _ _, Nat.min_le_right _ _⟩
    rw [binsRecords]
    split
    · exact .nil _ _
    · split
      · exact (ih scanned).mono (by omega) (Nat.le_refl _)
      · have hbin : Ascending start (binEnd data bin)
            (binRecords data (binEnd data bin) (bin.fileOffset + 32)) :=
          (binRecords_ascending _ _ _).mono (by omega) (Nat.le_refl _)
        exact hbin.append (ih _) hend.1 (by omega) hend.2

/-- So are those of a hive, since its bins lie side by side. -/
theorem hiveRecords_ascending {hive : Hive} (h : hive.Accepted) :
    Ascending BaseBlock.size hive.data.length (hiveRecords hive) :=
  binsRecords_ascending h.tiling 0

/-- A file offset of 32 bits saturates. -/
theorem toNat_toU32OrMax (n : Nat) : (toU32OrMax n).toNat = min n (2 ^ 32 - 1) := by
  unfold toU32OrMax
  split
  · rename_i h
    rw [UInt32.toNat_ofNat_of_lt' h]
    omega
  · show 4294967295 = _
    omega

/-- **Carving is safe, bounded and free of duplicates**: on an accepted buffer below 4 GiB it
    returns, with at most `maxRecoveries` records, at strictly increasing file offsets.  The walk
    over a bin is related to the list of its records; the list is ascending because cells lie side
    by side, and the cap takes a first part of it. -/
theorem recoverDeleted_sound {data : Bytes} {hive : Hive} (h : Hive.fromBytes data = .ok hive)
    (hlen : data.length < 2 ^ 32) :
    ∃ records, recoverDeleted hive = .ok records ∧ records.length ≤ maxRecoveries ∧
      records.Pairwise fun a b => a.fileOffset < b.fileOffset := by
  obtain ⟨haccepted, hdata⟩ := Hive.fromBytes_accepted h
  have hasc := hiveRecords_ascending haccepted
  rw [hdata] at hasc
  refine ⟨_, recoverDeleted_eq hive, List.length_take_le _ _, List.Pairwise.sublist
    (List.take_sublist _ _) (List.pairwise_map.mpr ?_)⟩
  refine hasc.sorted.imp_of_mem fun {a b} ha hb hab => ?_
  have hbound := (hasc.bounds b hb).2
  rw [hasc.placed a ha, hasc.placed b hb, UInt32.lt_iff_toNat_lt, toNat_toU32OrMax,
    toNat_toU32OrMax]
  omega

/-- The live root and the key `A`, whose cell has this size field. -/
def keyCells (rawSize : Int) : Bytes :=
  cellBytes (-80) (nkRecordBytes 0x20 0 0xFFFFFFFF 0 0xFFFFFFFF []) ++
    cellBytes rawSize (nkRecordBytes 0x20 0 0xFFFFFFFF 0 0xFFFFFFFF [0x41] ++ List.replicate 7 0)

theorem length_keyCells (rawSize : Int) : (keyCells rawSize).length = 168 := by
  have hroot : (nkRecordBytes 0x20 0 0xFFFFFFFF 0 0xFFFFFFFF []).length = 76 := by decide
  have hkey : (nkRecordBytes 0x20 0 0xFFFFFFFF 0 0xFFFFFFFF [0x41]).length = 77 := by decide
  simp only [keyCells, cellBytes, List.length_append, length_i32Bytes, hroot, hkey,
    List.length_replicate]

/-- Carving the hive in which the cell of `A` is free. -/
theorem recoverDeleted_sound_freed :
    ∃ records, recoverDeleted (oneBinHive 32 (keyCells 88)) = .ok records ∧
      records.length ≤ maxRecoveries ∧
      records.Pairwise fun a b => a.fileOffset < b.fileOffset := by
  have hcells := length_keyCells 88
  exact recoverDeleted_sound (Hive.fromBytes_oneBinImage (by omega))
    (by rw [length_oneBinImage 32 (by omega)]; omega)

end Carve

end Winreg
