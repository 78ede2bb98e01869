/-
  THE CAP ON THE BYTES SCANNED.

  The loop over the bins tests the counter before each bin and adds the size of the bin, which the
  file declares, afterwards.  So the last bin may take the total past the cap, by as much as the
  size of a bin.

  1. **The loop with a trace** — `recoverDeletedTraced` is the loop with the regions that it hands
     to `scanBin`; without them it is `recoverDeleted` (`recoverDeletedTraced_erase`).
  2. **The total** — the regions stay within the cap exactly when no bin that the loop comes to
     crosses it (`scanCap_iff`); one bin of 512 MiB and a page crosses it
     (`scanCap_crossed`).
-/
import Winreg.Carve.Deletion

namespace Winreg

open Rust

namespace Carve

/-! ## The loop with a trace -/

/-- A region handed to `scanBin`: its start and its end. -/
abbrev Region := Nat × Nat

/-- The loop over the bins, with the regions that it hands to `scanBin`. -/
def scanBinsTraced (data : Bytes) : List HbinDescriptor → Nat → List RecoveredCell →
    Exec HiveError (List RecoveredCell × List Region)
  | [], _, out => .ok (out, [])
  | bin :: bins, scanned, out =>
    if out.length ≥ maxRecoveries ∨ scanned ≥ maxScanBytes then .ok (out, [])
    else
      let cellsStart := bin.fileOffset + 32
      let stop := binEnd data bin
      if cellsStart ≥ stop then scanBinsTraced data bins scanned out
      else do
        let out ← scanBin data cellsStart stop out
        let (out, regions) ← scanBinsTraced data bins (scanned + (stop - cellsStart)) out
        .ok (out, (cellsStart, stop) :: regions)

/-- Carving a hive, with the regions handed to `scanBin`. -/
def recoverDeletedTraced (hive : Hive) : Exec HiveError (List RecoveredCell × List Region) :=
  scanBinsTraced hive.rawBytes hive.bins 0 []

/-- The traced scan is the scan, with the scanned bytes counted on the side. -/
theorem scanBinsTraced_erase (data : Bytes) : ∀ (bins : List HbinDescriptor) (scanned : Nat)
    (out : List RecoveredCell),
      (scanBinsTraced data bins scanned out >>= fun traced => .ok traced.1) =
        scanBins data bins scanned out := by
  intro bins
  induction bins with
  | nil => exact fun _ _ => rfl
  | cons bin bins ih =>
    intro scanned out
    rw [scanBinsTraced, scanBins]
    split
    · rfl
    · dsimp only
      split
      · exact ih scanned out
      · cases scanBin data (bin.fileOffset + 32) (binEnd data bin) out with
        | ok next =>
          rw [Exec.ok_bind, Exec.ok_bind, ← ih]
          cases scanBinsTraced data bins
            (scanned + (binEnd data bin - (bin.fileOffset + 32))) next <;> rfl
        | err e => rfl
        | panic => rfl
        | timeout => rfl

/-- **Without its trace the loop is the carver.** -/
theorem recoverDeletedTraced_erase (hive : Hive) :
    (recoverDeletedTraced hive >>= fun traced => .ok traced.1) = recoverDeleted hive :=
  scanBinsTraced_erase hive.rawBytes hive.bins 0 []

/-! ## The total -/

/-- The bytes of some regions. -/
def totalBytes (regions : List Region) : Nat := (regions.map fun region => region.2 - region.1).sum

/-- The bytes of the cell region of a bin. -/
def binBytes (data : Bytes) (bin : HbinDescriptor) : Nat :=
  binEnd data bin - (bin.fileOffset + 32)

/-- The number of records in the cells of a bin. -/
def binCount (data : Bytes) (bin : HbinDescriptor) : Nat :=
  (binRecords data (binEnd data bin) (bin.fileOffset + 32)).length

/-- The number of records in some bins. -/
def countIn (data : Bytes) (bins : List HbinDescriptor) : Nat := (bins.map (binCount data)).sum

/-- No bin before which neither cap is reached takes the scanned bytes past the cap. -/
def FitsFrom (data : Bytes) (bins : List HbinDescriptor) (scanned count : Nat) : Prop :=
  ∀ before bin after, bins = before ++ bin :: after →
    scanned + scannedIn data before < maxScanBytes → count + countIn data before < maxRecoveries →
      scanned + scannedIn data before + binBytes data bin ≤ maxScanBytes

/-- The bytes of the first bin are added to those of the others. -/
theorem scannedIn_cons (data : Bytes) (bin : HbinDescriptor) (bins : List HbinDescriptor) :
    scannedIn data (bin :: bins) = binBytes data bin + scannedIn data bins := List.sum_cons

/-- So are its records. -/
theorem countIn_cons (data : Bytes) (bin : HbinDescriptor) (bins : List HbinDescriptor) :
    countIn data (bin :: bins) = binCount data bin + countIn data bins := List.sum_cons

/-- The condition, bin by bin. -/
theorem fitsFrom_cons {data : Bytes} {bin : HbinDescriptor} {bins : List HbinDescriptor}
    {scanned count : Nat} : FitsFrom data (bin :: bins) scanned count ↔
      (scanned < maxScanBytes → count < maxRecoveries →
        scanned + binBytes data bin ≤ maxScanBytes) ∧
      FitsFrom data bins (scanned + binBytes data bin) (count + binCount data bin) := by
  constructor
  · refine fun h => ⟨h [] bin bins rfl, fun before b after hsplit hscan hcount => ?_⟩
    have hb := h (bin :: before) b after (by rw [hsplit]; rfl)
    rw [scannedIn_cons, countIn_cons] at hb
    have := hb (by omega) (by omega)
    omega
  · rintro ⟨hfirst, hrest⟩ before b after hsplit hscan hcount
    cases before with
    | nil =>
      obtain ⟨rfl, rfl⟩ := List.cons.inj hsplit
      exact hfirst hscan hcount
    | cons b' before =>
      obtain ⟨rfl, htail⟩ := List.cons.inj hsplit
      rw [scannedIn_cons] at hscan ⊢
      rw [countIn_cons] at hcount
      have := hrest before b after htail (by omega) (by omega)
      omega

/-- Nothing is scanned once a cap is reached. -/
theorem fitsFrom_of_full {data : Bytes} {bins : List HbinDescriptor} {scanned count : Nat}
    (h : count ≥ maxRecoveries ∨ scanned ≥ maxScanBytes) : FitsFrom data bins scanned count := by
  intro before bin after _ hscan hcount
  omega

/-- The count is cut off at the cap. -/
theorem fitsFrom_min {data : Bytes} {bins : List HbinDescriptor} {scanned count : Nat} :
    FitsFrom data bins scanned (min maxRecoveries count) ↔ FitsFrom data bins scanned count := by
  have hcount : ∀ more, min maxRecoveries count + more < maxRecoveries ↔
      count + more < maxRecoveries := fun more => by omega
  unfold FitsFrom
  simp only [hcount]

/-- A bin without a cell region. -/
theorem binRecords_of_empty {data : Bytes} {bin : HbinDescriptor}
    (h : bin.fileOffset + 32 ≥ binEnd data bin) : binBytes data bin = 0 ∧ binCount data bin = 0 := by
  unfold binBytes binCount
  rw [binRecords, if_neg (by omega)]
  exact ⟨by omega, rfl⟩

/-- **The loop from a bin on** hands on regions within the cap exactly when the bins fit. -/
theorem scanBinsTraced_total (data : Bytes) : ∀ (bins : List HbinDescriptor) (scanned : Nat)
    (out : List RecoveredCell), out.length ≤ maxRecoveries →
      ∃ records regions, scanBinsTraced data bins scanned out = .ok (records, regions) ∧
        (scanned ≤ maxScanBytes → (scanned + totalBytes regions ≤ maxScanBytes ↔
          FitsFrom data bins scanned out.length)) := by
  intro bins
  induction bins with
  | nil =>
    intro scanned out _
    exact ⟨out, [], rfl, fun hle =>
      ⟨fun _ before bin after hsplit => absurd hsplit (by simp), fun _ => hle⟩⟩
  | cons bin bins ih =>
    intro scanned out hout
    rw [scanBinsTraced]
    -- the cap has been reached before this bin, so no region is added
    by_cases hfull : out.length ≥ maxRecoveries ∨ scanned ≥ maxScanBytes
    · rw [if_pos hfull]
      exact ⟨out, [], rfl, fun hle => ⟨fun _ => fitsFrom_of_full hfull, fun _ => hle⟩⟩
    rw [if_neg hfull]
    dsimp only
    by_cases hempty : bin.fileOffset + 32 ≥ binEnd data bin
    · -- a bin without a body is passed over
      obtain ⟨hbytes, hcount⟩ := binRecords_of_empty hempty
      obtain ⟨records, regions, hrun, htotal⟩ := ih scanned out hout
      refine ⟨records, regions, by rw [if_pos hempty, hrun], fun hle => ?_⟩
      rw [htotal hle, fitsFrom_cons, hbytes, hcount, Nat.add_zero, Nat.add_zero]
      exact ⟨fun h => ⟨fun _ _ => hle, h⟩, fun h => h.2⟩
    · have hend : binEnd data bin ≤ data.length := Nat.min_le_right _ _
      have hlen : (capped out (binRecords data (binEnd data bin) (bin.fileOffset + 32))).length =
          min maxRecoveries (out.length + binCount data bin) := by
        rw [capped, List.length_take, List.length_append, List.length_map, binCount]
      obtain ⟨records, regions, hrun, htotal⟩ := ih (scanned + binBytes data bin)
        (capped out (binRecords data (binEnd data bin) (bin.fileOffset + 32)))
        (length_capped_le _ _)
      refine ⟨records, (bin.fileOffset + 32, binEnd data bin) :: regions, ?_, fun hle => ?_⟩
      · rw [if_neg hempty, scanBin_eq hend hout, Exec.ok_bind,
          show binEnd data bin - (bin.fileOffset + 32) = binBytes data bin from rfl, hrun]
        rfl
      · have hsum : totalBytes ((bin.fileOffset + 32, binEnd data bin) :: regions) =
            binBytes data bin + totalBytes regions := List.sum_cons
        rw [hsum, fitsFrom_cons, ← Nat.add_assoc]
        by_cases hover : scanned + binBytes data bin ≤ maxScanBytes
        · rw [htotal hover, hlen, fitsFrom_min]
          exact ⟨fun h => ⟨fun _ _ => hover, h⟩, fun h => h.2⟩
        · -- this bin crosses the cap
          exact ⟨fun h => absurd h (by omega), fun h => absurd (h.1 (by omega) (by omega)) hover⟩

/-- No bin that the loop comes to takes the scanned bytes past the cap: a bin before which neither
    the bytes nor the records of the bins before it have reached their cap. -/
def FitsCap (hive : Hive) : Prop :=
  ∀ before bin after, hive.bins = before ++ bin :: after →
    scannedIn hive.data before < maxScanBytes → countIn hive.data before < maxRecoveries →
      scannedIn hive.data before + binBytes hive.data bin ≤ maxScanBytes

/-- **The scan cap.**  The regions handed to `scanBin` stay within the cap exactly when no bin that
    the loop comes to crosses it. -/
theorem scanCap_iff (hive : Hive) :
    ∃ records regions, recoverDeletedTraced hive = .ok (records, regions) ∧
      recoverDeleted hive = .ok records ∧
      (totalBytes regions ≤ maxScanBytes ↔ FitsCap hive) := by
  obtain ⟨records, regions, hrun, htotal⟩ :=
    scanBinsTraced_total hive.data hive.bins 0 [] (Nat.zero_le _)
  refine ⟨records, regions, hrun, ?_, ?_⟩
  · rw [← recoverDeletedTraced_erase, show recoverDeletedTraced hive = _ from hrun, Exec.ok_bind]
  · have hcap := htotal (Nat.zero_le _)
    unfold FitsFrom at hcap
    simp only [Nat.zero_add, List.length_nil] at hcap
    exact hcap

/-! ## A bin past the cap -/

/-- A file of one bin of the given size, filled with zeros. -/
def zeroBinImage (size : UInt32) : Bytes :=
  imageBlock 32 size ++
    (List.replicate 3584 0 ++ (binHeader 0 size ++ List.replicate (size.toNat - 32) 0))

/-- The hive that opens from it. -/
def zeroBinHive (size : UInt32) : Hive where
  data := zeroBinImage size
  header := imageBaseBlock 32 size
  version := .v1_5
  bins := [⟨0, size, 4096⟩]
  headerBytes := bytesAt (zeroBinImage size) 0 BaseBlock.size

section ZeroBin

variable {size : UInt32}

/-- The base block and one bin of any size. -/
theorem length_zeroBinImage (h : 32 ≤ size.toNat) :
    (zeroBinImage size).length = 4096 + size.toNat := by
  have hheader : (binHeader 0 size).length = 32 := rfl
  simp only [zeroBinImage, List.length_append, length_imageBlock, List.length_replicate, hheader]
  omega

/-- The image opens: the bin has a header and nothing else. -/
theorem fromBytes_zeroBin (hpos : 32 ≤ size.toNat) (hmod : size.toNat % 4096 = 0) :
    Hive.fromBytes (zeroBinImage size) = .ok (zeroBinHive size) := by
  have hlen := length_zeroBinImage hpos
  have hsize : BaseBlock.size = 4096 := rfl
  have hblock : bytesAt (zeroBinImage size) 0 512 = imageBlock 32 size := by
    have himage := length_imageBlock 32 size
    rw [zeroBinImage, bytesAt_append_left (by omega)]
    exact bytesAt_zero_of_length_le (by omega)
  have hbin : ∀ off n, off + n ≤ 32 →
      bytesAt (zeroBinImage size) (4096 + off) n = bytesAt (binHeader 0 size) off n := by
    intro off n h
    have hheader : (binHeader 0 size).length = 32 := rfl
    rw [zeroBinImage, bytesAt_append_right (by rw [length_imageBlock]; omega), length_imageBlock,
      bytesAt_append_right (by rw [List.length_replicate]; omega), List.length_replicate,
      bytesAt_append_left (by omega), show 4096 + off - 512 - 3584 = off by omega]
  have hsplit : binHeader 0 size =
      (hbinMagic ++ u32Bytes 0) ++ (u32Bytes size ++ List.replicate 20 0) :=
    List.append_assoc _ _ _
  have hfield : bytesAt (binHeader 0 size) 8 4 = u32Bytes size :=
    bytesAt_part hsplit rfl (length_u32Bytes _)
  have hfront : ∀ off n, off + n ≤ 8 →
      bytesAt (binHeader 0 size) off n = bytesAt (hbinMagic ++ u32Bytes 0) off n :=
    fun off n h => by rw [hsplit, bytesAt_append_left h]
  obtain ⟨hread, hsum⟩ := BaseBlock.read_imageBlock (by omega) hblock
  rw [Hive.fromBytes_oneBin .v1_5 size hread hsum rfl rfl (by omega) hmod (by omega)
    ((hbin 0 4 (by omega)).trans (hfront 0 4 (by omega)))
    (u32At_of_bytesAt ((hbin 8 4 (by omega)).trans hfield)),
    u32At_of_bytesAt (x := 0) ((hbin 4 4 (by omega)).trans (hfront 4 4 (by omega)))]
  rfl

/-- The loop hands on the whole cell region of the bin. -/
theorem totalBytes_zeroBin (hpos : 32 < size.toNat) {records : List RecoveredCell}
    {regions : List Region} (h : recoverDeletedTraced (zeroBinHive size) = .ok (records, regions)) :
    totalBytes regions = size.toNat - 32 := by
  have hlen := length_zeroBinImage hpos.le
  have hend : binEnd (zeroBinImage size) ⟨0, size, 4096⟩ = 4096 + size.toNat := by
    unfold binEnd
    rw [hlen]
    exact Nat.min_self _
  have hrun : scanBinsTraced (zeroBinImage size) [⟨0, size, 4096⟩] 0 [] = .ok (records, regions) :=
    h
  have hmax : maxRecoveries = 100000 := rfl
  have hcap : maxScanBytes = 536870912 := rfl
  rw [scanBinsTraced, List.length_nil, hmax, hcap, if_neg (by omega)] at hrun
  dsimp only at hrun
  rw [hend, if_neg (by omega), scanBin_eq (by omega) (Nat.zero_le _), Exec.ok_bind] at hrun
  have hregions : [(4096 + 32, 4096 + size.toNat)] = regions :=
    (Prod.mk.inj (Exec.ok.inj hrun)).2
  rw [← hregions, totalBytes, List.map_cons, List.map_nil, List.sum_cons, List.sum_nil]
  omega

end ZeroBin

/-- **One bin crosses the cap**: of a bin of 512 MiB and a page every byte behind its header is
    handed on. -/
theorem scanCap_crossed :
    Hive.fromBytes (zeroBinImage 0x20001000) = .ok (zeroBinHive 0x20001000) ∧
      ∃ records regions,
        recoverDeletedTraced (zeroBinHive 0x20001000) = .ok (records, regions) ∧
        totalBytes regions = maxScanBytes + 4064 ∧ ¬ totalBytes regions ≤ maxScanBytes := by
  have hsize : (0x20001000 : UInt32).toNat = 536875008 := rfl
  have hcap : maxScanBytes = 536870912 := rfl
  refine ⟨fromBytes_zeroBin (by rw [hsize]; omega) (by rw [hsize]), ?_⟩
  obtain ⟨records, regions, hrun, _⟩ := scanBinsTraced_total (zeroBinHive 0x20001000).data
    (zeroBinHive 0x20001000).bins 0 [] (Nat.zero_le _)
  have htotal := @totalBytes_zeroBin 0x20001000 (by rw [hsize]; omega) _ _ hrun
  rw [hsize] at htotal
  exact ⟨records, regions, hrun, by omega, by omega⟩

end Carve

end Winreg
