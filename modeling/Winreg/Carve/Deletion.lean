/-
  DELETION IS RECOVERABLE: freeing a live record and carving it.

  Deleting a record frees its cell: the sign of its size field is flipped.  The flipped buffer opens
  with the same bins, and its cell chains lead to the same cells; the freed cell is parsed at its
  head with the bytes that navigation read, so the record comes back with the same contents, once.

  The file offset of a record has 32 bits and saturates.  From the offset `u32::MAX` on the
  positions are no longer told apart, so the freed cell has to lie below it
  (`deletion_recoverable`, `deletion_ambiguous_at_u32_max`).
-/
import Winreg.Carve.Walk
import Winreg.Format.Records
import Mathlib.Data.List.Perm.Subperm

namespace Winreg

open Rust

namespace Carve

/-! ## Changing a cell -/

/-- `data'` is `data` with bytes changed only between `lo` and `hi`. -/
structure ChangedIn (data data' : Bytes) (lo hi : Nat) : Prop where
  length : data'.length = data.length
  frame : ∀ i, i < lo ∨ hi ≤ i → data'[i]? = data[i]?

/-- The cell chain from `pos` leads to the cell at `f` through cells of size at least 8. -/
inductive OnChain (data : Bytes) (f : Nat) : Nat → Prop where
  | here : OnChain data f f
  | next {pos : Nat} (hsize : 8 ≤ (cellAt data pos).size)
      (rest : OnChain data f (pos + (cellAt data pos).size)) : OnChain data f pos

/-- A chain starts at or before its cells. -/
theorem OnChain.le {data : Bytes} {pos f : Nat} (h : OnChain data f pos) : pos ≤ f := by
  induction h with
  | here => exact Nat.le_refl _
  | next _ _ ih => omega

namespace ChangedIn

variable {data data' : Bytes} {lo hi : Nat}

/-- Ranges beside the changed bytes are unchanged. -/
theorem bytesAt_eq (h : ChangedIn data data' lo hi) {off n : Nat}
    (hoff : off + n ≤ lo ∨ hi ≤ off) : bytesAt data' off n = bytesAt data off n := by
  refine bytesAt_congr fun i hlo hhi => ?_
  apply h.frame
  omega

/-- A size field outside the changed bytes is read as before. -/
theorem cellAt_eq (h : ChangedIn data data' lo hi) {pos : Nat} (hpos : pos + 4 ≤ lo ∨ hi ≤ pos) :
    cellAt data' pos = cellAt data pos :=
  congrArg CellHeader.mk (i32At_congr (h.bytesAt_eq hpos))

/-- The chain leads to a cell before the changed bytes as it did. -/
theorem onChain (h : ChangedIn data data' lo hi) {f pos : Nat} (hf : f ≤ lo)
    (hc : OnChain data f pos) : OnChain data' f pos := by
  induction hc with
  | here => exact .here
  | @next pos hsize rest ih =>
    have hle := rest.le
    have hcell := h.cellAt_eq (Or.inl (show pos + 4 ≤ lo by omega))
    rw [← hcell] at hsize ih
    exact .next hsize ih

/-- A bin header beside the changed bytes is unchanged. -/
theorem header_eq (h : ChangedIn data data' lo hi) {pos : Nat} (hpos : pos + 12 ≤ lo ∨ hi ≤ pos) :
    bytesAt data' pos 4 = bytesAt data pos 4 ∧ binAt data' pos = binAt data pos ∧
      u32At data' (pos + 8) = u32At data (pos + 8) := by
  have hoffset : u32At data' (pos + 4) = u32At data (pos + 4) :=
    u32At_congr (h.bytesAt_eq (by omega))
  have hsize : u32At data' (pos + 8) = u32At data (pos + 8) :=
    u32At_congr (h.bytesAt_eq (by omega))
  refine ⟨h.bytesAt_eq (by omega), ?_, hsize⟩
  unfold binAt
  rw [hoffset, hsize]

/-- Where the walk over the bins stopped it still stops, if the header there has not changed. -/
theorem stopsAt (h : ChangedIn data data' lo hi) {stop pos : Nat}
    (hpos : pos + 12 ≤ lo ∨ hi ≤ pos) (hs : StopsAt data stop pos) : StopsAt data' stop pos := by
  obtain ⟨hmagic, _, hsize⟩ := h.header_eq hpos
  unfold StopsAt at hs ⊢
  rw [h.length, hmagic, hsize]
  exact hs

/-- And a bin whose header has not changed is still found. -/
theorem binAt_of (h : ChangedIn data data' lo hi) {stop pos : Nat}
    (hpos : pos + 12 ≤ lo ∨ hi ≤ pos) (hb : BinAt data stop pos) : BinAt data' stop pos := by
  obtain ⟨hmagic, _, hsize⟩ := h.header_eq hpos
  exact ⟨hb.before_stop, h.length.symm ▸ hb.inside, hmagic.trans hb.magic, hsize ▸ hb.size_pos,
    hsize ▸ hb.aligned⟩

/-- The catalog behind the changed bytes is unchanged. -/
theorem cataloged_after (h : ChangedIn data data' lo hi) {stop pos : Nat}
    {bins : List HbinDescriptor} (hc : Cataloged data stop pos bins) :
    hi ≤ pos → Cataloged data' stop pos bins := by
  induction hc with
  | stop hs => exact fun hpos => .stop (h.stopsAt (Or.inr hpos) hs)
  | bin hb _ ih =>
    intro hpos
    obtain ⟨_, hbin, hsize⟩ := h.header_eq (Or.inr hpos)
    rw [← hsize] at ih
    rw [← hbin]
    exact .bin (h.binAt_of (Or.inr hpos) hb) (ih (by omega))

/-- The catalog is unchanged when the changed bytes lie among the cells of a bin. -/
theorem cataloged (h : ChangedIn data data' lo hi) {stop : Nat} {bin : HbinDescriptor}
    {after : List HbinDescriptor} (hstart : bin.fileOffset + 32 ≤ lo)
    (hend : hi ≤ bin.fileOffset + bin.size.toNat) : ∀ (before : List HbinDescriptor) {pos : Nat},
      Cataloged data stop pos (before ++ bin :: after) →
      Cataloged data' stop pos (before ++ bin :: after)
  | [], pos, hc => by
    rw [List.nil_append] at hc ⊢
    cases hc with
    | bin hb tail =>
      have hpos : pos + 32 ≤ lo := hstart
      have hnext : hi ≤ pos + (u32At data (pos + 8)).toNat := hend
      have hbeside : pos + 12 ≤ lo ∨ hi ≤ pos := Or.inl (by omega)
      obtain ⟨_, hbin, hsize⟩ := h.header_eq hbeside
      have htail := h.cataloged_after tail hnext
      rw [← hsize] at htail
      rw [← hbin]
      exact .bin (h.binAt_of hbeside hb) htail
  | b :: before, pos, hc => by
    rw [List.cons_append] at hc ⊢
    cases hc with
    | bin hb tail =>
      -- the bin of the change starts behind this one
      have hle := tail.tiling.start_le (List.mem_append_right before List.mem_cons_self)
      have hpos := hb.size_pos
      have hbeside : pos + 12 ≤ lo ∨ hi ≤ pos := by
        have := hb.aligned
        exact Or.inl (by omega)
      obtain ⟨_, hbin, hsize⟩ := h.header_eq hbeside
      have htail := h.cataloged hstart hend before tail
      rw [← hsize] at htail
      rw [← hbin]
      exact .bin (h.binAt_of hbeside hb) htail

/-- **The changed buffer opens**, with the same bins. -/
theorem fromBytes (h : ChangedIn data data' lo hi) {hive : Hive}
    {before after : List HbinDescriptor} {bin : HbinDescriptor}
    (hopen : Hive.fromBytes data = .ok hive) (hbins : hive.bins = before ++ bin :: after)
    (hstart : bin.fileOffset + 32 ≤ lo) (hend : hi ≤ bin.fileOffset + bin.size.toNat) :
    ∃ hive', Hive.fromBytes data' = .ok hive' ∧ hive'.data = data' ∧ hive'.bins = hive.bins := by
  obtain ⟨hlen, _, hread, hsum, hver, hcat, _⟩ := Hive.fromBytes_eq_ok hopen
  have hcat := catalogHbins_eq_ok_iff.mp hcat
  rw [hbins] at hcat
  have hlo : BaseBlock.size ≤ bin.fileOffset := hcat.tiling.start_le (by simp)
  have h4096 : BaseBlock.size = 4096 := rfl
  have hbase : ∀ off n, off + n ≤ 512 → bytesAt data' off n = bytesAt data off n :=
    fun off n ho => h.bytesAt_eq (Or.inl (by omega))
  have hlen512 : data'.length < 512 ↔ data.length < 512 := h.length ▸ Iff.rfl
  have hread' := (BaseBlock.read_congr hlen512 hbase).trans hread
  have hsum' := (BaseBlock.validateChecksum_congr hlen512 fun off ho => hbase off 4 ho).trans hsum
  refine ⟨_, Hive.fromBytes_of_stages (h.length.symm ▸ hlen) hread' hsum' hver
    (h.cataloged hstart hend before hcat), rfl, hbins.symm⟩

/-- The end of a bin depends on its descriptor and the length of the file. -/
theorem binEnd_eq (h : ChangedIn data data' lo hi) (bin : HbinDescriptor) :
    binEnd data' bin = binEnd data bin := by
  unfold binEnd
  rw [h.length]

end ChangedIn

/-! ## Freeing a cell -/

/-- `data'` is `data` with only the sign of the size field at `f` flipped. -/
structure SignFlipped (data data' : Bytes) (f : Nat) : Prop where
  length : data'.length = data.length
  frame : ∀ i, i < f ∨ f + 4 ≤ i → data'[i]? = data[i]?
  flipped : i32At data' f = -i32At data f

/-- Freeing a cell changes its size field only. -/
theorem SignFlipped.changedIn {data data' : Bytes} {f : Nat} (h : SignFlipped data data' f) :
    ChangedIn data data' f (f + 4) := ⟨h.length, h.frame⟩

/-- The flipped cell is free and has the same size. -/
theorem SignFlipped.cellAt_flipped {data data' : Bytes} {f : Nat} (h : SignFlipped data data' f)
    (halloc : (cellAt data f).isAllocated = true) :
    (cellAt data' f).isAllocated = false ∧ (cellAt data' f).size = (cellAt data f).size := by
  have hraw : (cellAt data' f).rawSize = -(cellAt data f).rawSize := h.flipped
  unfold CellHeader.isAllocated at halloc ⊢
  unfold CellHeader.size
  rw [hraw, Int.natAbs_neg]
  have hneg : (cellAt data f).rawSize < 0 := by simpa using halloc
  exact ⟨by simpa using Int.le_of_lt hneg, rfl⟩

/-- Flip the sign of the size field at `f`. -/
def flipSign (data : Bytes) (f : Nat) : Bytes := patch data f (i32Bytes (-i32At data f))

/-- Every size field but the smallest number can be flipped. -/
theorem signFlipped_flipSign {data : Bytes} {f : Nat} (hf : f + 4 ≤ data.length)
    (hmin : i32At data f ≠ -2 ^ 31) : SignFlipped data (flipSign data f) f := by
  have hlen : (i32Bytes (-i32At data f)).length = 4 := length_i32Bytes _
  have hfit : f + (i32Bytes (-i32At data f)).length ≤ data.length := by omega
  refine ⟨length_patch hfit, fun i hi => ?_, ?_⟩
  · show (patch data f _)[i]? = _
    rw [getElem?_patch hfit, if_neg (by omega)]
  · have hlo := i32At_lower data f
    have hhi := i32At_upper data f
    have hwritten := bytesAt_patch_self hfit
    rw [hlen] at hwritten
    exact i32At_of_bytesAt (by omega) (by omega) hwritten

/-! ## The record that comes back -/

/-- The cell is a record that passes the carver's checks. -/
def PassesChecks : Cell → Prop
  | .keyNode nk => nkIsPlausible nk = true ∧ nameIsPlausible nk.keyName = true
  | .keyValue vk => vkIsPlausible vk = true ∧
      (vk.valueName = [] ∨ nameIsPlausible vk.valueName = true)
  | _ => False

/-- The record recovered from a freed cell: what navigation read there, from an unallocated cell,
    with high confidence. -/
def deletedRecord (fileOffset : UInt32) : Cell → Option RecoveredCell
  | .keyNode nk => some (.key ⟨nk.keyName, nk.lastWritten, nk.parent.val, fileOffset, false,
      .unallocatedCell, .high⟩)
  | .keyValue vk => some (.value ⟨vk.valueName, valueTypeRaw vk.dataType,
      if vk.isResident then vk.inlineData else [], fileOffset, false, .unallocatedCell, .high⟩)
  | _ => none

/-- A parsed cell has the kind of its parser. -/
theorem parsedCell_eq_ok {α : Type} {offset : CellOffset} {expected : String} {b0 b1 : UInt8}
    {wrap : α → Cell} {x : Option α} {cell : Cell}
    (h : parsedCell offset expected b0 b1 wrap x = .ok cell) : ∃ y, cell = wrap y := by
  cases x with
  | none => cases h
  | some y => cases h; exact ⟨y, rfl⟩

/-- **The carver parses what navigation parses.** -/
theorem recordOf_of_dispatchCell {off : CellOffset} {body : Bytes} {cell : Cell}
    (hcell : dispatchCell off body = .ok cell) (hcheck : PassesChecks cell) (pos : Nat) :
    recordOf body pos .unallocatedCell = deletedRecord (toU32OrMax pos) cell := by
  unfold dispatchCell at hcell
  split at hcell
  · rename_i b0 b1 afterSig
    split at hcell
    · -- an `nk`
      rename_i hsig
      obtain ⟨rfl, rfl⟩ := signature_keyNode_iff.mp hsig
      cases hnk : RawKeyNode.parse afterSig with
      | none => rw [hnk] at hcell; cases hcell
      | some nk =>
        rw [hnk] at hcell
        obtain rfl : Cell.keyNode nk = cell := by simpa [parsedCell] using hcell
        exact recordOf_eq_some_iff.mpr (Or.inl ⟨afterSig, nk, rfl, hnk, hcheck.1, hcheck.2, rfl⟩)
    · -- a `vk`
      rename_i hsig
      obtain ⟨rfl, rfl⟩ := signature_keyValue_iff.mp hsig
      cases hvk : RawKeyValue.parse afterSig with
      | none => rw [hvk] at hcell; cases hcell
      | some vk =>
        rw [hvk] at hcell
        obtain rfl : Cell.keyValue vk = cell := by simpa [parsedCell] using hcell
        exact recordOf_eq_some_iff.mpr (Or.inr ⟨afterSig, vk, rfl, hvk, hcheck.1, hcheck.2, rfl⟩)
    -- no other cell is a record
    all_goals first
      | (obtain ⟨y, rfl⟩ := parsedCell_eq_ok hcell; exact hcheck.elim)
      | (obtain rfl : Cell.data _ = cell := by simpa using hcell
         exact hcheck.elim)
  · obtain rfl : Cell.data body = cell := by simpa using hcell
    exact hcheck.elim

/-- A record takes at least 20 bytes: the fixed part of a `vk`. -/
theorem length_of_recordOf {region : Bytes} {pos : Nat} {source : RecoverySource}
    {record : RecoveredCell} (h : recordOf region pos source = some record) :
    20 ≤ region.length := by
  rcases recordOf_eq_some_iff.mp h with
    ⟨afterSig, nk, rfl, hparse, _⟩ | ⟨afterSig, vk, rfl, hparse, _⟩
  · unfold RawKeyNode.parse at hparse
    split at hparse
    · cases hparse
    · rename_i hlen
      rw [show RawKeyNode.headerSize = 76 from rfl] at hlen
      rw [List.length_cons, List.length_cons]
      omega
  · unfold RawKeyValue.parse at hparse
    split at hparse
    · cases hparse
    · rename_i hlen
      rw [show RawKeyValue.headerSize = 20 from rfl] at hlen
      rw [List.length_cons, List.length_cons]
      omega

/-! ## Where it comes back -/

/-- The walk over the cells of a bin gets to every cell of its chain. -/
theorem binRecords_of_onChain {data : Bytes} {stop f pos : Nat} (h : OnChain data f pos)
    (hf : f + 4 ≤ stop) : ∃ found, binRecords data stop pos = found ++ binRecords data stop f := by
  induction h with
  | here => exact ⟨[], rfl⟩
  | @next pos hsize rest ih =>
    have hle := rest.le
    have hmin : minCellSize = 8 := rfl
    obtain ⟨found, hfound⟩ := ih
    rw [binRecords, if_pos ⟨by omega, by omega⟩, hfound]
    exact ⟨_, (List.append_assoc _ _ _).symm⟩

/-- The bytes scanned in some bins. -/
def scannedIn (data : Bytes) (bins : List HbinDescriptor) : Nat :=
  (bins.map fun bin => binEnd data bin - (bin.fileOffset + 32)).sum

/-- The walk over the bins gets to every bin before which the scan cap is not reached. -/
theorem binsRecords_append {data : Bytes} {rest : List HbinDescriptor} :
    ∀ (before : List HbinDescriptor) (scanned : Nat),
      scanned + scannedIn data before < maxScanBytes →
      ∃ found, binsRecords data (before ++ rest) scanned =
        found ++ binsRecords data rest (scanned + scannedIn data before)
  | [], scanned, _ => ⟨[], rfl⟩
  | bin :: before, scanned, h => by
    have hsum : scannedIn data (bin :: before) =
        (binEnd data bin - (bin.fileOffset + 32)) + scannedIn data before := List.sum_cons
    have hbelow : scanned + (binEnd data bin - (bin.fileOffset + 32)) + scannedIn data before <
        maxScanBytes := by omega
    obtain ⟨found, hfound⟩ := binsRecords_append before _ hbelow
    rw [List.cons_append, binsRecords, if_neg (by omega), hsum, ← Nat.add_assoc]
    split
    · -- an empty bin counts for nothing
      rename_i hempty
      have hzero : binEnd data bin - (bin.fileOffset + 32) = 0 := by omega
      rw [hzero, Nat.add_zero] at hfound ⊢
      exact ⟨found, hfound⟩
    · rw [hfound]
      exact ⟨_, (List.append_assoc _ _ _).symm⟩

/-- **The record at the head of a free cell** is found when the walks get to the cell. -/
theorem hiveRecords_of_freeHead {hive : Hive} {before after : List HbinDescriptor}
    {bin : HbinDescriptor} {f : Nat} {record : RecoveredCell}
    (hbins : hive.bins = before ++ bin :: after)
    (hscan : scannedIn hive.data before < maxScanBytes)
    (hchain : OnChain hive.data f (bin.fileOffset + 32))
    (hsize : minCellSize ≤ (cellAt hive.data f).size)
    (hstop : f + (cellAt hive.data f).size ≤ binEnd hive.data bin)
    (hfree : (cellAt hive.data f).isAllocated = false)
    (hhead : headRecord hive.data f (f + (cellAt hive.data f).size) = some record) :
    ∃ found more, hiveRecords hive = found ++ (f, record) :: more := by
  have hmin : minCellSize = 8 := rfl
  have hstart := hchain.le
  obtain ⟨found, hfound⟩ := @binsRecords_append hive.data (bin :: after) before 0
    (by rw [Nat.zero_add]; exact hscan)
  obtain ⟨found', hfound'⟩ := binRecords_of_onChain hchain
    (show f + 4 ≤ binEnd hive.data bin by omega)
  unfold hiveRecords
  rw [hbins, hfound, binsRecords, if_neg (by omega), if_neg (by omega), hfound', binRecords,
    if_pos ⟨by omega, hsize⟩, Nat.min_eq_left hstop, cellRecords, hfree, if_neg (by decide), hhead,
    List.append_assoc, List.append_assoc, ← List.append_assoc found found']
  exact ⟨_, _, rfl⟩

/-- Of ascending records one is at a position, and the cap does not cut it off when fewer records
    lie before it. -/
theorem filter_take_of_ascending {lo hi f : Nat} {before after : List Found}
    {record : RecoveredCell} (h : Ascending lo hi (before ++ (f, record) :: after))
    (hf : f < 2 ^ 32 - 1)
    (hcap : ((((before ++ (f, record) :: after).map (·.2)).take maxRecoveries).filter
      fun r => r.fileOffset.toNat < f).length < maxRecoveries) :
    ((((before ++ (f, record) :: after).map (·.2)).take maxRecoveries).filter
      fun r => r.fileOffset.toNat = f) = [record] := by
  have hplace : ∀ a ∈ before ++ (f, record) :: after,
      a.2.fileOffset.toNat = min a.1 (2 ^ 32 - 1) := fun a ha => by
    rw [h.placed a ha, toNat_toU32OrMax]
  obtain ⟨_, hsortedAfter, hsorted⟩ := List.pairwise_append.mp h.sorted
  have hrecord : record.fileOffset.toNat = f := by
    rw [hplace (f, record) (by simp)]
    omega
  have hbefore : ∀ r ∈ before.map (·.2), r.fileOffset.toNat < f := fun r hr => by
    obtain ⟨a, ha, rfl⟩ := List.mem_map.mp hr
    have hlt : a.1 < f := hsorted a ha _ List.mem_cons_self
    rw [hplace a (List.mem_append_left _ ha)]
    omega
  have hafter : ∀ r ∈ after.map (·.2), f < r.fileOffset.toNat := fun r hr => by
    obtain ⟨a, ha, rfl⟩ := List.mem_map.mp hr
    have hlt : f < a.1 := (List.pairwise_cons.mp hsortedAfter).1 a ha
    rw [hplace a (List.mem_append_right _ (List.mem_cons_of_mem _ ha))]
    omega
  rw [List.map_append, List.map_cons] at hcap ⊢
  generalize before.map (·.2) = bs at hbefore hcap ⊢
  generalize after.map (·.2) = cs at hafter hcap ⊢
  -- the cap is not reached before the record
  have hroom : bs.length < maxRecoveries := by
    by_contra hfull
    rw [List.take_append_of_le_length (by omega), List.filter_eq_self.mpr fun r hr =>
      decide_eq_true (hbefore r (List.mem_of_mem_take hr)), List.length_take] at hcap
    omega
  obtain ⟨k, hk⟩ : ∃ k, maxRecoveries - bs.length = k + 1 :=
    ⟨maxRecoveries - bs.length - 1, by omega⟩
  have hbs : bs.filter (fun r => r.fileOffset.toNat = f) = [] :=
    List.filter_eq_nil_iff.mpr fun r hr hf' =>
      Nat.ne_of_lt (hbefore r hr) (of_decide_eq_true hf')
  have hcs : (cs.take k).filter (fun r => r.fileOffset.toNat = f) = [] :=
    List.filter_eq_nil_iff.mpr fun r hr hf' =>
      Nat.ne_of_gt (hafter r (List.mem_of_mem_take hr)) (of_decide_eq_true hf')
  rw [List.take_append, List.take_of_length_le hroom.le, hk, List.take_succ_cons,
    List.filter_append, List.filter_cons, if_pos (decide_eq_true hrecord), hbs, hcs]
  rfl

/-- **What navigation reads** as a record stands at the head of an allocated cell, with room for a
    record. -/
theorem headRecord_of_readCell {hive : Hive} {off : CellOffset} {f : Nat} {cell : Cell}
    (hoff : off.fileOffset = f) (hread : hive.reader.readCell off = .ok cell)
    (hcheck : PassesChecks cell) :
    (cellAt hive.data f).isAllocated = true ∧ 24 ≤ (cellAt hive.data f).size ∧
      f + (cellAt hive.data f).size ≤ hive.data.length ∧
      ∃ record, deletedRecord (toU32OrMax f) cell = some record ∧
        headRecord hive.data f (f + (cellAt hive.data f).size) = some record := by
  obtain ⟨hdr, body, hcell, hdispatch⟩ := Hive.readsCell_of_readCell hread
  have hheader : hive.cellHeader off = cellAt hive.data f := by
    unfold Hive.cellHeader cellAt
    rw [hoff]
  have halloc := hcell.allocated
  have hbuffer := hcell.inside
  have hbody := hcell.body
  rw [hheader] at halloc
  rw [hheader, hoff] at hbuffer hbody
  obtain ⟨record, hrecord⟩ : ∃ record, deletedRecord (toU32OrMax f) cell = some record := by
    cases cell with
    | keyNode nk => exact ⟨_, rfl⟩
    | keyValue vk => exact ⟨_, rfl⟩
    | _ => exact hcheck.elim
  have hparse := (recordOf_of_dispatchCell hdispatch hcheck f).trans hrecord
  have hlen := length_of_recordOf hparse
  rw [hbody, length_bytesAt] at hlen
  refine ⟨halloc, by omega, hbuffer, record, hrecord, ?_⟩
  unfold headRecord
  rw [show f + (cellAt hive.data f).size - (f + 4) = (cellAt hive.data f).size - 4 by omega, ← hbody]
  exact hparse

/-- **Deletion is recoverable.**  Take a hive, one of its bins, and a cell on the cell chain of the
    bin that ends inside it and that navigation reads as a record passing the carver's checks.
    Flip the sign of its size field.  The hive opens again, and if no cap is reached before the
    cell, carving returns exactly one record at its offset: the one that navigation read. -/
theorem deletion_recoverable {data data' : Bytes} {hive : Hive}
    {before after : List HbinDescriptor} {bin : HbinDescriptor} {off : CellOffset} {f : Nat}
    {cell : Cell} (hopen : Hive.fromBytes data = .ok hive)
    (hbins : hive.bins = before ++ bin :: after)
    (hchain : OnChain data f (bin.fileOffset + 32))
    (hinside : f + (cellAt data f).size ≤ bin.fileOffset + bin.size.toNat)
    (hf : f < 2 ^ 32 - 1) (hoff : off.fileOffset = f)
    (hread : hive.reader.readCell off = .ok cell) (hcheck : PassesChecks cell)
    (hflip : SignFlipped data data' f) :
    ∃ hive' records, Hive.fromBytes data' = .ok hive' ∧ recoverDeleted hive' = .ok records ∧
      (scannedIn data' before < maxScanBytes →
        (records.filter fun r => r.fileOffset.toNat < f).length < maxRecoveries →
        (records.filter fun r => r.fileOffset.toNat = f) =
          (deletedRecord (UInt32.ofNat f) cell).toList) := by
  obtain ⟨_, rfl⟩ := Hive.fromBytes_accepted hopen
  obtain ⟨halloc, hsize, hbuffer, record, hrecord, hhead⟩ :=
    headRecord_of_readCell hoff hread hcheck
  have hoffset : toU32OrMax f = UInt32.ofNat f := if_pos (by omega)
  have hstart := hchain.le
  -- the flipped buffer
  have hchanged := hflip.changedIn
  obtain ⟨hive', hopen', rfl, hbins'⟩ := hchanged.fromBytes hopen hbins hstart (by omega)
  obtain ⟨haccepted', _⟩ := Hive.fromBytes_accepted hopen'
  refine ⟨hive', _, hopen', recoverDeleted_eq hive', fun hscan hcap => ?_⟩
  -- the freed cell in it
  obtain ⟨hfree, hsize'⟩ := hflip.cellAt_flipped halloc
  have hstop : f + (cellAt hive.data f).size ≤ binEnd hive'.data bin := by
    rw [hchanged.binEnd_eq]
    unfold binEnd
    omega
  have hhead' : headRecord hive'.data f (f + (cellAt hive.data f).size) = some record := by
    unfold headRecord
    rw [hchanged.bytesAt_eq (Or.inr (Nat.le_refl _))]
    exact hhead
  rw [← hsize'] at hhead' hsize hstop
  obtain ⟨found, more, hall⟩ :=
    hiveRecords_of_freeHead (hbins'.trans hbins) hscan (hchanged.onChain (Nat.le_refl _) hchain)
      (show 8 ≤ _ by omega) hstop hfree hhead'
  have hasc := hiveRecords_ascending haccepted'
  rw [hall] at hasc hcap ⊢
  rw [← hoffset, hrecord]
  exact filter_take_of_ascending hasc hf hcap

/-- At most `f` records have an offset below `f`. -/
theorem length_filter_lt_le {records : List RecoveredCell}
    (h : records.Pairwise fun a b => a.fileOffset < b.fileOffset) (f : Nat) :
    (records.filter fun r => r.fileOffset.toNat < f).length ≤ f := by
  have hnodup : ((records.filter fun r => r.fileOffset.toNat < f).map
      fun r => r.fileOffset.toNat).Nodup := by
    refine List.pairwise_map.mpr ((h.sublist List.filter_sublist).imp fun {a b} hab => ?_)
    exact Nat.ne_of_lt (UInt32.lt_iff_toNat_lt.mp hab)
  have hsub : ((records.filter fun r => r.fileOffset.toNat < f).map
      fun r => r.fileOffset.toNat) ⊆ List.range f := by
    intro n hn
    obtain ⟨r, hr, rfl⟩ := List.mem_map.mp hn
    exact List.mem_range.mpr (of_decide_eq_true (List.mem_filter.mp hr).2)
  have hle := (List.subperm_of_subset hnodup hsub).length_le
  rw [List.length_map, List.length_range] at hle
  exact hle

/-- The cell behind the first one of a one-bin image is on the cell chain. -/
theorem onChain_oneBin {cells : Bytes} (raw : Int) {size : Nat}
    (hraw : bytesAt cells 0 4 = i32Bytes raw) (hsize : raw.natAbs = size) (hmin : 8 ≤ size)
    (hfits : size ≤ cells.length) (hcells : cells.length ≤ 4064) :
    OnChain (oneBinImage 32 cells) (4128 + size) 4128 := by
  have hcell : cellAt (oneBinImage 32 cells) 4128 = ⟨raw⟩ :=
    congrArg CellHeader.mk (i32At_of_bytesAt (by omega) (by omega)
      ((bytesAt_oneBinCells (k := 0) (by omega)).trans hraw))
  have hfirst : (cellAt (oneBinImage 32 cells) 4128).size = size := by
    rw [hcell]
    exact hsize
  refine .next (by omega) ?_
  rw [hfirst]
  exact .here

/-- Deleting the key `A`. -/
theorem deletion_recoverable_key :
    ∃ hive' records, Hive.fromBytes (flipSign (oneBinImage 32 (keyCells (-88))) 4208) = .ok hive' ∧
      recoverDeleted hive' = .ok records ∧
      (records.filter fun r => r.fileOffset.toNat = 4208) =
        [.key ⟨['A'], 0, 0xFFFFFFFF, 4208, false, .unallocatedCell, .high⟩] := by
  have hcells := length_keyCells (-88)
  have hlen := length_oneBinImage 32 (show (keyCells (-88)).length ≤ 4064 by omega)
  have hkey : i32At (oneBinImage 32 (keyCells (-88))) (4128 + 80) = -88 :=
    i32At_of_bytesAt (by omega) (by omega)
      ((bytesAt_oneBinCells (by omega)).trans (by decide))
  have hflip := signFlipped_flipSign (show 4208 + 4 ≤ _ by omega)
    (show i32At (oneBinImage 32 (keyCells (-88))) 4208 ≠ -2 ^ 31 by rw [hkey]; decide)
  have hsizeKey : (cellAt (oneBinImage 32 (keyCells (-88))) (4128 + 80)).size = 88 := by
    rw [cellAt, hkey]; rfl
  have hchain : OnChain (oneBinImage 32 (keyCells (-88))) (4128 + 80) 4128 :=
    onChain_oneBin (-80) (by decide) rfl (by omega) (by omega) (by omega)
  have hread : (oneBinHive 32 (keyCells (-88))).reader.readCell ⟨112⟩ =
      .ok (.keyNode (nkRecord ⟨0x20⟩ 0 0xFFFFFFFF 0 0xFFFFFFFF [0x41])) :=
    Hive.readCell_oneBin 80 88 (by omega) rfl (by decide) (by omega) (by decide)
      (by decide)
  have hcheck : PassesChecks (.keyNode (nkRecord ⟨0x20⟩ 0 0xFFFFFFFF 0 0xFFFFFFFF [0x41])) :=
    ⟨by decide, by decide⟩
  obtain ⟨hive', records, hopen, hcarve, hone⟩ := @deletion_recoverable _ _ _ [] [] ⟨0, 4096, 4096⟩
    ⟨112⟩ 4208 _ (Hive.fromBytes_oneBinImage (by omega)) rfl hchain
    (by rw [hsizeKey]; decide) (by decide) rfl hread hcheck hflip
  refine ⟨hive', records, hopen, hcarve, ?_⟩
  have hshort : (flipSign (oneBinImage 32 (keyCells (-88))) 4208).length < 2 ^ 32 := by
    rw [hflip.length]; omega
  obtain ⟨_, hcarve', _, hsorted⟩ := recoverDeleted_sound hopen hshort
  obtain rfl : records = _ := Exec.ok.inj (hcarve.symm.trans hcarve')
  have hfew := length_filter_lt_le hsorted 4208
  have hmax : maxRecoveries = 100000 := rfl
  exact hone (by decide) (by omega)

/-! ## At the greatest file offset -/

/-- The header of a bin. -/
def binHeader (offset size : UInt32) : Bytes :=
  hbinMagic ++ u32Bytes offset ++ u32Bytes size ++ List.replicate 20 0

/-- A base block, a bin of 4096 zeros behind its header, and the header of a second bin, which ends
    at `2 ^ 32 + 4096`. -/
def gapPrefix : Bytes :=
  imageBlock 32 8192 ++ (List.replicate 3584 0 ++ (binHeader 0 4096 ++ (List.replicate 4064 0 ++
    binHeader 4096 0xFFFFF000)))

/-- A value without a name and without data. -/
def emptyValue : RawKeyValue := ⟨0, 0, 0, .none, ⟨0⟩, []⟩

/-- The body of a `vk`, a second `vk` in its slack, and zeros. -/
def twoValues : Bytes :=
  emptyValue.toBytes 0 0 ++ (emptyValue.toBytes 0 0 ++ List.replicate 4053 0)

/-- The second bin holds a cell with `n` zeros, a cell with `m` zeros and the two values. -/
def gapImage (n m : Nat) : Bytes :=
  gapPrefix ++ (i32Bytes (-(n + 4 : Nat)) ++ (List.replicate n 0 ++ (i32Bytes (-(m + 4 : Nat)) ++
    (List.replicate m 0 ++ (i32Bytes (-4097) ++ twoValues)))))

section Gap

variable {n m : Nat}

/-- The base block and a bin of one page. -/
theorem length_gapPrefix : gapPrefix.length = 8224 := by
  simp only [gapPrefix, binHeader, List.length_append, length_imageBlock, length_u32Bytes,
    List.length_replicate, show hbinMagic.length = 4 from rfl]

/-- The two value records and the bytes between them. -/
theorem length_twoValues : twoValues.length = 4093 := by
  simp only [twoValues, List.length_append, List.length_replicate,
    show (emptyValue.toBytes 0 0).length = 20 from rfl]

theorem length_gapImage (n m : Nat) : (gapImage n m).length = 12329 + n + m := by
  simp only [gapImage, List.length_append, length_gapPrefix, length_i32Bytes, length_twoValues,
    List.length_replicate]
  omega

/-- The parts of the image, each at its place. -/
theorem bytesAt_gapImage :
    (∀ off k, off + k ≤ 8224 → bytesAt (gapImage n m) off k = bytesAt gapPrefix off k) ∧
    bytesAt (gapImage n m) 8224 4 = i32Bytes (-(n + 4 : Nat)) ∧
    bytesAt (gapImage n m) 8228 n = List.replicate n 0 ∧
    bytesAt (gapImage n m) (8228 + n) 4 = i32Bytes (-(m + 4 : Nat)) ∧
    bytesAt (gapImage n m) (8232 + n) m = List.replicate m 0 ∧
    bytesAt (gapImage n m) (8232 + n + m) 4 = i32Bytes (-4097) ∧
    bytesAt (gapImage n m) (8236 + n + m) 4093 = twoValues := by
  have hp := length_gapPrefix
  have ht := length_twoValues
  have hlen := length_i32Bytes
  have hzeros : ∀ k, (List.replicate k (0 : UInt8)).length = k := fun k => List.length_replicate
  -- the cut moves on behind one part after the other
  have hfirst : gapImage n m = gapPrefix ++ (i32Bytes (-(n + 4 : Nat)) ++ _) := rfl
  have hfirstBody := hfirst.trans (List.append_assoc _ _ _).symm
  have hsecond := hfirstBody.trans (List.append_assoc _ _ _).symm
  have hsecondBody := hsecond.trans (List.append_assoc _ _ _).symm
  have hthird := hsecondBody.trans (List.append_assoc _ _ _).symm
  have hthirdBody := (hthird.trans (List.append_assoc _ _ _).symm).trans
    (congrArg _ (List.append_nil twoValues).symm)
  refine ⟨fun off k h => bytesAt_append_left (by omega), bytesAt_part hfirst hp (hlen _),
    bytesAt_part hfirstBody ?_ (hzeros n), bytesAt_part hsecond ?_ (hlen _),
    bytesAt_part hsecondBody ?_ (hzeros m), bytesAt_part hthird ?_ (hlen _),
    bytesAt_part hthirdBody ?_ ht⟩
  all_goals simp only [List.length_append, hp, hlen, hzeros] <;> omega

/-- The size fields of the three cells. -/
theorem i32At_gapImage (hn : n = 2147483644) (hm : m = 2147475419) :
    i32At (gapImage n m) 8224 = -(n + 4 : Nat) ∧ i32At (gapImage n m) (8228 + n) = -(m + 4 : Nat) ∧
      i32At (gapImage n m) (8232 + n + m) = -4097 := by
  obtain ⟨_, h1, _, h2, _, h3, _⟩ := @bytesAt_gapImage n m
  exact ⟨i32At_of_bytesAt (by omega) (by omega) h1, i32At_of_bytesAt (by omega) (by omega) h2,
    i32At_of_bytesAt (by omega) (by omega) h3⟩

/-- The two bins. -/
def gapBins : List HbinDescriptor := [⟨0, 4096, 4096⟩, ⟨4096, 0xFFFFF000, 8192⟩]

/-- The hive that opens from the image. -/
def gapHive (n m : Nat) : Hive :=
  ⟨gapImage n m, imageBaseBlock 32 8192, .v1_5, gapBins, bytesAt (gapImage n m) 0 BaseBlock.size⟩

/-- Bytes before the second bin do not keep the hive from opening. -/
theorem gapImage_opens : Hive.fromBytes (gapImage n m) = .ok (gapHive n m) := by
  have hlen := length_gapImage n m
  have hsize : BaseBlock.size = 4096 := rfl
  have hblockLen := length_imageBlock 32 8192
  obtain ⟨hbefore, _⟩ := @bytesAt_gapImage n m
  have hblock : bytesAt (gapImage n m) 0 512 = imageBlock 32 8192 := by
    rw [hbefore 0 512 (by omega), gapPrefix, bytesAt_append_left (by omega)]
    exact bytesAt_zero_of_length_le (by omega)
  -- the two bin headers, field by field
  have hfirst : ∀ off k, off + k ≤ 32 →
      bytesAt (gapImage n m) (4096 + off) k = bytesAt (binHeader 0 4096) off k := by
    intro off k hk
    rw [hbefore _ _ (by omega), gapPrefix, bytesAt_append_right (by omega), hblockLen,
      bytesAt_append_right (by rw [List.length_replicate]; omega), List.length_replicate,
      bytesAt_append_left (show _ ≤ 32 by omega), show 4096 + off - 512 - 3584 = off by omega]
  have hsecond : ∀ off k, off + k ≤ 32 →
      bytesAt (gapImage n m) (8192 + off) k = bytesAt (binHeader 4096 0xFFFFF000) off k := by
    intro off k hk
    rw [hbefore _ _ (by omega), gapPrefix, bytesAt_append_right (by omega), hblockLen,
      bytesAt_append_right (by rw [List.length_replicate]; omega), List.length_replicate,
      bytesAt_append_right (show (binHeader 0 4096).length ≤ _ from show 32 ≤ _ by omega),
      show (binHeader 0 4096).length = 32 from rfl,
      bytesAt_append_right (by rw [List.length_replicate]; omega), List.length_replicate,
      show 8192 + off - 512 - 3584 - 32 - 4064 = off by omega]
  have hoff1 : u32At (gapImage n m) 4100 = 0 := u32At_of_bytesAt ((hfirst 4 4 (by omega)).trans rfl)
  have hsize1 : u32At (gapImage n m) 4104 = 4096 :=
    u32At_of_bytesAt ((hfirst 8 4 (by omega)).trans rfl)
  have hoff2 : u32At (gapImage n m) 8196 = 4096 :=
    u32At_of_bytesAt ((hsecond 4 4 (by omega)).trans rfl)
  have hsize2 : u32At (gapImage n m) 8200 = 0xFFFFF000 :=
    u32At_of_bytesAt ((hsecond 8 4 (by omega)).trans rfl)
  have hbin1 : BinAt (gapImage n m) 12288 4096 :=
    ⟨by omega, by omega, (hfirst 0 4 (by omega)).trans rfl, by rw [hsize1]; decide,
      by rw [hsize1]; decide⟩
  have hbin2 : BinAt (gapImage n m) 12288 8192 :=
    ⟨by omega, by omega, (hsecond 0 4 (by omega)).trans rfl, by rw [hsize2]; decide,
      by rw [hsize2]; decide⟩
  -- the walk notes both bins; the second one leads out of the file and ends it
  have hcat2 : Cataloged (gapImage n m) 12288 8192 [binAt (gapImage n m) 8192] :=
    .bin hbin2 (.stop (Or.inl (by rw [hsize2]; decide)))
  have hcat1 : Cataloged (gapImage n m) 12288 4096
      [binAt (gapImage n m) 4096, binAt (gapImage n m) 8192] := by
    refine .bin hbin1 ?_
    rw [hsize1]
    exact hcat2
  rw [binAt, binAt, hoff1, hsize1, hoff2, hsize2] at hcat1
  obtain ⟨hread, hsum⟩ := BaseBlock.read_imageBlock (by omega) hblock
  exact Hive.fromBytes_of_stages (by omega) hread hsum rfl hcat1

/-- A region that starts with a zero holds no record. -/
theorem recordOf_zero {region : Bytes} (h : region[0]? = some 0) (pos : Nat)
    (source : RecoverySource) : recordOf region pos source = none := by
  unfold recordOf
  split
  · rename_i b0 b1 afterSig
    obtain rfl : b0 = 0 := Option.some.inj h
    rfl
  · rfl

/-- Zeros hold no records. -/
theorem slackRecords_zeros {data : Bytes} {start stop : Nat}
    (h : ∀ i, start ≤ i → i < stop → data[i]? = some 0) : slackRecords data start stop = [] := by
  unfold slackRecords
  rw [List.filterMap_eq_nil_iff]
  intro abs habs
  obtain ⟨hlo, hhi⟩ := List.mem_range'_1.mp habs
  have hzero : (bytesAt data abs (stop - abs))[0]? = some 0 := by
    rw [getElem?_bytesAt, if_pos (by omega), Nat.add_zero]
    exact h abs hlo (by omega)
  rw [slackRecord, recordOf_zero hzero, Option.map_none]

/-- The record of the empty value. -/
theorem recordOf_emptyValue (tail : Bytes) (pos : Nat) (source : RecoverySource) :
    recordOf (emptyValue.toBytes 0 0 ++ tail) pos source =
      some (.value ⟨[], 0, [], toU32OrMax pos, false, source, confidenceOf source⟩) := by
  have hparse : RawKeyValue.parse (emptyValue.fieldBytes 0 0 ++ tail) = some emptyValue :=
    RawKeyValue.parse_fieldBytes 0 tail rfl rfl rfl
  have hsig : CellSignature.fromBytes 0x76 0x6B = some .keyValue := by decide
  show recordFrom 0x76 0x6B (emptyValue.fieldBytes 0 0 ++ tail) _ false source = _
  unfold recordFrom
  rw [hsig]
  dsimp only
  rw [hparse]
  rfl

/-- The bytes of the gaps are zero. -/
theorem gapImage_zeros {i : Nat} (hi : 8228 ≤ i ∧ i < 8228 + n ∨
    8232 + n ≤ i ∧ i < 8232 + n + m) : (gapImage n m)[i]? = some 0 := by
  have hget : ∀ start len, bytesAt (gapImage n m) start len = List.replicate len 0 →
      start ≤ i → i < start + len → (gapImage n m)[i]? = some 0 := by
    intro start len hzero hlo hhi
    have hat := getElem?_bytesAt (gapImage n m) start len (i - start)
    rw [if_pos (by omega), Nat.add_sub_cancel' hlo, hzero, List.getElem?_replicate,
      if_pos (by omega)] at hat
    exact hat.symm
  obtain ⟨_, _, hfirst, _, hsecond, _⟩ := @bytesAt_gapImage n m
  rcases hi with hi | hi
  · exact hget _ _ hfirst hi.1 hi.2
  · exact hget _ _ hsecond hi.1 hi.2

/-- Both values stand in the last cell: one at its head, one in its slack. -/
theorem bytesAt_gapImage_values :
    bytesAt (gapImage n m) (8236 + n + m) 4093 =
      emptyValue.toBytes 0 0 ++ (emptyValue.toBytes 0 0 ++ List.replicate 4053 0) ∧
    bytesAt (gapImage n m) (8256 + n + m) 4073 =
      emptyValue.toBytes 0 0 ++ List.replicate 4053 0 := by
  obtain ⟨_, _, _, _, _, _, hvalues⟩ := @bytesAt_gapImage n m
  refine ⟨hvalues, ?_⟩
  have hinner := @bytesAt_bytesAt (gapImage n m) (8236 + n + m) 4093 20 4073 (by omega)
  rw [hvalues, twoValues, show 8236 + n + m + 20 = 8256 + n + m by omega] at hinner
  rw [← hinner, bytesAt_append_right (show (emptyValue.toBytes 0 0).length ≤ 20 from
    (show (emptyValue.toBytes 0 0).length = 20 from rfl).le)]
  refine bytesAt_zero_of_length_le ?_
  rw [List.length_append, List.length_replicate, show (emptyValue.toBytes 0 0).length = 20 from rfl]

/-! ### The last cell freed -/

section Freed

variable {data' : Bytes} (hflip : SignFlipped (gapImage n m) data' (8232 + n + m))

/-- From 2^32 - 1 on offsets are reported as the greatest one. -/
theorem toU32OrMax_of_le {k : Nat} (hk : 2 ^ 32 - 1 ≤ k) : toU32OrMax k = 0xFFFFFFFF :=
  UInt32.toNat_inj.mp (by rw [toNat_toU32OrMax, Nat.min_eq_right hk]; rfl)

include hflip

/-- The gaps hold no records. -/
theorem slackRecords_gap {start stop : Nat} (h : ∀ i, start ≤ i → i < stop →
      8228 ≤ i ∧ i < 8228 + n ∨ 8232 + n ≤ i ∧ i < 8232 + n + m) :
    slackRecords data' start stop = [] :=
  slackRecords_zeros fun i hlo hhi => by
    rw [hflip.frame i (Or.inl (by have hi := h i hlo hhi; omega))]
    exact gapImage_zeros (h i hlo hhi)

/-- The cells before the last one are as they were. -/
theorem cellAt_gap {pos k : Nat} (hpos : pos + 4 ≤ 8232 + n + m)
    (hraw : i32At (gapImage n m) pos = -(k : Nat)) (hk : 0 < k) :
    (cellAt data' pos).isAllocated = true ∧ (cellAt data' pos).size = k := by
  have hat : cellAt data' pos = ⟨-(k : Nat)⟩ :=
    (hflip.changedIn.cellAt_eq (Or.inl hpos)).trans (congrArg CellHeader.mk hraw)
  rw [hat]
  exact ⟨decide_eq_true (show -(k : Int) < 0 by omega), show (-(k : Int)).natAbs = k by omega⟩

/-- The last cell is free. -/
theorem cellAt_freed (hraw : i32At (gapImage n m) (8232 + n + m) = -4097) :
    (cellAt data' (8232 + n + m)).isAllocated = false ∧
      (cellAt data' (8232 + n + m)).size = 4097 := by
  have hlast : cellAt data' (8232 + n + m) = ⟨4097⟩ :=
    congrArg CellHeader.mk (by rw [hflip.flipped, hraw]; rfl)
  rw [hlast]
  exact ⟨rfl, rfl⟩

/-- The first bin holds no cell. -/
theorem binRecords_firstBin : binRecords data' 8192 4128 = [] := by
  have hmin : minCellSize = 8 := rfl
  have hzero : bytesAt (gapImage n m) 4128 4 = [0, 0, 0, 0] := by
    obtain ⟨hbefore, _⟩ := @bytesAt_gapImage n m
    have hblockLen := length_imageBlock 32 8192
    have hheader : (binHeader 0 4096).length = 32 := rfl
    rw [hbefore _ _ (by omega), gapPrefix, bytesAt_append_right (by omega), hblockLen,
      bytesAt_append_right (by rw [List.length_replicate]; omega), List.length_replicate,
      bytesAt_append_right (by omega), hheader,
      bytesAt_append_left (by rw [List.length_replicate]; omega)]
    exact bytesAt_replicate (by omega)
  have hsize : (cellAt data' 4128).size = 0 := by
    rw [cellAt, i32At, hflip.changedIn.bytesAt_eq (Or.inl (by omega)), hzero]
    rfl
  rw [binRecords, if_neg (by omega)]

/-- The first value stands at the head of the freed cell. -/
theorem headRecord_gap (hfar : 2 ^ 32 - 1 ≤ 8232 + n + m) :
    headRecord data' (8232 + n + m) (12329 + n + m) =
      some (.value ⟨[], 0, [], 0xFFFFFFFF, false, .unallocatedCell, .high⟩) := by
  unfold headRecord
  rw [show 8232 + n + m + 4 = 8236 + n + m by omega,
    show 12329 + n + m - (8236 + n + m) = 4093 by omega,
    hflip.changedIn.bytesAt_eq (Or.inr (by omega)), bytesAt_gapImage_values.1,
    recordOf_emptyValue, toU32OrMax_of_le hfar]
  rfl

/-- The second value stands in its slack. -/
theorem slackRecord_gap (hfar : 2 ^ 32 - 1 ≤ 8232 + n + m) :
    slackRecord data' (12329 + n + m) (8256 + n + m) =
      some (8252 + n + m, .value ⟨[], 0, [], 0xFFFFFFFF, false, .slack, .medium⟩) := by
  unfold slackRecord
  rw [show 12329 + n + m - (8256 + n + m) = 4073 by omega,
    show 8256 + n + m - 4 = 8252 + n + m by omega,
    hflip.changedIn.bytesAt_eq (Or.inr (by omega)), bytesAt_gapImage_values.2,
    recordOf_emptyValue, toU32OrMax_of_le (by omega)]
  rfl

/-- The records of the hive in which the last cell is freed: the value at its head, and the records
    of its slack, the second value among them. -/
theorem hiveRecords_gap (hn : n = 2147483644) (hm : m = 2147475419) {hive' : Hive}
    (hdata' : hive'.data = data') (hbins' : hive'.bins = gapBins) :
    ∃ slack, hiveRecords hive' =
        (8232 + n + m, .value ⟨[], 0, [], 0xFFFFFFFF, false, .unallocatedCell, .high⟩) :: slack ∧
      (8252 + n + m, .value ⟨[], 0, [], 0xFFFFFFFF, false, .slack, .medium⟩) ∈ slack ∧
      slack.length ≤ 4096 := by
  have hlen := length_gapImage n m
  have hlen' := hflip.length
  obtain ⟨hraw1, hraw2, hraw3⟩ := i32At_gapImage hn hm
  have hmin : minCellSize = 8 := rfl
  have hscan : maxScanBytes = 536870912 := rfl
  have hfar : 2 ^ 32 - 1 ≤ 8232 + n + m := by omega
  obtain ⟨halloc1, hsize1⟩ := cellAt_gap hflip (by omega) hraw1 (by omega)
  obtain ⟨halloc2, hsize2⟩ := cellAt_gap hflip (by omega) hraw2 (by omega)
  obtain ⟨hfree, hsize3⟩ := cellAt_freed hflip hraw3
  have hend1 : binEnd data' ⟨0, 4096, 4096⟩ = 8192 := by
    unfold binEnd
    rw [show (4096 : Nat) + (4096 : UInt32).toNat = 8192 from rfl]
    omega
  have hend2 : binEnd data' ⟨4096, 0xFFFFF000, 8192⟩ = 12329 + n + m := by
    unfold binEnd
    rw [show (8192 : Nat) + (0xFFFFF000 : UInt32).toNat = 4294971392 from rfl]
    omega
  have hstop : binRecords data' (12329 + n + m) (8232 + n + m + 4097) = [] := by
    rw [binRecords, if_neg (by omega)]
  refine ⟨slackRecords data' (8238 + n + m) (12329 + n + m), ?_, ?_, ?_⟩
  · unfold hiveRecords
    rw [hdata', hbins', gapBins, binsRecords, if_neg (by omega), hend1]
    dsimp only
    rw [if_neg (by omega), binRecords_firstBin hflip, List.nil_append, binsRecords,
      if_neg (by omega), hend2]
    dsimp only
    rw [if_neg (by omega), binsRecords, List.append_nil]
    -- the two cells with zeros, then the freed cell
    show binRecords data' (12329 + n + m) 8224 = _
    rw [binRecords, if_pos (by omega), hsize1, cellRecords, if_pos halloc1,
      slackRecords_gap hflip (by omega), List.nil_append,
      show 8224 + (n + 4) = 8228 + n by omega, binRecords, if_pos (by omega), hsize2, cellRecords,
      if_pos halloc2, slackRecords_gap hflip (by omega), List.nil_append,
      show 8228 + n + (m + 4) = 8232 + n + m by omega, binRecords, if_pos (by omega), hsize3, hstop,
      List.append_nil, show min (8232 + n + m + 4097) (12329 + n + m) = 12329 + n + m by omega,
      cellRecords, hfree, if_neg (by decide), headRecord_gap hflip hfar]
    show _ :: slackRecords data' (8232 + n + m + 6) _ = _
    rw [show 8232 + n + m + 6 = 8238 + n + m by omega]
  · refine List.mem_filterMap.mpr ⟨8256 + n + m, ?_, slackRecord_gap hflip hfar⟩
    exact List.mem_range'_1.mpr ⟨by omega, by omega⟩
  · have hle := List.length_filterMap_le (slackRecord data' (12329 + n + m))
      (List.range' (8238 + n + m) (12329 + n + m - 1 - (8238 + n + m)))
    rw [List.length_range'] at hle
    exact Nat.le_trans hle (by omega)

end Freed

/-- Two elements of a list, the head and a later one, that pass a test. -/
theorem one_lt_length_filter {α : Type} {p : α → Bool} {x y : α} {xs : List α} (hx : p x = true)
    (hmem : y ∈ xs) (hy : p y = true) : 1 < ((x :: xs).filter p).length := by
  rw [List.filter_cons_of_pos hx, List.length_cons]
  exact Nat.succ_lt_succ (List.length_pos_of_mem (List.mem_filter.mpr ⟨hmem, hy⟩))

/-- Freeing the last cell of the image satisfies every condition of `deletion_recoverable` but the
    bound on the offset, and two records come back at it. -/
theorem gap_ambiguous (hn : n = 2147483644) (hm : m = 2147475419) {f : Nat}
    (hf : f = 8232 + n + m) :
    OnChain (gapImage n m) f 8224 ∧ (cellAt (gapImage n m) f).size = 4097 ∧
      (gapHive n m).reader.readCell ⟨0xFFFFEFFF⟩ = .ok (.keyValue emptyValue) ∧
      ∃ data' hive' records, SignFlipped (gapImage n m) data' f ∧
        Hive.fromBytes data' = .ok hive' ∧ recoverDeleted hive' = .ok records ∧
        (records.filter fun r => r.fileOffset.toNat < f).length < maxRecoveries ∧
        1 < (records.filter fun r => r.fileOffset.toNat = f).length := by
  subst hf
  have hlen := length_gapImage n m
  obtain ⟨hraw1, hraw2, hraw3⟩ := i32At_gapImage hn hm
  obtain ⟨hvalues, _⟩ := @bytesAt_gapImage_values n m
  have hmaxRec : maxRecoveries = 100000 := rfl
  have hsize1 : (cellAt (gapImage n m) 8224).size = n + 4 := by
    rw [cellAt, hraw1]
    show (-((n + 4 : Nat) : Int)).natAbs = n + 4
    omega
  have hsize2 : (cellAt (gapImage n m) (8228 + n)).size = m + 4 := by
    rw [cellAt, hraw2]
    show (-((m + 4 : Nat) : Int)).natAbs = m + 4
    omega
  have hchain : OnChain (gapImage n m) (8232 + n + m) 8224 := by
    refine .next (by omega) ?_
    rw [hsize1, show 8224 + (n + 4) = 8228 + n by omega]
    refine .next (by omega) ?_
    rw [hsize2, show 8228 + n + (m + 4) = 8232 + n + m by omega]
    exact .here
  have hoff : (CellOffset.mk 0xFFFFEFFF).fileOffset = 8232 + n + m := by
    show 4096 + 4294963199 = _
    omega
  have hread : (gapHive n m).reader.readCell ⟨0xFFFFEFFF⟩ = .ok (.keyValue emptyValue) := by
    have hraw := @Hive.readCellRaw_allocated (gapHive n m) ⟨0xFFFFEFFF⟩ 4097 rfl
      (by rw [hoff]; exact hraw3) (by omega) (by rw [hoff]; show _ ≤ (gapImage n m).length; omega)
    rw [hoff, show (gapHive n m).data = gapImage n m from rfl,
      show 8232 + n + m + 4 = 8236 + n + m by omega, show 4097 - 4 = 4093 from rfl, hvalues] at hraw
    have hparse := @RawKeyValue.parse_fieldBytes emptyValue 0 0
      (emptyValue.toBytes 0 0 ++ List.replicate 4053 0) rfl rfl rfl
    have hreader : (gapHive n m).reader.readCellRaw = (gapHive n m).readCellRaw := rfl
    rw [CellReader.readCell, hreader, hraw, Exec.ok_bind]
    dsimp only
    rw [RawKeyValue.toBytes, List.cons_append, List.cons_append]
    exact dispatchCell_keyValue hparse _
  -- the freed hive
  have hflip : SignFlipped (gapImage n m) (flipSign (gapImage n m) (8232 + n + m))
      (8232 + n + m) :=
    signFlipped_flipSign (by omega) (by rw [hraw3]; decide)
  have hend : (0xFFFFF000 : UInt32).toNat = 4294963200 := rfl
  obtain ⟨hive', hopen', hdata', hbins'⟩ := @ChangedIn.fromBytes _ _ _ _
    hflip.changedIn _ [⟨0, 4096, 4096⟩] [] ⟨4096, 0xFFFFF000, 8192⟩ gapImage_opens rfl
    (show 8192 + 32 ≤ _ by omega) (show _ ≤ 8192 + (0xFFFFF000 : UInt32).toNat by omega)
  obtain ⟨slack, hall, hmem, hfew⟩ := hiveRecords_gap hflip hn hm hdata' hbins'
  have hcarve := recoverDeleted_eq hive'
  rw [hall, List.map_cons, List.take_of_length_le (by
    rw [List.length_cons, List.length_map]; omega)] at hcarve
  refine ⟨hchain, by rw [cellAt, hraw3]; rfl, hread, _, hive', _, hflip, hopen', hcarve, ?_, ?_⟩
  · refine Nat.lt_of_le_of_lt (List.length_filter_le _ _) ?_
    rw [List.length_cons, List.length_map]
    omega
  · have hat : (0xFFFFFFFF : UInt32).toNat = 8232 + n + m := by
      show 4294967295 = _
      omega
    exact one_lt_length_filter (decide_eq_true hat) (List.mem_map_of_mem hmem)
      (decide_eq_true hat)

end Gap

/-- **At the offset `u32::MAX` deletion is ambiguous**: the positions behind it are reported as
    `u32::MAX` too, so a signature in the slack of the freed cell gives a second record there. -/
theorem deletion_ambiguous_at_u32_max :
    Hive.fromBytes (gapImage 2147483644 2147475419) = .ok (gapHive 2147483644 2147475419) ∧
    (gapHive 2147483644 2147475419).bins = [⟨0, 4096, 4096⟩] ++ ⟨4096, 0xFFFFF000, 8192⟩ :: [] ∧
    OnChain (gapImage 2147483644 2147475419) (2 ^ 32 - 1) (8192 + 32) ∧
    2 ^ 32 - 1 + (cellAt (gapImage 2147483644 2147475419) (2 ^ 32 - 1)).size ≤
      8192 + (0xFFFFF000 : UInt32).toNat ∧
    (CellOffset.mk 0xFFFFEFFF).fileOffset = 2 ^ 32 - 1 ∧
    (gapHive 2147483644 2147475419).reader.readCell ⟨0xFFFFEFFF⟩ = .ok (.keyValue emptyValue) ∧
    PassesChecks (.keyValue emptyValue) ∧
    ∃ data' hive' records, SignFlipped (gapImage 2147483644 2147475419) data' (2 ^ 32 - 1) ∧
      Hive.fromBytes data' = .ok hive' ∧ recoverDeleted hive' = .ok records ∧
      scannedIn data' [⟨0, 4096, 4096⟩] < maxScanBytes ∧
      (records.filter fun r => r.fileOffset.toNat < 2 ^ 32 - 1).length < maxRecoveries ∧
      1 < (records.filter fun r => r.fileOffset.toNat = 2 ^ 32 - 1).length := by
  obtain ⟨hchain, hsize, hread, data', hive', records, hflip, hopen', hcarve, hfew, htwo⟩ :=
    @gap_ambiguous 2147483644 2147475419 rfl rfl (2 ^ 32 - 1) (by norm_num)
  have hscanned : scannedIn data' [⟨0, 4096, 4096⟩] ≤ 4096 + (4096 : UInt32).toNat := by
    rw [scannedIn, List.map_cons, List.map_nil, List.sum_cons, List.sum_nil, Nat.add_zero]
    exact Nat.le_trans (Nat.sub_le _ _) (Nat.min_le_left _ _)
  have hsmall : (4096 : UInt32).toNat = 4096 := rfl
  have hcap : maxScanBytes = 536870912 := rfl
  refine ⟨gapImage_opens, rfl, hchain, ?_, rfl, hread, ⟨by decide, Or.inl rfl⟩, data', hive',
    records, hflip, hopen', hcarve, by omega, hfew, htwo⟩
  rw [hsize]
  decide

end Carve

end Winreg
