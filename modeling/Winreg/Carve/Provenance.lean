/-
  PROVENANCE of carved records: the cell that encloses a record.

  The carver walks over cells and looks for records inside them.  A record at the head of a free
  cell is reported with the offset of that cell; a record found deeper is reported with the offset
  four bytes before its own signature, as if a size field stood there.

  1. **Where records are** — the uncapped walk finds exactly the records that start somewhere in the
     swept part of a cell (`mem_hiveRecords`, `exists_mem_hiveRecords`); the cells of the chains are
     disjoint, so one cell encloses each record (`Encloses.unique`).
  2. **Live cells** — a cell that navigation reads is allocated and on a chain, and every reported
     offset is a free cell or strictly inside some cell: the two never meet (`recovered_not_live`).
  3. **The reported cell** — the reported offset and the reported state are those of the enclosing
     cell exactly when every record found is at the head of a free cell
     (`trueProvenance_iff_onlyHeads`).
-/
import Winreg.Carve.Deletion
import Winreg.Core.Iter
import Mathlib.Data.Set.Card

namespace Winreg

open Rust Relation

namespace Carve

/-! ## The cells of the walk -/

/-- The walk over a bin handles the cell at `c`. -/
structure CellOf (data : Bytes) (bin : HbinDescriptor) (c : Nat) : Prop where
  onChain : OnChain data c (bin.fileOffset + 32)
  field_inside : c + 4 ≤ binEnd data bin
  size_min : minCellSize ≤ (cellAt data c).size

/-- The end of the cell at `c`, cut off at the end of its bin. -/
def cellEnd (data : Bytes) (bin : HbinDescriptor) (c : Nat) : Nat :=
  min (c + (cellAt data c).size) (binEnd data bin)

/-- The cell at `c` is on the cell chain of a bin. -/
def OnCellChain (hive : Hive) (c : Nat) : Prop := ∃ bin ∈ hive.bins, CellOf hive.data bin c

/-- The scan cap is not reached before the bin. -/
def Reached (hive : Hive) (bin : HbinDescriptor) : Prop :=
  ∃ before after, hive.bins = before ++ bin :: after ∧ scannedIn hive.data before < maxScanBytes

/-- The body of the cell at `c`, over which the carver walks, encloses the position `abs`. -/
structure Encloses (hive : Hive) (bin : HbinDescriptor) (c abs : Nat) : Prop where
  reached : Reached hive bin
  cell : CellOf hive.data bin c
  behind_field : c + 4 ≤ abs
  before_end : abs < cellEnd hive.data bin c

/-- Whether the bytes from `abs` to `stop` start with a plausible record. -/
def startsRecord (data : Bytes) (stop abs : Nat) : Bool :=
  (recordOf (bytesAt data abs (stop - abs)) (abs - 4) .slack).isSome

/-- A record starts at `abs` in the part of the cell at `c` that is swept: all of a free cell, and
    what is behind the two bytes of the live signature of an allocated one. -/
structure RecordAt (hive : Hive) (bin : HbinDescriptor) (c abs : Nat) : Prop
    extends Encloses hive bin c abs where
  swept : (cellAt hive.data c).isAllocated = true → c + 6 ≤ abs
  starts : startsRecord hive.data (cellEnd hive.data bin c) abs = true

/-- A bin that is scanned is one of the hive's. -/
theorem Reached.mem {hive : Hive} {bin : HbinDescriptor} (h : Reached hive bin) :
    bin ∈ hive.bins := by
  obtain ⟨before, after, hbins, _⟩ := h
  rw [hbins]
  exact List.mem_append_right _ List.mem_cons_self

/-- Two cells of one chain are the same or do not overlap. -/
theorem OnChain.disjoint {data : Bytes} {pos c c' : Nat} (h : OnChain data c pos)
    (h' : OnChain data c' pos) :
    c = c' ∨ c + (cellAt data c).size ≤ c' ∨ c' + (cellAt data c').size ≤ c := by
  induction h with
  | here =>
    cases h' with
    | here => exact Or.inl rfl
    | next _ rest => exact Or.inr (Or.inl rest.le)
  | next hsize rest ih =>
    cases h' with
    | here => exact Or.inr (Or.inr rest.le)
    | next _ rest' => exact ih rest'

section Cells

variable {hive : Hive} {bin bin' : HbinDescriptor} {c c' : Nat}

/-- A cell ends with its size, with its bin or with the file, whichever comes first. -/
theorem cellEnd_le (data : Bytes) (bin : HbinDescriptor) (c : Nat) :
    cellEnd data bin c ≤ c + (cellAt data c).size ∧
      cellEnd data bin c ≤ bin.fileOffset + bin.size.toNat ∧ cellEnd data bin c ≤ data.length := by
  unfold cellEnd binEnd
  omega

/-- No cell of the chains starts inside another one. -/
theorem CellOf.not_inside (hive_ok : hive.Accepted) (hb : bin ∈ hive.bins) (hb' : bin' ∈ hive.bins)
    (h : CellOf hive.data bin c) (h' : CellOf hive.data bin' c') :
    ¬ (c < c' ∧ c' < cellEnd hive.data bin c) := by
  rintro ⟨hlo, hhi⟩
  obtain ⟨hend, hbin, _⟩ := cellEnd_le hive.data bin c
  have hmin : minCellSize = 8 := rfl
  have hstart := h.onChain.le
  have hstart' := h'.onChain.le
  have hfield' := h'.field_inside
  unfold binEnd at hfield'
  rcases hive_ok.tiling.disjoint hb hb' with rfl | hdis | hdis
  · rcases h.onChain.disjoint h'.onChain with heq | hle | hle
    · omega
    · omega
    · have := h'.size_min
      omega
  · omega
  · omega

/-- **One cell encloses a position.** -/
theorem Encloses.unique (hive_ok : hive.Accepted) {abs : Nat} (h : Encloses hive bin c abs)
    (h' : Encloses hive bin' c' abs) : c = c' := by
  have hlo := h.behind_field
  have hlo' := h'.behind_field
  have hhi := h.before_end
  have hhi' := h'.before_end
  rcases Nat.lt_trichotomy c c' with hlt | heq | hgt
  · exact absurd ⟨hlt, by omega⟩
      (h.cell.not_inside hive_ok h.reached.mem h'.reached.mem h'.cell)
  · exact heq
  · exact absurd ⟨hgt, by omega⟩
      (h'.cell.not_inside hive_ok h'.reached.mem h.reached.mem h.cell)

end Cells

/-! ## Where records are -/

/-- The two bytes that a record starts with. -/
theorem signature_of_recordOf {region : Bytes} {pos : Nat} {source : RecoverySource}
    {record : RecoveredCell} (h : recordOf region pos source = some record) :
    (region[0]? = some 0x6E ∨ region[0]? = some 0x76) ∧ region[1]? = some 0x6B := by
  rcases recordOf_eq_some_iff.mp h with ⟨_, _, rfl, _⟩ | ⟨_, _, rfl, _⟩
  · exact ⟨Or.inl rfl, rfl⟩
  · exact ⟨Or.inr rfl, rfl⟩

/-- Whether bytes are a record does not depend on where they were found. -/
theorem exists_recordOf {region : Bytes} {pos : Nat} {source : RecoverySource}
    {record : RecoveredCell} (h : recordOf region pos source = some record) (pos' : Nat)
    (source' : RecoverySource) : ∃ record', recordOf region pos' source' = some record' := by
  rcases recordOf_eq_some_iff.mp h with
    ⟨afterSig, nk, hregion, hparse, hchecks, hname, _⟩ |
    ⟨afterSig, vk, hregion, hparse, hchecks, hname, _⟩
  · exact ⟨_, recordOf_eq_some_iff.mpr
      (Or.inl ⟨afterSig, nk, hregion, hparse, hchecks, hname, rfl⟩)⟩
  · exact ⟨_, recordOf_eq_some_iff.mpr
      (Or.inr ⟨afterSig, vk, hregion, hparse, hchecks, hname, rfl⟩)⟩

/-- Every record is reported as found in a free cell. -/
theorem allocated_of_recordOf {region : Bytes} {pos : Nat} {source : RecoverySource}
    {record : RecoveredCell} (h : recordOf region pos source = some record) :
    record.allocated = false := by
  rcases recordOf_eq_some_iff.mp h with ⟨_, _, _, _, _, _, rfl⟩ | ⟨_, _, _, _, _, _, rfl⟩
  · rfl
  · rfl

section Records

variable {data : Bytes} {start stop c : Nat} {x : Found}

/-- A record found in slack starts four bytes behind the position it is reported at. -/
theorem mem_slackRecords (hstart : 4 ≤ start) (h : x ∈ slackRecords data start stop) :
    start ≤ x.1 + 4 ∧
      recordOf (bytesAt data (x.1 + 4) (stop - (x.1 + 4))) x.1 .slack = some x.2 := by
  obtain ⟨abs, habs, hrec⟩ := List.mem_filterMap.mp h
  have hlo := (List.mem_range'_1.mp habs).1
  obtain ⟨record, hrecord, rfl⟩ := Option.map_eq_some_iff.mp hrec
  have hback : abs - 4 + 4 = abs := by omega
  dsimp only
  rw [hback]
  exact ⟨hlo, hrecord⟩

/-- A record that starts in the slack is found. -/
theorem exists_mem_slackRecords {abs : Nat} (hlo : start ≤ abs)
    (h : startsRecord data stop abs = true) :
    ∃ record, (abs - 4, record) ∈ slackRecords data start stop := by
  obtain ⟨record, hrecord⟩ := Option.isSome_iff_exists.mp h
  have hlen := length_of_recordOf hrecord
  rw [length_bytesAt] at hlen
  refine ⟨record, List.mem_filterMap.mpr ⟨abs, List.mem_range'_1.mpr ⟨hlo, by omega⟩, ?_⟩⟩
  rw [slackRecord, hrecord]
  rfl

/-- The records of a cell start inside it, in an allocated cell behind the live signature. -/
theorem mem_cellRecords (h : x ∈ cellRecords data c stop) :
    c ≤ x.1 ∧ ((cellAt data c).isAllocated = true → c + 2 ≤ x.1) ∧
      ∃ source, recordOf (bytesAt data (x.1 + 4) (stop - (x.1 + 4))) x.1 source = some x.2 := by
  unfold cellRecords at h
  split at h
  · obtain ⟨hlo, hrec⟩ := mem_slackRecords (by omega) h
    exact ⟨by omega, fun _ => by omega, .slack, hrec⟩
  · rename_i hfree
    have hnot : ∀ p : Prop, (cellAt data c).isAllocated = true → p := fun _ h => absurd h hfree
    split at h
    · rename_i record hhead
      rcases List.mem_cons.mp h with rfl | h
      · exact ⟨Nat.le_refl _, hnot _, .unallocatedCell, hhead⟩
      · obtain ⟨hlo, hrec⟩ := mem_slackRecords (by omega) h
        exact ⟨by omega, hnot _, .slack, hrec⟩
    · obtain ⟨hlo, hrec⟩ := mem_slackRecords (by omega) h
      exact ⟨by omega, hnot _, .slack, hrec⟩

/-- The byte behind the start of a record starts no record. -/
theorem not_startsRecord_succ {abs : Nat} (h : startsRecord data stop abs = true) :
    startsRecord data stop (abs + 1) = false := by
  refine Bool.eq_false_iff.mpr fun hnext => ?_
  obtain ⟨record, hrecord⟩ := Option.isSome_iff_exists.mp h
  obtain ⟨record', hrecord'⟩ := Option.isSome_iff_exists.mp hnext
  obtain ⟨_, hk⟩ := signature_of_recordOf hrecord
  obtain ⟨hnv, _⟩ := signature_of_recordOf hrecord'
  have hlen := length_of_recordOf hrecord
  have hlen' := length_of_recordOf hrecord'
  rw [length_bytesAt] at hlen hlen'
  rw [getElem?_bytesAt, if_pos (by omega)] at hk hnv
  rw [Nat.add_zero, hk] at hnv
  rcases hnv with h | h <;> exact absurd (Option.some.inj h) (by decide)

/-- A record that starts in the swept part of a cell is found. -/
theorem exists_mem_cellRecords {abs : Nat} (hlo : c + 4 ≤ abs)
    (hswept : (cellAt data c).isAllocated = true → c + 6 ≤ abs)
    (h : startsRecord data stop abs = true) :
    ∃ record, (abs - 4, record) ∈ cellRecords data c stop := by
  unfold cellRecords
  split
  · rename_i halloc
    exact exists_mem_slackRecords (hswept halloc) h
  · split
    · rename_i record hhead
      -- behind a record at the head the sweep starts two bytes further
      have hstarts : startsRecord data stop (c + 4) = true :=
        Option.isSome_iff_exists.mpr (exists_recordOf hhead _ _)
      rcases Nat.lt_or_ge abs (c + 6) with hnear | hfar
      · obtain rfl | rfl : abs = c + 4 ∨ abs = c + 4 + 1 := by omega
        · exact ⟨record, by rw [Nat.add_sub_cancel]; exact List.mem_cons_self⟩
        · rw [not_startsRecord_succ hstarts] at h
          cases h
      · obtain ⟨found, hfound⟩ := exists_mem_slackRecords hfar h
        exact ⟨found, List.mem_cons_of_mem _ hfound⟩
    · exact exists_mem_slackRecords hlo h

/-- The records of a bin are those of its cells. -/
theorem mem_binRecords_iff {pos : Nat} : x ∈ binRecords data stop pos ↔
    ∃ c, OnChain data c pos ∧ c + 4 ≤ stop ∧ minCellSize ≤ (cellAt data c).size ∧
      x ∈ cellRecords data c (min (c + (cellAt data c).size) stop) := by
  induction pos using binRecords.induct data stop with
  | case1 pos hcell ih =>
    rw [binRecords, if_pos hcell, List.mem_append, ih]
    constructor
    · rintro (hx | ⟨c, hchain, hc⟩)
      · exact ⟨pos, .here, hcell.1, hcell.2, hx⟩
      · exact ⟨c, .next hcell.2 hchain, hc⟩
    · rintro ⟨c, hchain, hc⟩
      cases hchain with
      | here => exact Or.inl hc.2.2
      | next _ rest => exact Or.inr ⟨c, rest, hc⟩
  | case2 pos hcell =>
    rw [binRecords, if_neg hcell]
    refine ⟨fun hx => absurd hx List.not_mem_nil, ?_⟩
    rintro ⟨c, hchain, hfield, hsize, _⟩
    cases hchain with
    | here => exact absurd ⟨hfield, hsize⟩ hcell
    | next hstep rest =>
      have hle := rest.le
      exact absurd ⟨by omega, hstep⟩ hcell

end Records

/-- The records of the walk are those of the bins before which the scan cap is not reached. -/
theorem mem_binsRecords_iff {data : Bytes} {x : Found} : ∀ {bins : List HbinDescriptor}
    {scanned : Nat}, x ∈ binsRecords data bins scanned ↔
      ∃ before bin after, bins = before ++ bin :: after ∧
        scanned + scannedIn data before < maxScanBytes ∧
        x ∈ binRecords data (binEnd data bin) (bin.fileOffset + 32)
  | [], scanned => by
    refine ⟨fun h => absurd h List.not_mem_nil, ?_⟩
    rintro ⟨before, bin, after, hbins, _⟩
    exact absurd hbins.symm (by simp)
  | bin :: bins, scanned => by
    have hsum : ∀ before, scannedIn data (bin :: before) =
        (binEnd data bin - (bin.fileOffset + 32)) + scannedIn data before := fun _ => List.sum_cons
    -- the bins after this one, with what was scanned in it
    have hrest := @mem_binsRecords_iff data x bins
      (scanned + (binEnd data bin - (bin.fileOffset + 32)))
    have hbins : (scanned < maxScanBytes ∧
          (x ∈ binRecords data (binEnd data bin) (bin.fileOffset + 32) ∨
          x ∈ binsRecords data bins (scanned + (binEnd data bin - (bin.fileOffset + 32))))) ↔
        ∃ before b after, bin :: bins = before ++ b :: after ∧
          scanned + scannedIn data before < maxScanBytes ∧
          x ∈ binRecords data (binEnd data b) (b.fileOffset + 32) := by
      rw [hrest]
      constructor
      · rintro ⟨hscan, hx | ⟨before, b, after, rfl, hcap, hx⟩⟩
        · exact ⟨[], bin, bins, rfl, hscan, hx⟩
        · exact ⟨bin :: before, b, after, rfl, by rw [hsum]; omega, hx⟩
      · rintro ⟨before, b, after, heq, hcap, hx⟩
        cases before with
        | nil =>
          obtain ⟨rfl, rfl⟩ := List.cons.inj heq
          exact ⟨hcap, Or.inl hx⟩
        | cons b' before =>
          obtain ⟨rfl, rfl⟩ := List.cons.inj heq
          rw [hsum] at hcap
          exact ⟨by omega, Or.inr ⟨before, b, after, rfl, by omega, hx⟩⟩
    rw [← hbins, binsRecords]
    split
    · exact ⟨fun h => absurd h List.not_mem_nil, fun h => by omega⟩
    · rename_i hscan
      split
      · -- an empty bin counts for nothing
        rename_i hempty
        have hnone : binRecords data (binEnd data bin) (bin.fileOffset + 32) = [] := by
          rw [binRecords, if_neg (by omega)]
        rw [hnone, show binEnd data bin - (bin.fileOffset + 32) = 0 by omega, Nat.add_zero]
        exact ⟨fun h => ⟨by omega, Or.inr h⟩, fun h => h.2.resolve_left List.not_mem_nil⟩
      · rw [List.mem_append]
        exact ⟨fun h => ⟨by omega, h⟩, fun h => h.2⟩

section Hive

variable {hive : Hive}

/-- **Every record found starts in the swept part of a cell**, and is what stands there. -/
theorem mem_hiveRecords {x : Found} (h : x ∈ hiveRecords hive) :
    ∃ bin c, RecordAt hive bin c (x.1 + 4) ∧ ∃ source,
      recordOf (bytesAt hive.data (x.1 + 4) (cellEnd hive.data bin c - (x.1 + 4))) x.1 source =
        some x.2 := by
  obtain ⟨before, bin, after, hbins, hcap, hbin⟩ := mem_binsRecords_iff.mp h
  obtain ⟨c, hchain, hfield, hsize, hcell⟩ := mem_binRecords_iff.mp hbin
  obtain ⟨hlo, hswept, source, hrec⟩ := mem_cellRecords hcell
  have hlen := length_of_recordOf hrec
  rw [length_bytesAt] at hlen
  have hend : x.1 + 4 < cellEnd hive.data bin c := by
    unfold cellEnd
    omega
  refine ⟨bin, c, ⟨⟨⟨before, after, hbins, by omega⟩, ⟨hchain, hfield, hsize⟩, by omega, hend⟩,
    fun halloc => ?_, ?_⟩, source, hrec⟩
  · have := hswept halloc
    omega
  · exact Option.isSome_iff_exists.mpr (exists_recordOf hrec _ _)

/-- **Every record that starts in the swept part of a cell is found.** -/
theorem exists_mem_hiveRecords {bin : HbinDescriptor} {c abs : Nat}
    (h : RecordAt hive bin c abs) : ∃ record, (abs - 4, record) ∈ hiveRecords hive := by
  obtain ⟨before, after, hbins, hcap⟩ := h.reached
  obtain ⟨record, hrecord⟩ := exists_mem_cellRecords h.behind_field h.swept h.starts
  exact ⟨record, mem_binsRecords_iff.mpr ⟨before, bin, after, hbins, by omega,
    mem_binRecords_iff.mpr ⟨c, h.cell.onChain, h.cell.field_inside, h.cell.size_min, hrecord⟩⟩⟩

end Hive

/-! ## Live cells -/

/-- Navigation from the root key gets to the key or value cell at an offset. -/
inductive Live (hive : Hive) : CellOffset → Prop where
  | key {root k : Key} (hroot : hive.rootKey = .ok root)
      (hreach : ReflTransGen (Kids hive.reader) root k) : Live hive k.offset
  | value {root k : Key} {values : List Value} {v : Value} (hroot : hive.rootKey = .ok root)
      (hreach : ReflTransGen (Kids hive.reader) root k)
      (hvalues : k.values hive.reader = .ok values) (hv : v ∈ values) : Live hive v.offset

/-- The listed values are the parsed cells at their offsets. -/
theorem readCell_of_mem_values {r : CellReader} {k : Key} {values : List Value}
    (h : k.values r = .ok values) : ∀ v ∈ values, r.readCell v.offset = .ok (.keyValue v.vk) := by
  unfold Key.values at h
  split at h
  · obtain rfl : [] = values := by simpa using h
    exact fun v hv => absurd hv List.not_mem_nil
  · obtain ⟨⟨hdr, body⟩, _, hloop⟩ := Exec.bind_eq_ok.mp h
    refine Exec.forRange_inv (fun vs : List Value => ∀ v ∈ vs, r.readCell v.offset =
      .ok (.keyValue v.vk)) ?_ ?_ _ _ _ _ (fun v hv => absurd hv List.not_mem_nil) hloop
    · intro i vs vs' hvs hpass
      unfold Key.readValueEntry at hpass
      dsimp only at hpass
      split at hpass
      · cases hpass
      · obtain ⟨cell, hcell, hmatch⟩ := Exec.bind_eq_ok.mp hpass
        split at hmatch
        · rename_i vk
          obtain rfl : vs ++ [⟨vk, ⟨leU32 body (i * 4)⟩⟩] = vs' := by simpa using hmatch
          intro v hv
          rcases List.mem_append.mp hv with hv | hv
          · exact hvs v hv
          · rw [List.mem_singleton.mp hv]; exact hcell
        · obtain rfl : vs = vs' := by simpa using hmatch
          exact hvs
    · intro i vs vs' hvs hpass
      unfold Key.readValueEntry at hpass
      dsimp only at hpass
      split at hpass
      · obtain rfl : vs = vs' := by simpa using hpass
        exact hvs
      · obtain ⟨cell, _, hmatch⟩ := Exec.bind_eq_ok.mp hpass
        split at hmatch <;> cases hmatch

/-- The root key is the one at its offset. -/
theorem atOffset_of_rootKey {hive : Hive} {root : Key} (h : hive.rootKey = .ok root) :
    root.AtOffset hive.reader := by
  obtain ⟨cell, hcell, hmatch⟩ := Exec.bind_eq_ok.mp h
  split at hmatch
  · obtain rfl : _ = root := by simpa using hmatch
    exact hcell
  · cases hmatch

/-- A cell that can be read is allocated. -/
theorem allocated_of_readCell {hive : Hive} {off : CellOffset} {cell : Cell}
    (h : hive.reader.readCell off = .ok cell) :
    (cellAt hive.data off.fileOffset).isAllocated = true := by
  obtain ⟨_, _, hread, _⟩ := Hive.readsCell_of_readCell h
  exact hread.allocated

/-- A live cell is allocated. -/
theorem Live.allocated {hive : Hive} {off : CellOffset} (h : Live hive off) :
    (cellAt hive.data off.fileOffset).isAllocated = true := by
  cases h with
  | key hroot hreach =>
    rcases ReflTransGen.cases_tail hreach with rfl | ⟨parent, _, hkid⟩
    · exact allocated_of_readCell (atOffset_of_rootKey hroot)
    · exact allocated_of_readCell hkid.atOffset
  | value _ _ hvalues hv => exact allocated_of_readCell (readCell_of_mem_values hvalues _ hv)

/-- **Live and recovered evidence never overlap.**  Where every reachable key and value cell is on a
    cell chain, no record is reported at the offset of one of them.  A reported record lies in a
    free cell or in the slack of one, behind its head; a live record is the head of a cell in use.
    On one chain two cells are the same or apart. -/
theorem recovered_not_live {data : Bytes} {hive : Hive} (hopen : Hive.fromBytes data = .ok hive)
    (hlen : data.length < 2 ^ 32)
    (hchains : ∀ off, Live hive off → OnCellChain hive off.fileOffset) :
    ∃ records, recoverDeleted hive = .ok records ∧
      ∀ record ∈ records, ∀ off, Live hive off →
        record.fileOffset.toNat ≠ off.fileOffset := by
  obtain ⟨haccepted, rfl⟩ := Hive.fromBytes_accepted hopen
  refine ⟨_, recoverDeleted_eq hive, fun record hrecord off hlive heq => ?_⟩
  obtain ⟨x, hx, rfl⟩ := List.mem_map.mp (List.mem_of_mem_take hrecord)
  obtain ⟨bin, c, hat, source, hrec⟩ := mem_hiveRecords hx
  obtain ⟨bin', hbin', hcell'⟩ := hchains off hlive
  have hfield := hat.behind_field
  have hend := hat.before_end
  obtain ⟨_, _, hbuffer⟩ := cellEnd_le hive.data bin c
  -- below 4 GiB the offset does not saturate
  have hplace : x.2.fileOffset.toNat = x.1 := by
    rw [fileOffset_recordOf hrec, toNat_toU32OrMax]
    omega
  rw [hplace] at heq
  rw [← heq] at hcell'
  rcases Nat.lt_or_ge c x.1 with hinside | hhead
  · -- deeper in a cell no live cell starts
    exact hat.cell.not_inside haccepted hat.reached.mem hbin' hcell' ⟨hinside, by omega⟩
  · -- at the head of a cell: that cell is allocated, and its sweep starts behind the head
    obtain rfl : c = x.1 := by omega
    have halloc := hlive.allocated
    rw [← heq] at halloc
    have := hat.swept halloc
    omega

/-- The hive in which the cell of `A` is free: its only live cell is the root. -/
theorem recovered_not_live_freed :
    ∃ records, recoverDeleted (oneBinHive 32 (keyCells 88)) = .ok records ∧
      ∀ record ∈ records, ∀ off, Live (oneBinHive 32 (keyCells 88)) off →
        record.fileOffset.toNat ≠ off.fileOffset := by
  have hcells := length_keyCells 88
  have hread : (oneBinHive 32 (keyCells 88)).reader.readCell ⟨32⟩ =
      .ok (.keyNode (nkRecord ⟨0x20⟩ 0 0xFFFFFFFF 0 0xFFFFFFFF [])) :=
    Hive.readCell_oneBin 0 80 (by omega) rfl (by decide) (by omega) (by decide)
      (by decide)
  have hroot : ∀ root, (oneBinHive 32 (keyCells 88)).rootKey = .ok root →
      root = ⟨nkRecord ⟨0x20⟩ 0 0xFFFFFFFF 0 0xFFFFFFFF [], ⟨32⟩⟩ := by
    intro root h
    unfold Hive.rootKey Key.fromCellOffset at h
    rw [show (oneBinHive 32 (keyCells 88)).rootCellOffset = ⟨32⟩ from rfl, hread,
      Exec.ok_bind] at h
    exact (Exec.ok.inj h).symm
  -- the root lists no subkeys, so nothing else is reachable
  have hreach : ∀ k, ReflTransGen (Kids (oneBinHive 32 (keyCells 88)).reader)
      ⟨nkRecord ⟨0x20⟩ 0 0xFFFFFFFF 0 0xFFFFFFFF [], ⟨32⟩⟩ k →
      k = ⟨nkRecord ⟨0x20⟩ 0 0xFFFFFFFF 0 0xFFFFFFFF [], ⟨32⟩⟩ := by
    intro k h
    rcases ReflTransGen.cases_head h with h | ⟨next, ⟨children, hlist, hmem⟩, _⟩
    · exact h.symm
    · obtain rfl : children = [] := Exec.ok.inj (hlist.unique ⟨0, fun _ _ => rfl⟩)
      cases hmem
  have hraw : i32At (oneBinImage 32 (keyCells 88)) 4128 = -80 :=
    i32At_of_bytesAt (by omega) (by omega)
      ((bytesAt_oneBinCells (k := 0) (by omega)).trans (by decide))
  refine recovered_not_live (Hive.fromBytes_oneBinImage (by omega))
    (by rw [length_oneBinImage 32 (by omega)]; omega) fun off hlive => ?_
  cases hlive with
  | key h hk =>
    obtain rfl := hroot _ h
    obtain rfl := hreach _ hk
    refine ⟨⟨0, 4096, 4096⟩, List.mem_singleton_self _, .here, ?_, ?_⟩
    · unfold binEnd
      rw [show (oneBinHive 32 (keyCells 88)).data = oneBinImage 32 (keyCells 88) from rfl,
        length_oneBinImage 32 (by omega)]
      decide
    · show 8 ≤ (cellAt (oneBinImage 32 (keyCells 88)) 4128).size
      rw [cellAt, hraw]
      decide
  | value h hk hvalues hv =>
    obtain rfl := hroot _ h
    obtain rfl := hreach _ hk
    obtain rfl := Exec.ok.inj hvalues
    cases hv

/-! ## The reported cell -/

/-- What `recoverDeleted` returns, with the positions of the records: a record starts four bytes
    behind its position. -/
def foundRecords (hive : Hive) : List Found := (hiveRecords hive).take maxRecoveries

/-- The offset and the state that a record reports are those of the cell that encloses it. -/
def TrueProvenance (hive : Hive) (x : Found) : Prop :=
  ∃ bin c, Encloses hive bin c (x.1 + 4) ∧ x.2.fileOffset.toNat = c ∧
    (x.2.allocated = true ↔ (cellAt hive.data c).isAllocated = true)

/-- The records that start before `abs`. -/
def recordsBefore (hive : Hive) (abs : Nat) : Set Nat :=
  {a | a < abs ∧ ∃ bin c, RecordAt hive bin c a}

/-- As far as the cap on the records goes, every record is at the head of a free cell whose offset
    has 32 bits.  (A free cell at the offset `u32::MAX` may hold records anywhere: all of them are
    reported at that offset.) -/
def OnlyHeads (hive : Hive) : Prop :=
  ∀ bin c abs, RecordAt hive bin c abs → (recordsBefore hive abs).ncard < maxRecoveries →
    (cellAt hive.data c).isAllocated = false ∧ (abs = c + 4 ∧ c < 2 ^ 32 ∨ c = 2 ^ 32 - 1)

section Reported

variable {hive : Hive}

/-- The records before a record found are those found before it. -/
theorem ncard_recordsBefore (hive_ok : hive.Accepted) {before after : List Found} {x : Found}
    (h : hiveRecords hive = before ++ x :: after) :
    (recordsBefore hive (x.1 + 4)).ncard = before.length := by
  have hasc := (hiveRecords_ascending hive_ok).sorted
  rw [h] at hasc
  obtain ⟨hsorted, hafter, hcross⟩ := List.pairwise_append.mp hasc
  have hset : recordsBefore hive (x.1 + 4) = ↑(before.map fun y => y.1 + 4).toFinset := by
    ext a
    rw [Finset.mem_coe, List.mem_toFinset, List.mem_map]
    constructor
    · rintro ⟨hlt, bin, c, hat⟩
      obtain ⟨record, hrecord⟩ := exists_mem_hiveRecords hat
      have hfield := hat.behind_field
      refine ⟨(a - 4, record), ?_, show a - 4 + 4 = a by omega⟩
      rw [h] at hrecord
      rcases List.mem_append.mp hrecord with hmem | hmem
      · exact hmem
      · rcases List.mem_cons.mp hmem with heq | hmem
        · rw [← heq] at hlt
          dsimp only at hlt
          omega
        · have hgt : x.1 < a - 4 := (List.pairwise_cons.mp hafter).1 _ hmem
          omega
    · rintro ⟨y, hy, rfl⟩
      have hlt : y.1 < x.1 := hcross y hy x List.mem_cons_self
      obtain ⟨bin, c, hat, _⟩ := mem_hiveRecords (h ▸ List.mem_append_left _ hy)
      exact ⟨by omega, bin, c, hat⟩
  have hnodup : (before.map fun y => y.1 + 4).Nodup :=
    List.pairwise_map.mpr (hsorted.imp fun {a b} hab => by omega)
  rw [hset, Set.ncard_coe_finset, List.toFinset_card_of_nodup hnodup, List.length_map]

/-- At most `abs` records start before `abs`. -/
theorem ncard_recordsBefore_lt (hive : Hive) {abs : Nat} (h : abs < maxRecoveries) :
    (recordsBefore hive abs).ncard < maxRecoveries := by
  have hle := Set.ncard_le_ncard (show recordsBefore hive abs ⊆ ↑(Finset.range abs) from
    fun a ha => Finset.mem_coe.mpr (Finset.mem_range.mpr ha.1))
  rw [Set.ncard_coe_finset, Finset.card_range] at hle
  exact Nat.lt_of_le_of_lt hle h

/-- A record found is returned when fewer records than the cap start before it. -/
theorem mem_foundRecords_iff (hive_ok : hive.Accepted) {x : Found} :
    x ∈ foundRecords hive ↔
      x ∈ hiveRecords hive ∧ (recordsBefore hive (x.1 + 4)).ncard < maxRecoveries := by
  have hasc := (hiveRecords_ascending hive_ok).sorted
  unfold foundRecords
  constructor
  · intro hmem
    obtain ⟨before, after, hsplit⟩ := List.append_of_mem hmem
    have hcut := congrArg List.length hsplit
    rw [List.length_take, List.length_append, List.length_cons] at hcut
    have hall : hiveRecords hive =
        before ++ x :: (after ++ (hiveRecords hive).drop maxRecoveries) := by
      conv_lhs => rw [← List.take_append_drop maxRecoveries (hiveRecords hive), hsplit]
      rw [List.append_assoc, List.cons_append]
    refine ⟨List.mem_of_mem_take hmem, ?_⟩
    rw [ncard_recordsBefore hive_ok hall]
    omega
  · rintro ⟨hmem, hcap⟩
    obtain ⟨before, after, hsplit⟩ := List.append_of_mem hmem
    rw [ncard_recordsBefore hive_ok hsplit] at hcap
    obtain ⟨k, hk⟩ : ∃ k, maxRecoveries - before.length = k + 1 :=
      ⟨maxRecoveries - before.length - 1, by omega⟩
    rw [hsplit, List.take_append, List.take_of_length_le hcap.le, hk, List.take_succ_cons]
    exact List.mem_append_right _ List.mem_cons_self

/-- The provenance of one record is true when it is at the head of a free cell. -/
theorem trueProvenance_iff (hive_ok : hive.Accepted) {x : Found} (hx : x ∈ hiveRecords hive)
    {bin : HbinDescriptor} {c : Nat} (henc : Encloses hive bin c (x.1 + 4)) :
    TrueProvenance hive x ↔ (cellAt hive.data c).isAllocated = false ∧
      (x.1 + 4 = c + 4 ∧ c < 2 ^ 32 ∨ c = 2 ^ 32 - 1) := by
  obtain ⟨_, _, _, source, hrec⟩ := mem_hiveRecords hx
  have hlo := henc.behind_field
  have hplace : x.2.fileOffset.toNat = min x.1 (2 ^ 32 - 1) := by
    rw [fileOffset_recordOf hrec, toNat_toU32OrMax]
  have hfree := allocated_of_recordOf hrec
  unfold TrueProvenance
  rw [hplace, hfree]
  constructor
  · rintro ⟨bin', c', henc', hoffset, hstate⟩
    obtain rfl := henc.unique hive_ok henc'
    refine ⟨Bool.eq_false_iff.mpr fun halloc => absurd (hstate.mpr halloc) (by decide), ?_⟩
    omega
  · rintro ⟨hstate, hhead⟩
    refine ⟨bin, c, henc, by omega, ?_⟩
    rw [hstate]

end Reported

/-- **When provenance is true**: the returned records report the offset and the state of the cell
    that encloses them exactly when each of them is at the head of a free cell.  A record in slack
    is reported four bytes before its own start, and as found in a free cell wherever it is.  So
    each record in slack is a counterexample, and the records at heads are none. -/
theorem trueProvenance_iff_onlyHeads {data : Bytes} {hive : Hive}
    (hopen : Hive.fromBytes data = .ok hive) :
    recoverDeleted hive = .ok ((foundRecords hive).map (·.2)) ∧
    (∀ x ∈ foundRecords hive, ∃ bin c source, Encloses hive bin c (x.1 + 4) ∧
      recordOf (bytesAt data (x.1 + 4) (cellEnd data bin c - (x.1 + 4))) x.1 source = some x.2) ∧
    ((∀ x ∈ foundRecords hive, TrueProvenance hive x) ↔ OnlyHeads hive) := by
  obtain ⟨haccepted, rfl⟩ := Hive.fromBytes_accepted hopen
  refine ⟨?_, fun x hx => ?_, fun h bin c abs hat hcap => ?_, fun h x hx => ?_⟩
  · rw [recoverDeleted_eq, foundRecords, List.map_take]
  · obtain ⟨bin, c, hat, source, hrec⟩ :=
      mem_hiveRecords ((mem_foundRecords_iff haccepted).mp hx).1
    exact ⟨bin, c, source, hat.toEncloses, hrec⟩
  · obtain ⟨record, hrecord⟩ := exists_mem_hiveRecords hat
    have hfield := hat.behind_field
    have hback : abs - 4 + 4 = abs := by omega
    have hfound := (mem_foundRecords_iff haccepted).mpr
      ⟨hrecord, show (recordsBefore hive (abs - 4 + 4)).ncard < _ by rw [hback]; exact hcap⟩
    have henc : Encloses hive bin c (abs - 4 + 4) := hback.symm ▸ hat.toEncloses
    have hhead := (trueProvenance_iff haccepted hrecord henc).mp (h _ hfound)
    dsimp only at hhead
    rwa [hback] at hhead
  · obtain ⟨hmem, hcap⟩ := (mem_foundRecords_iff haccepted).mp hx
    obtain ⟨bin, c, hat, _⟩ := mem_hiveRecords hmem
    exact (trueProvenance_iff haccepted hmem hat.toEncloses).mpr (h bin c _ hat hcap)

/-- The root in a cell of 160 bytes, in whose slack a key `A` is left. -/
def slackCells : Bytes :=
  cellBytes (-160) (nkRecordBytes 0x20 0 0xFFFFFFFF 0 0xFFFFFFFF [] ++
    (nkRecordBytes 0x20 0 0xFFFFFFFF 0 0xFFFFFFFF [0x41] ++ List.replicate 3 0))

/-- The key `A` starts at 4208, inside the allocated cell at 4128. -/
theorem recordAt_slack :
    RecordAt (oneBinHive 32 slackCells) ⟨0, 4096, 4096⟩ 4128 4208 := by
  have hcells : slackCells.length = 160 := by decide +kernel
  have hlen := length_oneBinImage 32 (show slackCells.length ≤ 4064 by omega)
  have hraw : i32At (oneBinImage 32 slackCells) 4128 = -160 :=
    i32At_of_bytesAt (by omega) (by omega)
      ((bytesAt_oneBinCells (k := 0) (by omega)).trans (by decide))
  have hsize : (cellAt (oneBinImage 32 slackCells) 4128).size = 160 := by
    rw [cellAt, hraw]
    rfl
  have hstop : binEnd (oneBinImage 32 slackCells) ⟨0, 4096, 4096⟩ = 8192 := by
    unfold binEnd
    rw [hlen]
    decide
  have hend : cellEnd (oneBinImage 32 slackCells) ⟨0, 4096, 4096⟩ 4128 = 4288 := by
    unfold cellEnd
    rw [hsize, hstop]
    decide
  have hmin : minCellSize = 8 := rfl
  refine ⟨⟨⟨[], [], rfl, by decide⟩, ⟨.here, ?_, ?_⟩, by decide, ?_⟩, fun _ => by decide, ?_⟩
  · show 4132 ≤ binEnd (oneBinImage 32 slackCells) _
    omega
  · show minCellSize ≤ (cellAt (oneBinImage 32 slackCells) 4128).size
    omega
  · show 4208 < cellEnd (oneBinImage 32 slackCells) _ 4128
    omega
  · show startsRecord (oneBinImage 32 slackCells) (cellEnd (oneBinImage 32 slackCells) _ 4128) _ = _
    unfold startsRecord
    rw [hend, show (4208 : Nat) = 4128 + 80 from rfl, bytesAt_oneBinCells (by omega)]
    decide

/-- The key in the slack of the root is reported at 4204, where no cell starts, and as found in a
    free cell. -/
theorem slack_provenance_false :
    Hive.fromBytes (oneBinImage 32 slackCells) = .ok (oneBinHive 32 slackCells) ∧
    (cellAt (oneBinImage 32 slackCells) 4128).isAllocated = true ∧
    ∃ x ∈ foundRecords (oneBinHive 32 slackCells),
      Encloses (oneBinHive 32 slackCells) ⟨0, 4096, 4096⟩ 4128 (x.1 + 4) ∧
      x.2.fileOffset = 4204 ∧ x.2.allocated = false ∧
      ¬ TrueProvenance (oneBinHive 32 slackCells) x := by
  have hcells : slackCells.length = 160 := by decide +kernel
  have hopen := @Hive.fromBytes_oneBinImage 32 slackCells (by omega)
  obtain ⟨haccepted, _⟩ := Hive.fromBytes_accepted hopen
  have hat := recordAt_slack
  have halloc : (cellAt (oneBinImage 32 slackCells) 4128).isAllocated = true := by
    have hraw : i32At (oneBinImage 32 slackCells) 4128 = -160 :=
      i32At_of_bytesAt (by omega) (by omega)
        ((bytesAt_oneBinCells (k := 0) (by omega)).trans (by decide))
    rw [cellAt, hraw]
    rfl
  obtain ⟨record, hrecord⟩ := exists_mem_hiveRecords hat
  obtain ⟨_, _, _, source, hrec⟩ := mem_hiveRecords hrecord
  have hcap : (recordsBefore (oneBinHive 32 slackCells) 4208).ncard < maxRecoveries :=
    ncard_recordsBefore_lt _ (by decide)
  refine ⟨hopen, halloc, _, (mem_foundRecords_iff haccepted).mpr ⟨hrecord, hcap⟩, hat.toEncloses,
    fileOffset_recordOf hrec, allocated_of_recordOf hrec, fun htrue => ?_⟩
  have hfree := ((trueProvenance_iff haccepted hrecord hat.toEncloses).mp htrue).1
  rw [show (oneBinHive 32 slackCells).data = oneBinImage 32 slackCells from rfl, halloc] at hfree
  cases hfree

/-- The condition on the hive with the key in the slack of the root: it fails, and so does the
    provenance of some record. -/
theorem trueProvenance_iff_onlyHeads_slack :
    ¬ OnlyHeads (oneBinHive 32 slackCells) ∧
      ¬ ∀ x ∈ foundRecords (oneBinHive 32 slackCells),
        TrueProvenance (oneBinHive 32 slackCells) x := by
  have hcells : slackCells.length = 160 := by decide +kernel
  obtain ⟨_, _, hiff⟩ :=
    trueProvenance_iff_onlyHeads (@Hive.fromBytes_oneBinImage 32 slackCells (by omega))
  have hnot : ¬ OnlyHeads (oneBinHive 32 slackCells) := by
    intro h
    have hcap : (recordsBefore (oneBinHive 32 slackCells) 4208).ncard < maxRecoveries :=
      ncard_recordsBefore_lt _ (by decide)
    rcases (h _ _ _ recordAt_slack hcap).2 with ⟨heq, _⟩ | heq <;> omega
  exact ⟨hnot, fun h => hnot (hiff.mp h)⟩

end Carve

end Winreg
