/-
  SOUNDNESS of carved records: what stands at the reported offset.

  Any byte offset of hostile free space can start a record, so each bound that the carver documents
  has to be enforced by the parser or by one of the filters.

  1. **Filters** — what a plausible name, a plausible `nk` and a plausible `vk` satisfy.
  2. **Records** — `CarvedRecord hive n r`: the bytes at the offset of `r` parse as `r`, inside of
     a cataloged bin, and all documented bounds hold, with `n` as the bound on resident data.
  3. **Resident data** — the comment says four bytes, and the filter checks the bound for data in
     a cell of their own.  So the records are sound exactly when no resident value is larger
     (`carved_sound_iff`).
-/
import Winreg.Carve.Provenance

namespace Winreg

open Rust

namespace Carve

/-! ## Filters -/

/-- The text holds no control characters and no replacement character. -/
def PlainText (name : Str) : Prop := ∀ c ∈ name, c ≠ replacementChar ∧ isControl c = false

/-- A plausible name is not empty and has plain characters only. -/
theorem plainText_of_nameIsPlausible {name : Str} (h : nameIsPlausible name = true) :
    name ≠ [] ∧ PlainText name := by
  unfold nameIsPlausible at h
  split at h
  · cases h
  · rename_i hbounds
    refine ⟨fun hempty => hbounds (Or.inl hempty), fun c hc => ?_⟩
    have hchar := List.all_eq_true.mp h c hc
    rw [Bool.and_eq_true, Bool.or_eq_true, decide_eq_true_eq, decide_eq_true_eq] at hchar
    refine ⟨hchar.1, ?_⟩
    rcases hchar.2 with rfl | hcontrol
    · rfl
    · simpa using hcontrol

/-- The bounds of a plausible key record. -/
theorem bounds_of_nkIsPlausible {nk : RawKeyNode} (h : nkIsPlausible nk = true) :
    nk.keyNameLen.toNat ≤ 512 ∧ nk.subkeyCount.toNat ≤ 1000000 ∧
      nk.valueCount.toNat ≤ 1000000 := by
  unfold nkIsPlausible at h
  simp only [Bool.and_eq_true, decide_eq_true_eq] at h
  obtain ⟨⟨⟨_, hname⟩, hsubkeys⟩, hvalues⟩ := h
  exact ⟨hname, UInt32.le_iff_toNat_le.mp hsubkeys, UInt32.le_iff_toNat_le.mp hvalues⟩

/-- The bounds of a plausible value record; whether the data is resident is not asked. -/
theorem bounds_of_vkIsPlausible {vk : RawKeyValue} (h : vkIsPlausible vk = true) :
    vk.nameLen.toNat ≤ 512 ∧ vk.dataSize.toNat ≤ 16 * 1024 * 1024 := by
  unfold vkIsPlausible at h
  simp only [Bool.and_eq_true, decide_eq_true_eq] at h
  exact ⟨h.1, UInt32.le_iff_toNat_le.mp h.2⟩

/-- The number of a type is read back. -/
theorem valueTypeRaw_fromRaw (raw : UInt32) : valueTypeRaw (ValueType.fromRaw raw) = raw := by
  unfold ValueType.fromRaw
  split <;> rename_i h <;> first
    | exact UInt32.toNat_inj.mp h.symm
    | rfl

/-! ## Records -/

/-- A parsed `nk` is the key reported, within the documented bounds. -/
structure SoundKey (nk : RawKeyNode) (k : RecoveredKey) : Prop where
  name : k.name = nk.keyName
  lastWritten : k.lastWritten = nk.lastWritten
  parent : k.parentOffset = nk.parent.val
  nameRaw : nk.keyNameRaw.length ≤ 512
  named : k.name ≠ []
  text : PlainText k.name
  subkeys : nk.subkeyCount.toNat ≤ 1000000
  values : nk.valueCount.toNat ≤ 1000000

/-- A parsed `vk` is the value reported, within the documented bounds; resident data have at most
    `maxResident` declared bytes. -/
structure SoundValue (maxResident : Nat) (vk : RawKeyValue) (v : RecoveredValue) : Prop where
  name : v.name = vk.valueName
  dataType : v.dataType = valueTypeRaw vk.dataType
  data : v.data = if vk.isResident then vk.inlineData else []
  nameRaw : vk.nameRaw.length ≤ 512
  text : PlainText v.name
  resident : vk.isResident = true → vk.dataSize.toNat ≤ maxResident
  nonResident : vk.isResident = false → vk.dataSize.toNat ≤ 16 * 1024 * 1024

/-- The bytes start with a signature and parse as the record. -/
inductive SoundBytes (maxResident : Nat) : Bytes → RecoveredCell → Prop where
  | key {afterSig : Bytes} {nk : RawKeyNode} {k : RecoveredKey}
      (parse : RawKeyNode.parse afterSig = some nk) (sound : SoundKey nk k) :
      SoundBytes maxResident (0x6E :: 0x6B :: afterSig) (.key k)
  | value {afterSig : Bytes} {vk : RawKeyValue} {v : RecoveredValue}
      (parse : RawKeyValue.parse afterSig = some vk) (sound : SoundValue maxResident vk v)
      (rawType : v.dataType = u32At afterSig 10) :
      SoundBytes maxResident (0x76 :: 0x6B :: afterSig) (.value v)

/-- Four bytes behind the offset of the record there is a signature, in the cell region of a
    cataloged bin, and the bytes from there to the end of the cell parse as the record. -/
structure CarvedRecord (hive : Hive) (maxResident : Nat) (r : RecoveredCell) : Prop where
  carved : ∃ bin ∈ hive.bins, ∃ c, Encloses hive bin c (r.fileOffset.toNat + 4) ∧
    bin.fileOffset + 32 ≤ r.fileOffset.toNat + 4 ∧
    r.fileOffset.toNat + 4 + 2 ≤ bin.fileOffset + bin.size.toNat ∧
    SoundBytes maxResident (bytesAt hive.data (r.fileOffset.toNat + 4)
      (cellEnd hive.data bin c - (r.fileOffset.toNat + 4))) r

/-- A parsed key has as many bytes of name as it declares. -/
theorem RawKeyNode.length_keyNameRaw {afterSig : Bytes} {nk : RawKeyNode}
    (h : RawKeyNode.parse afterSig = some nk) : nk.keyNameRaw.length = nk.keyNameLen.toNat := by
  unfold RawKeyNode.parse at h
  split at h
  · cases h
  · dsimp only at h
    split at h
    · cases h
    · rename_i hfits
      obtain rfl := Option.some.inj h
      dsimp only
      rw [length_bytesAt_of_le (by omega), Nat.add_sub_cancel_left]

/-- So has a parsed value, and its type is that of its field. -/
theorem RawKeyValue.parse_fields {afterSig : Bytes} {vk : RawKeyValue}
    (h : RawKeyValue.parse afterSig = some vk) : vk.nameRaw.length = vk.nameLen.toNat ∧
      vk.dataType = ValueType.fromRaw (u32At afterSig 10) := by
  unfold RawKeyValue.parse at h
  split at h
  · cases h
  · dsimp only at h
    split at h
    · cases h
    · rename_i hfits
      obtain rfl := Option.some.inj h
      dsimp only
      rw [length_bytesAt_of_le (by omega), Nat.add_sub_cancel_left]
      exact ⟨rfl, rfl⟩

/-- A value that the bytes hold declares at most `maxResident` bytes of resident data. -/
def ResidentBound (maxResident : Nat) (region : Bytes) : Prop :=
  ∀ afterSig vk, region = 0x76 :: 0x6B :: afterSig → RawKeyValue.parse afterSig = some vk →
    vk.isResident = true → vk.dataSize.toNat ≤ maxResident

/-- **What the filters enforce**: everything but the bound on resident data. -/
theorem soundBytes_iff {region : Bytes} {pos maxResident : Nat} {source : RecoverySource}
    {record : RecoveredCell} (h : recordOf region pos source = some record) :
    SoundBytes maxResident region record ↔ ResidentBound maxResident region := by
  constructor
  · rintro hsound afterSig vk rfl hparse hres
    cases hsound with
    | value hparse' hvalue _ =>
      obtain rfl := Option.some.inj (hparse.symm.trans hparse')
      exact hvalue.resident hres
  · intro hbound
    rcases recordOf_eq_some_iff.mp h with
      ⟨afterSig, nk, rfl, hparse, hchecks, hname, rfl⟩ |
      ⟨afterSig, vk, rfl, hparse, hchecks, hname, rfl⟩
    · obtain ⟨hlen, hsubkeys, hvalues⟩ := bounds_of_nkIsPlausible hchecks
      obtain ⟨hnamed, htext⟩ := plainText_of_nameIsPlausible hname
      have hraw := RawKeyNode.length_keyNameRaw hparse
      exact .key hparse ⟨rfl, rfl, rfl, by omega, hnamed, htext, hsubkeys, hvalues⟩
    · obtain ⟨hlen, hsize⟩ := bounds_of_vkIsPlausible hchecks
      obtain ⟨hraw, htype⟩ := RawKeyValue.parse_fields hparse
      have htext : PlainText vk.valueName := by
        rcases hname with hempty | hname
        · rw [hempty]
          exact fun c hc => absurd hc List.not_mem_nil
        · exact (plainText_of_nameIsPlausible hname).2
      have hnumber : valueTypeRaw vk.dataType = u32At afterSig 10 := by
        rw [htype, valueTypeRaw_fromRaw]
      exact .value hparse ⟨rfl, rfl, rfl, by omega, htext,
        fun hres => hbound afterSig vk rfl hparse hres, fun _ => hsize⟩ hnumber

/-- The bound that the filter enforces on all data. -/
theorem residentBound_of_recordOf {region : Bytes} {pos : Nat} {source : RecoverySource}
    {record : RecoveredCell} (h : recordOf region pos source = some record) :
    ResidentBound (16 * 1024 * 1024) region := by
  rintro afterSig vk rfl hparse _
  rcases recordOf_eq_some_iff.mp h with
    ⟨_, _, hregion, _⟩ | ⟨afterSig', vk', hregion, hparse', hchecks, _⟩
  · cases hregion
  · cases hregion
    obtain rfl := Option.some.inj (hparse.symm.trans hparse')
    exact (bounds_of_vkIsPlausible hchecks).2

/-! ## Resident data -/

/-- A position lies in one cell, with one end. -/
theorem Encloses.cellEnd_unique {hive : Hive} (hive_ok : hive.Accepted)
    {bin bin' : HbinDescriptor} {c c' abs : Nat} (h : Encloses hive bin c abs)
    (h' : Encloses hive bin' c' abs) :
    cellEnd hive.data bin c = cellEnd hive.data bin' c' := by
  obtain rfl := h.unique hive_ok h'
  have hstart := h.cell.onChain.le
  have hstart' := h'.cell.onChain.le
  have hfield := h.cell.field_inside
  have hfield' := h'.cell.field_inside
  unfold binEnd at hfield hfield'
  rcases hive_ok.tiling.disjoint h.reached.mem h'.reached.mem with rfl | hdis | hdis
  · rfl
  · omega
  · omega

/-- As far as the cap on the records goes, a value that is marked as resident declares at most four
    bytes. -/
def ResidentsFit (hive : Hive) : Prop :=
  ∀ bin c abs, RecordAt hive bin c abs → (recordsBefore hive abs).ncard < maxRecoveries →
    ResidentBound 4 (bytesAt hive.data abs (cellEnd hive.data bin c - abs))

section Found

variable {hive : Hive} (hive_ok : hive.Accepted) (hlen : hive.data.length < 2 ^ 32)

include hlen in
/-- Below 4 GiB the offset of a record found does not saturate. -/
theorem toNat_fileOffset {x : Found} (h : x ∈ hiveRecords hive) : x.2.fileOffset.toNat = x.1 := by
  obtain ⟨bin, c, hat, source, hrec⟩ := mem_hiveRecords h
  have hend := hat.before_end
  obtain ⟨_, _, hbuffer⟩ := cellEnd_le hive.data bin c
  rw [fileOffset_recordOf hrec, toNat_toU32OrMax]
  omega

include hive_ok hlen in
/-- **A record found** is sound exactly when the bytes at its place are. -/
theorem carvedRecord_iff {x : Found} {maxResident : Nat} (h : x ∈ hiveRecords hive)
    {bin : HbinDescriptor} {c : Nat} (hat : RecordAt hive bin c (x.1 + 4)) :
    CarvedRecord hive maxResident x.2 ↔ ResidentBound maxResident
      (bytesAt hive.data (x.1 + 4) (cellEnd hive.data bin c - (x.1 + 4))) := by
  have hplace := toNat_fileOffset hlen h
  obtain ⟨bin', c', hat', source, hrec⟩ := mem_hiveRecords h
  rw [hat'.cellEnd_unique hive_ok hat.toEncloses] at hrec
  rw [← soundBytes_iff hrec]
  constructor
  · rintro ⟨bin'', _, c'', henc, _, _, hsound⟩
    rw [hplace] at henc hsound
    rwa [henc.cellEnd_unique hive_ok hat.toEncloses] at hsound
  · intro hsound
    have hchain := hat.cell.onChain.le
    have hfield := hat.behind_field
    obtain ⟨_, hbin, _⟩ := cellEnd_le hive.data bin c
    have hsig := length_of_recordOf hrec
    rw [length_bytesAt] at hsig
    refine ⟨bin, hat.reached.mem, c, ?_, ?_, ?_, ?_⟩
    · rw [hplace]
      exact hat.toEncloses
    · omega
    · omega
    · rw [hplace]
      exact hsound

end Found

/-- **Soundness of carved records.**  On an accepted buffer below 4 GiB, what stands at the offset of
    every record returned is that record, within all documented bounds but the one on resident data,
    for which the bound on other data is enforced instead; and the records are within that bound too
    exactly when every resident value that the carver comes to is. -/
theorem carved_sound_iff {data : Bytes} {hive : Hive} (hopen : Hive.fromBytes data = .ok hive)
    (hlen : data.length < 2 ^ 32) :
    ∃ records, recoverDeleted hive = .ok records ∧
      (∀ r ∈ records, CarvedRecord hive (16 * 1024 * 1024) r) ∧
      ((∀ r ∈ records, CarvedRecord hive 4 r) ↔ ResidentsFit hive) := by
  obtain ⟨haccepted, rfl⟩ := Hive.fromBytes_accepted hopen
  have hrecords : recoverDeleted hive = .ok ((foundRecords hive).map (·.2)) := by
    rw [recoverDeleted_eq, foundRecords, List.map_take]
  refine ⟨_, hrecords, fun r hr => ?_, fun h bin c abs hat hcap => ?_, fun h r hr => ?_⟩
  · obtain ⟨x, hx, rfl⟩ := List.mem_map.mp hr
    have hmem := ((mem_foundRecords_iff haccepted).mp hx).1
    obtain ⟨bin, c, hat, source, hrec⟩ := mem_hiveRecords hmem
    exact (carvedRecord_iff haccepted hlen hmem hat).mpr (residentBound_of_recordOf hrec)
  · obtain ⟨record, hrecord⟩ := exists_mem_hiveRecords hat
    have hfield := hat.behind_field
    have hback : abs - 4 + 4 = abs := by omega
    have hfound := (mem_foundRecords_iff haccepted).mpr
      ⟨hrecord, show (recordsBefore hive (abs - 4 + 4)).ncard < _ by rw [hback]; exact hcap⟩
    have hat' : RecordAt hive bin c (abs - 4 + 4) := by rw [hback]; exact hat
    have hbound := (carvedRecord_iff haccepted hlen hrecord hat').mp
      (h _ (List.mem_map_of_mem hfound))
    dsimp only at hbound
    rwa [hback] at hbound
  · obtain ⟨x, hx, rfl⟩ := List.mem_map.mp hr
    obtain ⟨hmem, hcap⟩ := (mem_foundRecords_iff haccepted).mp hx
    obtain ⟨bin, c, hat, _⟩ := mem_hiveRecords hmem
    exact (carvedRecord_iff haccepted hlen hmem hat).mpr (h bin c _ hat hcap)

/-- The hive in which the cell of `A` is free. -/
theorem carved_sound_freed : ∃ records,
    recoverDeleted (oneBinHive 32 (keyCells 88)) = .ok records ∧
      (∀ r ∈ records, CarvedRecord (oneBinHive 32 (keyCells 88)) (16 * 1024 * 1024) r) ∧
      ((∀ r ∈ records, CarvedRecord (oneBinHive 32 (keyCells 88)) 4 r) ↔
        ResidentsFit (oneBinHive 32 (keyCells 88))) := by
  have hcells := length_keyCells 88
  exact carved_sound_iff (Hive.fromBytes_oneBinImage (by omega))
    (by rw [length_oneBinImage 32 (by omega)]; omega)

section OneBin

variable {cells : Bytes} {k size : Nat} {raw : Int}

/-- A cell of a one-bin image, and its end. -/
theorem cellEnd_oneBin (hcells : cells.length ≤ 4064) (hraw : bytesAt cells k 4 = i32Bytes raw)
    (hlo : -2 ^ 31 ≤ raw) (hhi : raw < 2 ^ 31) (hsize : raw.natAbs = size) (hmin : 4 ≤ size)
    (hfits : k + size ≤ cells.length) : cellAt (oneBinImage 32 cells) (4128 + k) = ⟨raw⟩ ∧
      binEnd (oneBinImage 32 cells) ⟨0, 4096, 4096⟩ = 8192 ∧
      cellEnd (oneBinImage 32 cells) ⟨0, 4096, 4096⟩ (4128 + k) = 4128 + k + size := by
  have hat : cellAt (oneBinImage 32 cells) (4128 + k) = ⟨raw⟩ :=
    congrArg CellHeader.mk (i32At_of_bytesAt hlo hhi
      ((bytesAt_oneBinCells (by omega)).trans hraw))
  have hstop : binEnd (oneBinImage 32 cells) ⟨0, 4096, 4096⟩ = 8192 := by
    unfold binEnd
    rw [length_oneBinImage 32 hcells]
    decide
  refine ⟨hat, hstop, ?_⟩
  unfold cellEnd
  rw [hat, hstop, show (CellHeader.mk raw).size = size from hsize]
  omega

/-- A record in a cell of a one-bin image. -/
theorem recordAt_oneBin {o : Nat} (hcells : cells.length ≤ 4064)
    (hchain : OnChain (oneBinImage 32 cells) (4128 + k) 4128)
    (hraw : bytesAt cells k 4 = i32Bytes raw) (hlo : -2 ^ 31 ≤ raw) (hhi : raw < 2 ^ 31)
    (hsize : raw.natAbs = size) (hmin : minCellSize ≤ size) (hfits : k + size ≤ cells.length)
    (hbody : 4 ≤ o) (hend : o < size) (hswept : raw < 0 → 6 ≤ o)
    (hstarts : (recordOf (bytesAt cells (k + o) (size - o)) 0 .slack).isSome = true) :
    RecordAt (oneBinHive 32 cells) ⟨0, 4096, 4096⟩ (4128 + k) (4128 + k + o) := by
  have hmin8 : minCellSize = 8 := rfl
  obtain ⟨hat, hstop, hcellEnd⟩ := cellEnd_oneBin hcells hraw hlo hhi hsize (by omega) hfits
  refine ⟨⟨⟨[], [], rfl, show 0 < maxScanBytes by decide⟩, ⟨hchain, ?_, ?_⟩, by omega, ?_⟩,
    fun halloc => ?_, ?_⟩
  · show 4128 + k + 4 ≤ binEnd (oneBinImage 32 cells) _
    omega
  · show minCellSize ≤ (cellAt (oneBinImage 32 cells) (4128 + k)).size
    rw [hat]
    exact hmin.trans_eq hsize.symm
  · show 4128 + k + o < cellEnd (oneBinImage 32 cells) _ (4128 + k)
    omega
  · have hneg : (cellAt (oneBinImage 32 cells) (4128 + k)).isAllocated = true := halloc
    rw [hat] at hneg
    have := hswept (by simpa [CellHeader.isAllocated] using hneg)
    omega
  · obtain ⟨record, hrecord⟩ := Option.isSome_iff_exists.mp hstarts
    have hregion : bytesAt (oneBinImage 32 cells) (4128 + k + o) (size - o) =
        bytesAt cells (k + o) (size - o) := by
      rw [show 4128 + k + o = 4128 + (k + o) by omega]
      exact bytesAt_oneBinCells (by omega)
    show startsRecord (oneBinImage 32 cells) (cellEnd (oneBinImage 32 cells) _ (4128 + k)) _ = true
    unfold startsRecord
    rw [hcellEnd, show 4128 + k + size - (4128 + k + o) = size - o by omega, hregion]
    exact Option.isSome_iff_exists.mpr (exists_recordOf hrecord _ _)

end OneBin

/-- The live root, and a free cell with a value that is marked as resident and declares five
    bytes. -/
def wideCells : Bytes :=
  cellBytes (-80) (nkRecordBytes 0x20 0 0xFFFFFFFF 0 0xFFFFFFFF []) ++
    cellBytes 32 (vkRecordBytes 0x80000005 0x2A 4 [0x56] ++ List.replicate 7 0)

/-- The value in the free cell. -/
def wideValue : RawKeyValue := ⟨1, 0x80000005, 0x2A, .dword, ⟨1⟩, [0x56]⟩

/-- The free cell of the sample holds the record. -/
theorem recordAt_wide :
    RecordAt (oneBinHive 32 wideCells) ⟨0, 4096, 4096⟩ 4208 4212 := by
  have hcells : wideCells.length = 112 := by decide
  have hchain : OnChain (oneBinImage 32 wideCells) (4128 + 80) 4128 :=
    onChain_oneBin (-80) (by decide) rfl (by omega) (by omega) (by omega)
  exact @recordAt_oneBin _ 80 32 32 4 (by omega) hchain (by decide) (by omega) (by omega) rfl
    (by decide) (by omega) (by omega) (by omega) (by omega) (by decide)

/-- **A resident value of five bytes is returned.** -/
theorem carved_wide_resident :
    Hive.fromBytes (oneBinImage 32 wideCells) = .ok (oneBinHive 32 wideCells) ∧
      (oneBinImage 32 wideCells).length = 8192 ∧ wideValue.isResident = true ∧
      wideValue.dataSize = 5 ∧
      ∃ records, recoverDeleted (oneBinHive 32 wideCells) = .ok records ∧
        ∃ r ∈ records, r.fileOffset = 4208 ∧ ¬ CarvedRecord (oneBinHive 32 wideCells) 4 r := by
  have hcells : wideCells.length = 112 := by decide
  have hlen := length_oneBinImage 32 (show wideCells.length ≤ 4064 by omega)
  have hopen := @Hive.fromBytes_oneBinImage 32 wideCells (by omega)
  obtain ⟨haccepted, _⟩ := Hive.fromBytes_accepted hopen
  have hat := recordAt_wide
  obtain ⟨record, hrecord⟩ := exists_mem_hiveRecords hat
  have hcap : (recordsBefore (oneBinHive 32 wideCells) 4212).ncard < maxRecoveries :=
    ncard_recordsBefore_lt _ (by decide)
  have hfound := (mem_foundRecords_iff haccepted).mpr ⟨hrecord, hcap⟩
  have hrecords : recoverDeleted (oneBinHive 32 wideCells) =
      .ok ((foundRecords (oneBinHive 32 wideCells)).map (·.2)) := by
    rw [recoverDeleted_eq, foundRecords, List.map_take]
  refine ⟨hopen, hlen, by decide, by decide, _, hrecords, _, List.mem_map_of_mem hfound, ?_,
    fun h => ?_⟩
  · obtain ⟨_, _, _, source, hrec⟩ := mem_hiveRecords hrecord
    exact fileOffset_recordOf hrec
  · have hbound := (carvedRecord_iff haccepted (show (oneBinImage 32 wideCells).length < _ by omega)
      hrecord hat).mp h
    have hend : cellEnd (oneBinHive 32 wideCells).data ⟨0, 4096, 4096⟩ 4208 = 4240 :=
      (@cellEnd_oneBin wideCells 80 32 32 (by omega) (by decide) (by omega) (by omega) rfl
        (by omega) (by omega)).2.2
    rw [hend, show (4212 : Nat) - 4 + 4 = 4128 + 84 from rfl] at hbound
    have hregion : bytesAt (oneBinHive 32 wideCells).data (4128 + 84) (4240 - (4128 + 84)) =
        bytesAt wideCells 84 28 := bytesAt_oneBinCells (by omega)
    rw [hregion] at hbound
    have hfour := hbound (bytesAt wideCells 86 26) wideValue (by decide) (by decide)
      (by decide)
    exact absurd hfour (by decide)

end Carve

end Winreg
