/-
  SMALL HIVE IMAGES: a base block and one bin, with the cells given byte by byte.

  1. **The base block** — `imageBlock root binsSize` is the 512 bytes of a version 1.5 base block
     with its own checksum; a file that starts with it has that base block
     (`BaseBlock.read_imageBlock`).
  2. **One bin** — `oneBinImage` lays out the file the way the minimal hives of the test suites are
     laid out: the block, the bin header, the cells, zeros to the end of the bin.
     `Hive.fromBytes_oneBin` opens any file with a single bin.  The concrete inputs of the later
     modules are built here.
  3. **Cells in a row** — `allocatedCells` are the cells with given bodies; each reads back as its
     body.
-/
import Winreg.Core.Key

namespace Winreg

open Rust

/-! ## The base block -/

/-- The first twelve fields of the base block of a version 1.5 hive. -/
def imageFields (root binsSize : UInt32) : Bytes :=
  BaseBlock.magic ++ u32Bytes 1 ++ u32Bytes 1 ++ u64Bytes 0 ++ u32Bytes 1 ++ u32Bytes 5 ++
    u32Bytes 0 ++ u32Bytes 1 ++ u32Bytes root ++ u32Bytes binsSize ++ u32Bytes 1

/-- The 508 bytes before the checksum; the fields after the first twelve are zero. -/
def imageHeader (root binsSize : UInt32) : Bytes :=
  imageFields root binsSize ++ List.replicate 460 0

/-- The 512 bytes that the base block is read from. -/
def imageBlock (root binsSize : UInt32) : Bytes :=
  imageHeader root binsSize ++ u32Bytes (BaseBlock.computeChecksum (imageHeader root binsSize))

/-- The base block that is read. -/
def imageBaseBlock (root binsSize : UInt32) : BaseBlock where
  primarySequence := 1
  secondarySequence := 1
  lastWritten := 0
  majorVersion := 1
  minorVersion := 5
  fileType := 0
  format := 1
  rootCellOffset := root
  hiveBinsDataSize := binsSize
  clusteringFactor := 1
  fileName := List.replicate 64 0
  rmId := List.replicate 16 0
  logId := List.replicate 16 0
  flags := 0
  tmId := List.replicate 16 0
  guidSignature := 0
  lastReorganizeTime := 0
  reserved1 := List.replicate 332 0
  checksum := BaseBlock.computeChecksum (imageHeader root binsSize)

/-- The fields end at the file name. -/
theorem length_imageFields (root binsSize : UInt32) : (imageFields root binsSize).length = 48 := rfl

/-- The header ends at the checksum. -/
theorem length_imageHeader (root binsSize : UInt32) :
    (imageHeader root binsSize).length = 508 := by
  rw [imageHeader, List.length_append, length_imageFields, List.length_replicate]

/-- With the checksum it is one sector. -/
theorem length_imageBlock (root binsSize : UInt32) : (imageBlock root binsSize).length = 512 := by
  rw [imageBlock, List.length_append, length_imageHeader, length_u32Bytes]

/-- A range of zeros. -/
theorem bytesAt_replicate {off n m : Nat} (h : off + n ≤ m) :
    bytesAt (List.replicate m 0) off n = List.replicate n 0 := by
  rw [bytesAt, List.drop_replicate, List.take_replicate]
  congr 1; omega

section ImageBlock

variable {data : Bytes} {root binsSize : UInt32}

/-- The first twelve fields of a file that starts with the block. -/
theorem bytesAt_imageFields (h : bytesAt data 0 512 = imageBlock root binsSize) {off n : Nat}
    (hn : off + n ≤ 48) : bytesAt data off n = bytesAt (imageFields root binsSize) off n := by
  have hlen := length_imageFields root binsSize
  have hblock := @bytesAt_bytesAt data 0 512 off n (by omega)
  rw [Nat.zero_add, h] at hblock
  rw [← hblock, imageBlock, imageHeader, List.append_assoc, bytesAt_append_left (by omega)]

/-- The zero fields of a file that starts with the block. -/
theorem bytesAt_imageZeros (h : bytesAt data 0 512 = imageBlock root binsSize) {off n : Nat}
    (hlo : 48 ≤ off) (hhi : off + n ≤ 508) : bytesAt data off n = List.replicate n 0 := by
  have hlen := length_imageFields root binsSize
  have hblock := @bytesAt_bytesAt data 0 512 off n (by omega)
  rw [Nat.zero_add, h] at hblock
  rw [← hblock, imageBlock, imageHeader, List.append_assoc, bytesAt_append_right (by omega), hlen,
    bytesAt_append_left (by rw [List.length_replicate]; omega)]
  exact bytesAt_replicate (by omega)

/-- **A file that starts with the block has its base block**, with a valid checksum. -/
theorem BaseBlock.read_imageBlock (hlen : BaseBlock.size ≤ data.length)
    (h : bytesAt data 0 512 = imageBlock root binsSize) :
    BaseBlock.read data = some (imageBaseBlock root binsSize) ∧
      BaseBlock.validateChecksum data = true := by
  have hmagic : bytesAt data 0 4 = BaseBlock.magic :=
    (bytesAt_imageFields h (by omega)).trans rfl
  have hsize : BaseBlock.size = 4096 := rfl
  obtain ⟨hchecksum, hvalid⟩ :=
    BaseBlock.validateChecksum_sealed (length_imageHeader root binsSize) (by omega) h
  refine ⟨?_, hvalid⟩
  unfold BaseBlock.read
  rw [if_neg (by omega), if_neg (not_not.mpr hmagic)]
  simp only [Option.some.injEq, imageBaseBlock, BaseBlock.mk.injEq]
  refine ⟨?_, ?_, ?_, ?_, ?_, ?_, ?_, ?_, ?_, ?_, ?_, ?_, ?_, ?_, ?_, ?_, ?_, ?_, hchecksum⟩
  all_goals first
    | exact u32At_of_bytesAt ((bytesAt_imageFields h (by omega)).trans rfl)
    | exact u64At_of_bytesAt ((bytesAt_imageFields h (by omega)).trans rfl)
    | exact bytesAt_imageZeros h (by omega) (by omega)
    | exact u32At_of_bytesAt (bytesAt_imageZeros h (by omega) (by omega))
    | exact u64At_of_bytesAt (bytesAt_imageZeros h (by omega) (by omega))

end ImageBlock

/-! ## One bin -/

/-- A file with a single bin that fills the declared bins data opens, and its catalog is that
    bin. -/
theorem Hive.fromBytes_oneBin {data : Bytes} {header : BaseBlock} (version : RegfVersion)
    (size : UInt32) (hread : BaseBlock.read data = some header)
    (hsum : BaseBlock.validateChecksum data = true)
    (hver : RegfVersion.fromMinor header.minorVersion = some version)
    (hsize : header.hiveBinsDataSize = size) (hpos : 0 < size.toNat)
    (hmod : size.toNat % 4096 = 0) (hlen : 4096 + 32 ≤ data.length)
    (hmagic : bytesAt data 4096 4 = hbinMagic) (hbin : u32At data 4104 = size) :
    Hive.fromBytes data = .ok ⟨data, header, version, [⟨u32At data 4100, size, 4096⟩],
      bytesAt data 0 BaseBlock.size⟩ := by
  have hbinAt : BinAt data (4096 + size.toNat) 4096 :=
    ⟨by omega, by omega, hmagic, by rw [hbin]; exact hpos, by rw [hbin]; exact hmod⟩
  have htail : Cataloged data (4096 + size.toNat) (4096 + (u32At data 4104).toNat) [] :=
    .stop (Or.inl (by rw [hbin]))
  have hcat := Cataloged.bin hbinAt htail
  rw [binAt, show 4096 + 8 = 4104 from rfl, hbin] at hcat
  have hlen' : BaseBlock.size ≤ data.length := by
    rw [show BaseBlock.size = 4096 from rfl]; omega
  exact Hive.fromBytes_of_stages hlen' hread hsum hver (by rw [hsize]; exact hcat)

/-- The base block and the bin header, up to the first cell. -/
def oneBinPrefix (root : UInt32) : Bytes :=
  imageBlock root 4096 ++
    (List.replicate 3584 0 ++ (hbinMagic ++ u32Bytes 0 ++ u32Bytes 4096 ++ List.replicate 20 0))

/-- A hive image with one bin that holds the given cells from cell offset 32 on. -/
def oneBinImage (root : UInt32) (cells : Bytes) : Bytes :=
  oneBinPrefix root ++ (cells ++ List.replicate (4064 - cells.length) 0)

/-- A cell: its size field, then its body. -/
def cellBytes (rawSize : Int) (body : Bytes) : Bytes := i32Bytes rawSize ++ body

/-- The body of an `nk` cell with a compressed name. -/
def nkRecordBytes (flags : UInt16) (subkeyCount subkeysList valueCount valuesList : UInt32)
    (name : Bytes) : Bytes :=
  [0x6E, 0x6B] ++ u16Bytes flags ++ u64Bytes 0 ++ u32Bytes 0 ++ u32Bytes 0xFFFFFFFF ++
    u32Bytes subkeyCount ++ u32Bytes 0 ++ u32Bytes subkeysList ++ u32Bytes 0xFFFFFFFF ++
    u32Bytes valueCount ++ u32Bytes valuesList ++ u32Bytes 0xFFFFFFFF ++ u32Bytes 0xFFFFFFFF ++
    List.replicate 20 0 ++ u16Bytes (UInt16.ofNat name.length) ++ u16Bytes 0 ++ name

/-- The body of a `vk` cell with a compressed name and the data in its offset field. -/
def vkRecordBytes (dataSize data dataType : UInt32) (name : Bytes) : Bytes :=
  [0x76, 0x6B] ++ u16Bytes (UInt16.ofNat name.length) ++ u32Bytes dataSize ++ u32Bytes data ++
    u32Bytes dataType ++ u16Bytes 1 ++ u16Bytes 0 ++ name

/-- The hive that opens from `oneBinImage`. -/
def oneBinHive (root : UInt32) (cells : Bytes) : Hive where
  data := oneBinImage root cells
  header := imageBaseBlock root 4096
  version := .v1_5
  bins := [⟨0, 4096, 4096⟩]
  headerBytes := bytesAt (oneBinImage root cells) 0 BaseBlock.size

/-- The cells start behind the base block and the bin's header. -/
theorem length_oneBinPrefix (root : UInt32) : (oneBinPrefix root).length = 4128 := by
  simp only [oneBinPrefix, List.length_append, length_imageBlock, length_u32Bytes,
    List.length_replicate, show hbinMagic.length = 4 from rfl]

/-- The image has one bin of one page, whatever cells it holds. -/
theorem length_oneBinImage (root : UInt32) {cells : Bytes} (h : cells.length ≤ 4064) :
    (oneBinImage root cells).length = 8192 := by
  simp only [oneBinImage, List.length_append, length_oneBinPrefix, List.length_replicate]
  omega

/-- The image starts with its block. -/
theorem bytesAt_oneBinBlock (root : UInt32) (cells : Bytes) :
    bytesAt (oneBinImage root cells) 0 512 = imageBlock root 4096 := by
  have hlen := length_imageBlock root 4096
  rw [oneBinImage, oneBinPrefix, List.append_assoc, bytesAt_append_left (by omega)]
  exact bytesAt_zero_of_length_le (by omega)

/-- A range of the bin header of the image. -/
theorem bytesAt_oneBinBin (root : UInt32) (cells : Bytes) {off n : Nat} (h : off + n ≤ 32) :
    bytesAt (oneBinImage root cells) (4096 + off) n =
      bytesAt (hbinMagic ++ u32Bytes 0 ++ u32Bytes 4096 ++ List.replicate 20 0) off n := by
  have hlen := length_imageBlock root 4096
  unfold oneBinImage
  rw [bytesAt_append_left (by rw [length_oneBinPrefix]; omega), oneBinPrefix,
    bytesAt_append_right (by omega), hlen,
    bytesAt_append_right (by rw [List.length_replicate]; omega), List.length_replicate,
    show 4096 + off - 512 - 3584 = off from by omega]

/-- **The image opens**, as `oneBinHive`. -/
theorem Hive.fromBytes_oneBinImage {root : UInt32} {cells : Bytes} (h : cells.length ≤ 4064) :
    Hive.fromBytes (oneBinImage root cells) = .ok (oneBinHive root cells) := by
  have hlen := length_oneBinImage root h
  have hsize : BaseBlock.size = 4096 := rfl
  obtain ⟨hread, hsum⟩ := BaseBlock.read_imageBlock (by omega) (bytesAt_oneBinBlock root cells)
  have hbin : ∀ off n, off + n ≤ 32 → _ := fun off n => @bytesAt_oneBinBin root cells off n
  rw [Hive.fromBytes_oneBin .v1_5 4096 hread hsum rfl rfl (by decide) rfl
    (by omega) ((hbin 0 4 (by omega)).trans rfl)
    (u32At_of_bytesAt ((hbin 8 4 (by omega)).trans rfl)),
    u32At_of_bytesAt (x := 0) ((hbin 4 4 (by omega)).trans rfl)]
  rfl

/-- A range inside the cells of the image. -/
theorem bytesAt_oneBinCells {root : UInt32} {cells : Bytes} {k n : Nat}
    (h : k + n ≤ cells.length) :
    bytesAt (oneBinImage root cells) (4128 + k) n = bytesAt cells k n := by
  unfold oneBinImage
  rw [bytesAt_append_right (by rw [length_oneBinPrefix]; omega), length_oneBinPrefix,
    Nat.add_sub_cancel_left, bytesAt_append_left h]

/-- The header of the cell that starts `k` bytes into the cells of the image. -/
theorem Hive.cellHeader_oneBin {root off : UInt32} {cells : Bytes} {k : Nat} {raw : Int}
    (hoff : off.toNat = 32 + k) (hk : k + 4 ≤ cells.length) (hlo : -2 ^ 31 ≤ raw)
    (hhi : raw < 2 ^ 31) (hraw : bytesAt cells k 4 = i32Bytes raw) :
    (oneBinHive root cells).cellHeader ⟨off⟩ = ⟨raw⟩ := by
  have hfile : (CellOffset.mk off).fileOffset = 4128 + k := by
    show 4096 + off.toNat = 4128 + k
    omega
  unfold Hive.cellHeader
  rw [hfile]
  congr 1
  exact i32At_of_bytesAt hlo hhi ((bytesAt_oneBinCells hk).trans hraw)

/-- Reading an allocated cell of the image gives its body. -/
theorem Hive.readCellRaw_oneBin {root off : UInt32} {cells : Bytes} {k size : Nat}
    (hcells : cells.length ≤ 4064) (hoff : off.toNat = 32 + k) (hsize : 4 ≤ size)
    (hk : k + size ≤ cells.length) (hraw : bytesAt cells k 4 = i32Bytes (-size)) :
    (oneBinHive root cells).reader.readCellRaw ⟨off⟩ =
      .ok (⟨-size⟩, bytesAt cells (k + 4) (size - 4)) := by
  have hlen := length_oneBinImage root hcells
  have hfile : (CellOffset.mk off).fileOffset = 4128 + k := by
    show 4096 + off.toNat = 4128 + k
    omega
  have hhdr : (oneBinHive root cells).cellHeader ⟨off⟩ = ⟨-size⟩ :=
    Hive.cellHeader_oneBin hoff (by omega) (by omega) (by omega) hraw
  have hnull : (CellOffset.mk off).isNull = false := by
    refine beq_eq_false_iff_ne.mpr fun hv => ?_
    have hmax : (0xFFFFFFFF : UInt32).toNat = 4294967295 := rfl
    have hoff' : (CellOffset.mk off).val.toNat = 32 + k := hoff
    rw [hv] at hoff'
    omega
  have hread := @Hive.readCellRaw_allocated (oneBinHive root cells) ⟨off⟩ size hnull
    (CellHeader.mk.inj hhdr) hsize (show _ ≤ (oneBinImage root cells).length by omega)
  have hbody : bytesAt (oneBinHive root cells).data (4128 + k + 4) (size - 4) =
      bytesAt cells (k + 4) (size - 4) := by
    rw [Nat.add_assoc]
    exact bytesAt_oneBinCells (by omega)
  rw [hfile, hbody] at hread
  exact hread

/-- Reading a typed cell of the image dispatches on its body. -/
theorem Hive.readCell_oneBin {root off : UInt32} {cells : Bytes} {cell : Cell} (k size : Nat)
    (hcells : cells.length ≤ 4064) (hoff : off.toNat = 32 + k) (hsize : 4 ≤ size)
    (hk : k + size ≤ cells.length) (hraw : bytesAt cells k 4 = i32Bytes (-size))
    (hcell : dispatchCell ⟨off⟩ (bytesAt cells (k + 4) (size - 4)) = .ok cell) :
    (oneBinHive root cells).reader.readCell ⟨off⟩ = .ok cell := by
  rw [CellReader.readCell, Hive.readCellRaw_oneBin hcells hoff hsize hk hraw, Exec.ok_bind]
  exact hcell

/-- The `nk` cell of `nkRecordBytes`, parsed. -/
def nkRecord (flags : KeyFlags) (subkeyCount subkeysList valueCount valuesList : UInt32)
    (name : Bytes) : RawKeyNode where
  flags := flags
  lastWritten := 0
  accessBits := 0
  parent := ⟨0xFFFFFFFF⟩
  subkeyCount := subkeyCount
  volatileSubkeyCount := 0
  subkeysListOffset := ⟨subkeysList⟩
  volatileSubkeysListOffset := ⟨0xFFFFFFFF⟩
  valueCount := valueCount
  valuesListOffset := ⟨valuesList⟩
  securityOffset := ⟨0xFFFFFFFF⟩
  classNameOffset := ⟨0xFFFFFFFF⟩
  maxSubkeyNameCompound := 0
  maxSubkeyClassLen := 0
  maxValueNameLen := 0
  maxValueDataSize := 0
  workVar := 0
  keyNameLen := UInt16.ofNat name.length
  classNameLen := 0
  keyNameRaw := name

/-! ## Cells in a row -/

/-- An allocated cell with the given body. -/
def allocatedCell (body : Bytes) : Bytes := cellBytes (-(body.length + 4 : Nat)) body

/-- Allocated cells with the given bodies, one behind the other. -/
def allocatedCells (bodies : List Bytes) : Bytes := bodies.flatMap allocatedCell

/-- Each cell has four bytes for its size. -/
theorem length_allocatedCells (bodies : List Bytes) :
    (allocatedCells bodies).length = ((bodies.map List.length).map (· + 4)).sum := by
  unfold allocatedCells
  rw [List.length_flatMap, List.map_map]
  refine congrArg List.sum (List.map_congr_left fun body _ => ?_)
  unfold allocatedCell cellBytes
  rw [List.length_append, length_i32Bytes]
  exact Nat.add_comm _ _

/-- Reading one of the cells gives its body. -/
theorem Hive.readCellRaw_allocatedCells (root : UInt32) {off : UInt32} {bodies : List Bytes}
    {body : Bytes} (i : Nat) (hcells : (allocatedCells bodies).length ≤ 4064)
    (hbody : bodies[i]? = some body)
    (hoff : off.toNat = 32 + (allocatedCells (bodies.take i)).length) :
    (oneBinHive root (allocatedCells bodies)).reader.readCellRaw ⟨off⟩ =
      .ok (⟨-(body.length + 4 : Nat)⟩, body) := by
  have hsplit : allocatedCells bodies =
      allocatedCells (bodies.take i) ++ (i32Bytes (-(body.length + 4 : Nat)) ++
        (body ++ allocatedCells (bodies.drop (i + 1)))) := by
    obtain ⟨hi, rfl⟩ := List.getElem?_eq_some_iff.mp hbody
    conv_lhs => rw [← List.take_append_drop i bodies, List.drop_eq_getElem_cons hi]
    unfold allocatedCells
    rw [List.flatMap_append, List.flatMap_cons, allocatedCell, cellBytes, List.append_assoc]
  have hlen : (allocatedCells (bodies.take i)).length + (body.length + 4) ≤
      (allocatedCells bodies).length := by
    rw [hsplit, List.length_append, List.length_append, List.length_append, length_i32Bytes]
    omega
  have hraw : bytesAt (allocatedCells bodies) (allocatedCells (bodies.take i)).length 4 =
      i32Bytes (-(body.length + 4 : Nat)) := by
    exact bytesAt_part hsplit rfl (length_i32Bytes _)
  have hrest : bytesAt (allocatedCells bodies) ((allocatedCells (bodies.take i)).length + 4)
      (body.length + 4 - 4) = body := by
    rw [← List.append_assoc] at hsplit
    exact bytesAt_part hsplit (by rw [List.length_append, length_i32Bytes]) (by omega)
  have hread := @Hive.readCellRaw_oneBin root _ _ _ _ hcells hoff (by omega) hlen hraw
  rw [hrest] at hread
  exact hread

/-- Reading one of the cells dispatches on its body. -/
theorem Hive.readCell_allocatedCells (root : UInt32) {off : UInt32} {bodies : List Bytes}
    {body : Bytes} {cell : Cell} (i : Nat) (hcells : (allocatedCells bodies).length ≤ 4064)
    (hbody : bodies[i]? = some body)
    (hoff : off.toNat = 32 + (allocatedCells (bodies.take i)).length)
    (hcell : dispatchCell ⟨off⟩ body = .ok cell) :
    (oneBinHive root (allocatedCells bodies)).reader.readCell ⟨off⟩ = .ok cell := by
  rw [CellReader.readCell, Hive.readCellRaw_allocatedCells root i hcells hbody hoff, Exec.ok_bind]
  exact hcell

end Winreg
