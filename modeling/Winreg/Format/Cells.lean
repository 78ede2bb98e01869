/-
  CELLS of a registry hive: offsets, cell headers, signatures, and the typed cell records.

  Everything in a hive lives in a cell: a signed 32-bit size (negative = allocated, positive =
  free) and a body.  A body that starts with a two-byte signature is a typed record: `nk` (key),
  `vk` (value), `sk` (security), `lf`/`lh`/`li`/`ri` (subkey indices), `db` (big data).  The
  `parse` functions read the bytes after the signature and give `none` when the record does not
  fit; behind the length check at the head of each of them every fixed field is inside the slice.
-/
import Winreg.Base.Text

namespace Winreg

open Rust

/-! ## Offsets, headers, signatures -/

/-- Offset of a cell, relative to the start of the hive bins data. -/
structure CellOffset where
  val : UInt32
deriving DecidableEq, Repr

namespace CellOffset

/-- Null/empty sentinel value. -/
def null : CellOffset := ⟨0xFFFFFFFF⟩

/-- Absolute file offset of the cell: the bins data starts at 4096. -/
def fileOffset (o : CellOffset) : Nat := 4096 + o.val.toNat

/-- The offset that stands for nothing. -/
def isNull (o : CellOffset) : Bool := o.val == 0xFFFFFFFF

end CellOffset

/-- The size field of a cell: negative for an allocated cell, positive for a free one. -/
structure CellHeader where
  rawSize : Int
deriving DecidableEq, Repr

namespace CellHeader

/-- The size field, at the start of a cell. -/
def fromBytes (bytes : Bytes) : CellHeader := ⟨i32At bytes 0⟩

/-- A negative size field marks a cell in use. -/
def isAllocated (h : CellHeader) : Bool := h.rawSize < 0

/-- Cell size in bytes, the 4-byte size field included (`unsigned_abs`). -/
def size (h : CellHeader) : Nat := h.rawSize.natAbs

end CellHeader

/-- Two-byte cell signature identifying the cell type. -/
inductive CellSignature where
  | keyNode
  | keyValue
  | securityKey
  | fastLeaf
  | hashLeaf
  | indexLeaf
  | rootIndex
  | bigData
deriving DecidableEq, Repr

/-- The two signature bytes of each cell type: `nk`, `vk`, `sk`, `lf`, `lh`, `li`, `ri`, `db`. -/
def CellSignature.fromBytes (b0 b1 : UInt8) : Option CellSignature :=
  if b0 = 0x6E ∧ b1 = 0x6B then some .keyNode
  else if b0 = 0x76 ∧ b1 = 0x6B then some .keyValue
  else if b0 = 0x73 ∧ b1 = 0x6B then some .securityKey
  else if b0 = 0x6C ∧ b1 = 0x66 then some .fastLeaf
  else if b0 = 0x6C ∧ b1 = 0x68 then some .hashLeaf
  else if b0 = 0x6C ∧ b1 = 0x69 then some .indexLeaf
  else if b0 = 0x72 ∧ b1 = 0x69 then some .rootIndex
  else if b0 = 0x64 ∧ b1 = 0x62 then some .bigData
  else none

/-! ## Flags and value types -/

/-- Flags of an `nk` cell; the bits outside the ten named ones are dropped on reading. -/
structure KeyFlags where
  bits : UInt16
deriving DecidableEq, Repr

namespace KeyFlags

def hiveEntry : UInt16 := 0x0004
def compName : UInt16 := 0x0020

/-- `from_bits_truncate`: the named bits are `0x0001` to `0x0200`. -/
def fromBitsTruncate (b : UInt16) : KeyFlags := ⟨b &&& 0x03FF⟩

/-- All bits of the flag are set. -/
def contains (f : KeyFlags) (bit : UInt16) : Bool := f.bits &&& bit == bit

end KeyFlags

/-- Flags of a `vk` cell; `COMP_NAME` is the only named bit. -/
structure ValueFlags where
  bits : UInt16
deriving DecidableEq, Repr

namespace ValueFlags

def compName : UInt16 := 0x0001

def fromBitsTruncate (b : UInt16) : ValueFlags := ⟨b &&& 0x0001⟩

def contains (f : ValueFlags) (bit : UInt16) : Bool := f.bits &&& bit == bit

end ValueFlags

/-- Registry value data type. -/
inductive ValueType where
  | none
  | sz
  | expandSz
  | binary
  | dword
  | dwordBigEndian
  | link
  | multiSz
  | resourceList
  | fullResourceDescriptor
  | resourceRequirementsList
  | qword
  | unknown (raw : UInt32)
deriving DecidableEq, Repr

namespace ValueType

/-- The type of a number; an unknown one is kept. -/
def fromRaw (raw : UInt32) : ValueType :=
  match raw.toNat with
  | 0 => .none
  | 1 => .sz
  | 2 => .expandSz
  | 3 => .binary
  | 4 => .dword
  | 5 => .dwordBigEndian
  | 6 => .link
  | 7 => .multiSz
  | 8 => .resourceList
  | 9 => .fullResourceDescriptor
  | 10 => .resourceRequirementsList
  | 11 => .qword
  | _ => .unknown raw

/-- The `REG_*` name of a type. -/
def name : ValueType → Str
  | .none => "REG_NONE".toList
  | .sz => "REG_SZ".toList
  | .expandSz => "REG_EXPAND_SZ".toList
  | .binary => "REG_BINARY".toList
  | .dword => "REG_DWORD".toList
  | .dwordBigEndian => "REG_DWORD_BIG_ENDIAN".toList
  | .link => "REG_LINK".toList
  | .multiSz => "REG_MULTI_SZ".toList
  | .resourceList => "REG_RESOURCE_LIST".toList
  | .fullResourceDescriptor => "REG_FULL_RESOURCE_DESCRIPTOR".toList
  | .resourceRequirementsList => "REG_RESOURCE_REQUIREMENTS_LIST".toList
  | .qword => "REG_QWORD".toList
  | .unknown _ => "REG_UNKNOWN".toList

end ValueType

/-! ## Key nodes -/

/-- `nk` cell data. -/
structure RawKeyNode where
  flags : KeyFlags
  lastWritten : UInt64
  accessBits : UInt32
  parent : CellOffset
  subkeyCount : UInt32
  volatileSubkeyCount : UInt32
  subkeysListOffset : CellOffset
  volatileSubkeysListOffset : CellOffset
  valueCount : UInt32
  valuesListOffset : CellOffset
  securityOffset : CellOffset
  classNameOffset : CellOffset
  maxSubkeyNameCompound : UInt32
  maxSubkeyClassLen : UInt32
  maxValueNameLen : UInt32
  maxValueDataSize : UInt32
  workVar : UInt32
  keyNameLen : UInt16
  classNameLen : UInt16
  keyNameRaw : Bytes
deriving DecidableEq, Repr

namespace RawKeyNode

/-- Signature and fixed fields of an `nk` body. -/
def headerSize : Nat := 0x4C

/-- Parse an `nk` cell from the bytes after its signature. -/
def parse (data : Bytes) : Option RawKeyNode :=
  if data.length < headerSize - 2 then none
  else
    let keyNameLen := u16At data 70
    let nameStart := 74
    let nameEnd := nameStart + keyNameLen.toNat
    if data.length < nameEnd then none
    else some
      { flags := KeyFlags.fromBitsTruncate (u16At data 0)
        lastWritten := u64At data 2
        accessBits := u32At data 10
        parent := ⟨u32At data 14⟩
        subkeyCount := u32At data 18
        volatileSubkeyCount := u32At data 22
        subkeysListOffset := ⟨u32At data 26⟩
        volatileSubkeysListOffset := ⟨u32At data 30⟩
        valueCount := u32At data 34
        valuesListOffset := ⟨u32At data 38⟩
        securityOffset := ⟨u32At data 42⟩
        classNameOffset := ⟨u32At data 46⟩
        maxSubkeyNameCompound := u32At data 50
        maxSubkeyClassLen := u32At data 54
        maxValueNameLen := u32At data 58
        maxValueDataSize := u32At data 62
        workVar := u32At data 66
        keyNameLen := keyNameLen
        classNameLen := u16At data 72
        keyNameRaw := bytesAt data nameStart (nameEnd - nameStart) }

/-- Compressed names are Latin-1, the others UTF-16LE. -/
def keyName (nk : RawKeyNode) : Str :=
  if nk.flags.contains KeyFlags.compName then latin1 nk.keyNameRaw
  else fromUtf16Lossy (utf16Units nk.keyNameRaw)

/-- The record says that the key is the root. -/
def isRoot (nk : RawKeyNode) : Bool := nk.flags.contains KeyFlags.hiveEntry

end RawKeyNode

/-! ## Key values -/

/-- `vk` cell data. -/
structure RawKeyValue where
  nameLen : UInt16
  dataSizeRaw : UInt32
  dataOffsetRaw : UInt32
  dataType : ValueType
  flags : ValueFlags
  nameRaw : Bytes
deriving DecidableEq, Repr

namespace RawKeyValue

/-- Signature and fixed fields of a `vk` body. -/
def headerSize : Nat := 0x14

/-- Parse a `vk` cell from the bytes after its signature. -/
def parse (data : Bytes) : Option RawKeyValue :=
  if data.length < headerSize - 2 then none
  else
    let nameLen := u16At data 0
    let nameStart := 18
    let nameEnd := nameStart + nameLen.toNat
    if data.length < nameEnd then none
    else some
      { nameLen := nameLen
        dataSizeRaw := u32At data 2
        dataOffsetRaw := u32At data 6
        dataType := ValueType.fromRaw (u32At data 10)
        flags := ValueFlags.fromBitsTruncate (u16At data 14)
        nameRaw := bytesAt data nameStart (nameEnd - nameStart) }

/-- The top bit of the size field: the data is stored in the offset field. -/
def isResident (vk : RawKeyValue) : Bool := vk.dataSizeRaw &&& 0x80000000 != 0

/-- The size without the resident bit. -/
def dataSize (vk : RawKeyValue) : UInt32 := vk.dataSizeRaw &&& 0x7FFFFFFF

/-- Where the data stands when it is not resident. -/
def dataOffset (vk : RawKeyValue) : CellOffset := ⟨vk.dataOffsetRaw⟩

/-- Resident data: up to four bytes of the offset field. -/
def inlineData (vk : RawKeyValue) : Bytes :=
  (u32Bytes vk.dataOffsetRaw).take (min vk.dataSize.toNat 4)

/-- The name of a value, in one byte for each character or in UTF-16. -/
def valueName (vk : RawKeyValue) : Str :=
  if vk.nameLen = 0 then []
  else if vk.flags.contains ValueFlags.compName then latin1 vk.nameRaw
  else fromUtf16Lossy (utf16Units vk.nameRaw)

end RawKeyValue

/-! ## Subkey indices -/

/-- `lf` element: key offset and the first four characters of its name. -/
structure LfElement where
  keyOffset : CellOffset
  nameHint : Bytes
deriving DecidableEq, Repr

/-- `lh` element: key offset and the hash of its name. -/
structure LhElement where
  keyOffset : CellOffset
  nameHash : UInt32
deriving DecidableEq, Repr

/-- A parsed subkey index. -/
inductive SubkeyIndex where
  | fastLeaf (elements : List LfElement)
  | hashLeaf (elements : List LhElement)
  | indexLeaf (offsets : List CellOffset)
  | rootIndex (offsets : List CellOffset)
deriving DecidableEq, Repr

namespace SubkeyIndex

/-- `bytes::read4`: four raw bytes, zeros when they are not all inside the buffer. -/
def read4 (data : Bytes) (off : Nat) : Bytes :=
  if off + 4 ≤ data.length then bytesAt data off 4 else [0, 0, 0, 0]

/-- The common shape of the four index cells: a 16-bit count, then `count` elements of `width`
    bytes each; `none` when they do not all fit. -/
def parseElements {α : Type} (width : Nat) (element : Bytes → Nat → α) (data : Bytes) :
    Option (List α) :=
  if data.length < 2 then none
  else
    let count := (u16At data 0).toNat
    let elementsData := data.drop 2
    if elementsData.length < count * width then none
    else some ((List.range count).map fun i => element elementsData (i * width))

/-- A list of offsets with hints of four characters. -/
def parseLf (data : Bytes) : Option SubkeyIndex :=
  (parseElements 8 (fun d base => ⟨⟨leU32 d base⟩, read4 d (base + 4)⟩) data).map fastLeaf

/-- A list of offsets with hashes. -/
def parseLh (data : Bytes) : Option SubkeyIndex :=
  (parseElements 8 (fun d base => ⟨⟨leU32 d base⟩, leU32 d (base + 4)⟩) data).map hashLeaf

/-- A list of offsets alone. -/
def parseLi (data : Bytes) : Option SubkeyIndex :=
  (parseElements 4 (fun d base => ⟨leU32 d base⟩) data).map indexLeaf

/-- A list of offsets of lists. -/
def parseRi (data : Bytes) : Option SubkeyIndex :=
  (parseElements 4 (fun d base => ⟨leU32 d base⟩) data).map rootIndex

end SubkeyIndex

/-- The name hash of `lh` elements: `H = 37 * H + C` over the upper-cased name. -/
def lhHash (name : Str) : UInt32 :=
  (asBytes (toAsciiUppercase name)).foldl (fun h c => h * 37 + c.toUInt32) 0

/-! ## Security and big-data records -/

/-- `sk` cell data. -/
structure RawSecurityKey where
  flink : CellOffset
  blink : CellOffset
  referenceCount : UInt32
  descriptorSize : UInt32
  descriptor : Bytes
deriving DecidableEq, Repr

/-- The record of a security descriptor. -/
def RawSecurityKey.parse (data : Bytes) : Option RawSecurityKey :=
  if data.length < 18 then none
  else
    let descriptorSize := u32At data 14
    let descEnd := 18 + descriptorSize.toNat
    if data.length < descEnd then none
    else some
      { flink := ⟨u32At data 2⟩
        blink := ⟨u32At data 6⟩
        referenceCount := u32At data 10
        descriptorSize := descriptorSize
        descriptor := bytesAt data 18 (descEnd - 18) }

/-- `db` cell data. -/
structure RawBigData where
  segmentCount : UInt16
  segmentListOffset : CellOffset
deriving DecidableEq, Repr

/-- The record of data in segments. -/
def RawBigData.parse (data : Bytes) : Option RawBigData :=
  if data.length < 6 then none
  else some
    { segmentCount := u16At data 0
      segmentListOffset := ⟨u32At data 2⟩ }

end Winreg
