/-
  THE TEST HIVE BUILDER: encode keys and values as a hive.

  `build` works in two passes.  The first turns the paths into a tree and allocates a cell for
  everything the tree needs, with placeholders where a cell will refer to another one
  (`TestHiveBuilder.plan`).  The second writes the cells into one bin, overwrites the placeholders,
  and writes the bin header and the base block (`Plan.write`).

  The recursions over the tree follow the children map of the tree, so they take a budget; the
  four of them are one walk with four visits (`walkChildren`).  `usize` has 64 bits and does not
  overflow; `as u16`, `as u32` and `as i32` truncate, and negating the least `i32` aborts.
-/
import Winreg.Base.OrdMap
import Winreg.Format.Header

namespace Winreg.TestUtil

open Rust

/-- Values larger than this are stored as a `db` big-data record. -/
def bigDataThreshold : Nat := 16344

/-- Each big-data segment holds at most this many bytes. -/
def bigDataSegmentSize : Nat := 16344

/-! ## The public interface -/

/-- A value as it is given to the builder, with the path of its key. -/
structure TestValue where
  keyPath : Str
  name : Str
  dataType : UInt32
  data : Bytes
deriving DecidableEq, Repr

/-- Builds a synthetic hive in memory. -/
structure TestHiveBuilder where
  keys : List Str
  values : List TestValue
  /-- Written as every key's `last_written`. -/
  keyFiletime : UInt64
deriving DecidableEq, Repr

namespace TestHiveBuilder

/-- A builder with nothing in it. -/
def new : TestHiveBuilder := ⟨[], [], 0⟩

/-- All keys get this time. -/
def withKeyTimes (b : TestHiveBuilder) (filetime : UInt64) : TestHiveBuilder :=
  { b with keyFiletime := filetime }

/-- Add a key by backslash-separated path. -/
def addKey (b : TestHiveBuilder) (path : Str) : TestHiveBuilder :=
  { b with keys := b.keys ++ [path] }

/-- Add a value under the given key path. -/
def addValue (b : TestHiveBuilder) (keyPath name : Str) (dataType : UInt32) (data : Bytes) :
    TestHiveBuilder :=
  { b with values := b.values ++ [⟨keyPath, name, dataType, data⟩] }

end TestHiveBuilder

/-! ## The key tree -/

/-- A value in the tree of keys. -/
structure TreeValue where
  name : Str
  dataType : UInt32
  data : Bytes
deriving DecidableEq, Repr

/-- Key tree built from flat paths. -/
structure KeyTree where
  /-- Direct children of the root key. -/
  rootChildren : List Str
  /-- From a full path to its direct child names. -/
  children : BTreeMap Str (List Str)
  /-- From a full path to its values. -/
  values : BTreeMap Str (List TreeValue)

/-- `parts.join("\\")`. -/
def joinParts (parts : List Str) : Str := ['\\'].intercalate parts

/-- `if !all.contains(&x) { all.push(x) }`. -/
def pushNew {α : Type} [DecidableEq α] (all : List α) (x : α) : List α :=
  if x ∈ all then all else all ++ [x]

/-- `s.rfind(c)`: the position of the last `c`. -/
def rfind (c : Char) : Str → Option Nat
  | [] => none
  | x :: xs =>
    match rfind c xs with
    | some i => some (i + 1)
    | none => if x = c then some 0 else none

/-- `xs.dedup()`: drop every element that equals the one before it. -/
def dedup {α : Type} [DecidableEq α] : List α → List α
  | x :: y :: rest => if x = y then dedup (y :: rest) else x :: dedup (y :: rest)
  | xs => xs

namespace KeyTree

/-- Add the prefixes of a path, itself included. -/
def addPrefixes (all : List Str) (path : Str) : List Str :=
  let parts := path.splitOn '\\'
  (List.range' 1 parts.length).foldl (fun all i => pushNew all (joinParts (parts.take i))) all

/-- All paths, auto-created parents included: those of the keys, then those of the values. -/
def allPaths (keys : List Str) (values : List TestValue) : List Str :=
  values.foldl (fun all v => addPrefixes all v.keyPath) (keys.foldl addPrefixes [])

/-- Enter a path under its parent, or under the root when it has no backslash. -/
def addChild (acc : List Str × BTreeMap Str (List Str)) (path : Str) :
    List Str × BTreeMap Str (List Str) :=
  match rfind '\\' path with
  | some pos => (acc.1, acc.2.pushAt (path.take pos) (path.drop (pos + 1)))
  | none => (pushNew acc.1 path, acc.2)

/-- Enter a value under its key. -/
def addValue (m : BTreeMap Str (List TreeValue)) (v : TestValue) : BTreeMap Str (List TreeValue) :=
  m.pushAt v.keyPath ⟨v.name, v.dataType, v.data⟩

/-- The tree of the given paths: each path adds its missing parents, and names stay in the order in
    which they were first mentioned. -/
def fromPaths (keys : List Str) (values : List TestValue) : KeyTree :=
  let (rootChildren, childrenMap) := (allPaths keys values).foldl addChild ([], ∅)
  let childrenMap := childrenMap.map fun _ names => dedup names
  ⟨rootChildren, childrenMap, values.foldl addValue ∅⟩

/-- `tree.children.get(path)`, with nothing for a path that has no entry. -/
def childrenOf (tree : KeyTree) (path : Str) : List Str := (tree.children[path]?).getD []

end KeyTree

/-- The full path of a child. -/
def fullPath (parentPath childName : Str) : Str :=
  if parentPath = [] then childName else parentPath ++ '\\' :: childName

/-- The walk shared by the recursive passes: visit each child in order, and go on below the ones
    that have children.  A visit gets the full path, the name and the children of the child and
    what its parent passed down; it gives what the child passes down. -/
def walkChildren {ε σ η : Type} (tree : KeyTree)
    (visit : Str → Str → List Str → η → σ → Exec ε (η × σ)) :
    Nat → List Str → Str → η → σ → Exec ε σ
  | 0, _, _, _, _ => .timeout
  | n + 1, children, parentPath, above, s =>
    children.foldlM (fun s childName => do
      let path := fullPath parentPath childName
      let grandchildren := tree.childrenOf path
      let (below, s) ← visit path childName grandchildren above s
      if grandchildren ≠ [] then walkChildren tree visit n grandchildren path below s
      else .ok s) s

/-! ## The cell allocator -/

/-- A cell that has been planned, by its number. -/
abbrev CellId := Nat

/-- A planned cell: its place, its size and its body so far. -/
structure AllocatedCell where
  offset : Nat
  alignedSize : Nat
  body : Bytes
deriving DecidableEq, Repr

/-- The planned cells and the place of the next one. -/
structure Allocator where
  pos : Nat
  cells : List AllocatedCell
  /-- Stamped into every `nk` cell's `last_written` field. -/
  keyFiletime : UInt64
deriving DecidableEq, Repr

/-- `(size + 7) & !7`. -/
def align8 (size : Nat) : Nat := (size + 7) / 8 * 8

/-- `(size + 4095) & !4095`. -/
def align4096 (size : Nat) : Nat := (size + 4095) / 4096 * 4096

/-- Minimal self-relative security descriptor: revision 1, no owner, group and lists. -/
def minimalSd : Bytes := [0x01, 0x00, 0x00, 0x80] ++ List.replicate 16 0

namespace Allocator

/-- Nothing is planned, and the first cell goes to the start. -/
def new : Allocator := ⟨0, [], 0⟩

/-- Allocate a cell with the given body. -/
def alloc (a : Allocator) (body : Bytes) : CellId × Allocator :=
  let contentSize := 4 + body.length
  let aligned := align8 contentSize
  let id := a.cells.length
  (id, { a with cells := a.cells ++ [⟨a.pos, aligned, body⟩], pos := a.pos + aligned })

/-- The body of an `sk` cell; the links are placeholders. -/
def skBody (descriptor : Bytes) : Bytes :=
  [0x73, 0x6B] ++ u16Bytes 0 ++ u32Bytes 0 ++ u32Bytes 0 ++ u32Bytes 1 ++
    u32Bytes (UInt32.ofNat descriptor.length) ++ descriptor

/-- The body of an `nk` cell.  Parent, counts, list offsets and security offset are
    placeholders. -/
def nkBody (keyFiletime : UInt64) (name : Bytes) (isRoot : Bool) : Bytes :=
  let flags : UInt16 := if isRoot then 0x0004 ||| 0x0020 else 0x0020
  [[0x6E, 0x6B], u16Bytes flags, u64Bytes keyFiletime,
    u32Bytes 0,           -- access bits
    u32Bytes 0xFFFFFFFF,  -- parent
    u32Bytes 0,           -- subkey count
    u32Bytes 0,           -- volatile subkey count
    u32Bytes 0xFFFFFFFF,  -- subkeys list offset
    u32Bytes 0xFFFFFFFF,  -- volatile subkeys list offset
    u32Bytes 0,           -- value count
    u32Bytes 0xFFFFFFFF,  -- values list offset
    u32Bytes 0xFFFFFFFF,  -- security offset
    u32Bytes 0xFFFFFFFF,  -- class name offset
    u32Bytes 0,           -- max subkey name compound
    u32Bytes 0,           -- max subkey class length
    u32Bytes 0,           -- max value name length
    u32Bytes 0,           -- max value data size
    u32Bytes 0,           -- work var
    u16Bytes (UInt16.ofNat name.length), u16Bytes 0].flatten ++ name

/-- The body of a `vk` cell; the data offset is a placeholder. -/
def vkBody (name : Bytes) (dataType dataSize : UInt32) : Bytes :=
  let flags : UInt16 := if name = [] then 0 else 1
  [[0x76, 0x6B], u16Bytes (UInt16.ofNat name.length), u32Bytes dataSize, u32Bytes 0xFFFFFFFF,
    u32Bytes dataType, u16Bytes flags, u16Bytes 0].flatten ++ name

/-- The body of an `lh` cell with space for `count` elements. -/
def lhBody (count : Nat) : Bytes :=
  [0x6C, 0x68] ++ u16Bytes (UInt16.ofNat count) ++ List.replicate (count * 8) 0

/-- The body of a `db` cell; the offset of the segment list is a placeholder. -/
def dbBody (segments : Nat) : Bytes :=
  [0x64, 0x62] ++ u16Bytes (UInt16.ofNat segments) ++ u32Bytes 0

/-- Plan the cell of the security descriptor. -/
def allocSk (a : Allocator) (descriptor : Bytes) : CellId × Allocator := a.alloc (skBody descriptor)

/-- Plan the cell of a key; its links are filled in later. -/
def allocNk (a : Allocator) (name : Bytes) (isRoot : Bool) : CellId × Allocator :=
  a.alloc (nkBody a.keyFiletime name isRoot)

/-- Plan the cell of a value; where its data is, is filled in later. -/
def allocVk (a : Allocator) (name : Bytes) (dataType dataSize : UInt32) : CellId × Allocator :=
  a.alloc (vkBody name dataType dataSize)

/-- Plan a cell of plain data. -/
def allocData (a : Allocator) (data : Bytes) : CellId × Allocator := a.alloc data

/-- Plan a list of values. -/
def allocValuesList (a : Allocator) (count : Nat) : CellId × Allocator :=
  a.alloc (List.replicate (count * 4) 0)

/-- Plan a list of subkeys. -/
def allocLh (a : Allocator) (count : Nat) : CellId × Allocator := a.alloc (lhBody count)

end Allocator

/-! ## First pass: allocate -/

/-- Allocate an `nk` cell for every key below the root, depth first. -/
def allocChildren {ε : Type} (tree : KeyTree) (n : Nat) (children : List Str) (parentPath : Str)
    (s : Allocator × BTreeMap Str CellId) : Exec ε (Allocator × BTreeMap Str CellId) :=
  walkChildren tree (fun path childName _ above (alloc, nkIds) =>
    let (nkId, alloc) := alloc.allocNk (asBytes childName) false
    .ok (above, (alloc, nkIds.insert path nkId))) n children parentPath () s

/-- `data.chunks(size)`. -/
def chunks (size : Nat) (data : Bytes) : List Bytes :=
  (List.range ((data.length + size - 1) / size)).map fun k => bytesAt data (k * size) size

/-- What the loop over the values has allocated so far. -/
structure ValueCells where
  alloc : Allocator
  vkMap : BTreeMap Str (List CellId)
  valuesListIds : BTreeMap Str CellId
  dataCellIds : BTreeMap CellId CellId
  /-- The `db` cell, the segment-list cell and the segment cells of each big-data value. -/
  bigDataLinks : List (CellId × CellId × List CellId)

/-- Allocate a cell for each segment. -/
def allocSegments (alloc : Allocator) (segments : List Bytes) : List CellId × Allocator :=
  segments.foldl (fun (segIds, alloc) c =>
    let (segId, alloc) := alloc.allocData c
    (segIds ++ [segId], alloc)) ([], alloc)

/-- Allocate the cells of one value: its `vk`, and its data when it is not resident. -/
def allocValue (s : List CellId × ValueCells) (v : TreeValue) : List CellId × ValueCells :=
  let (vkIds, cells) := s
  let (vkId, alloc) :=
    cells.alloc.allocVk (asBytes v.name) v.dataType (UInt32.ofNat v.data.length)
  if v.data.length > bigDataThreshold then
    let (segIds, alloc) := allocSegments alloc (chunks bigDataSegmentSize v.data)
    let (listId, alloc) := alloc.alloc (List.replicate (segIds.length * 4) 0)
    let (dbId, alloc) := alloc.alloc (Allocator.dbBody segIds.length)
    (vkIds ++ [vkId], { cells with
      alloc := alloc
      dataCellIds := cells.dataCellIds.insert vkId dbId
      bigDataLinks := cells.bigDataLinks ++ [(dbId, listId, segIds)] })
  else if v.data.length > 4 then
    let (dataId, alloc) := alloc.allocData v.data
    (vkIds ++ [vkId], { cells with
      alloc := alloc
      dataCellIds := cells.dataCellIds.insert vkId dataId })
  else (vkIds ++ [vkId], { cells with alloc := alloc })

/-- Allocate the cells of the values of one key, and its values list. -/
def allocKeyValues (cells : ValueCells) (entry : Str × List TreeValue) : ValueCells :=
  let (keyPath, vals) := entry
  let (vkIds, cells) := vals.foldl allocValue ([], cells)
  let (vlId, alloc) := cells.alloc.allocValuesList vkIds.length
  { cells with
    alloc := alloc
    valuesListIds := cells.valuesListIds.insert keyPath vlId
    vkMap := cells.vkMap.insert keyPath vkIds }

/-- Allocate an `lh` cell for every key below the root that has children. -/
def allocLhCells {ε : Type} (tree : KeyTree) (n : Nat) (children : List Str) (parentPath : Str)
    (s : Allocator × BTreeMap Str CellId) : Exec ε (Allocator × BTreeMap Str CellId) :=
  walkChildren tree (fun path _ grandchildren above (alloc, lhIds) =>
    if grandchildren ≠ [] then
      let (lhId, alloc) := alloc.allocLh grandchildren.length
      .ok (above, (alloc, lhIds.insert path lhId))
    else .ok (above, (alloc, lhIds))) n children parentPath () s

/-- The outcome of the first pass. -/
structure Plan where
  tree : KeyTree
  skId : CellId
  rootId : CellId
  nkIds : BTreeMap Str CellId
  cells : ValueCells
  lhIds : BTreeMap Str CellId
  /-- The allocator after all allocations. -/
  alloc : Allocator

/-- `b"CMI-root"`. -/
def rootName : Bytes := [0x43, 0x4D, 0x49, 0x2D, 0x72, 0x6F, 0x6F, 0x74]

/-- Build the key tree and allocate the cells. -/
def TestHiveBuilder.plan {ε : Type} (n : Nat) (b : TestHiveBuilder) : Exec ε Plan := do
  let tree := KeyTree.fromPaths b.keys b.values
  let alloc := { Allocator.new with keyFiletime := b.keyFiletime }
  let (skId, alloc) := alloc.allocSk minimalSd
  let (rootId, alloc) := alloc.allocNk rootName true
  let (alloc, nkIds) ← allocChildren tree n tree.rootChildren [] (alloc, ∅)
  let cells := tree.values.toList.foldl allocKeyValues ⟨alloc, ∅, ∅, ∅, []⟩
  let (alloc, lhIds) :=
    if tree.rootChildren ≠ [] then
      let (lhId, alloc) := cells.alloc.allocLh tree.rootChildren.length
      (alloc, (∅ : BTreeMap Str CellId).insert [] lhId)
    else (cells.alloc, ∅)
  let (alloc, lhIds) ← allocLhCells tree n tree.rootChildren [] (alloc, lhIds)
  .ok ⟨tree, skId, rootId, nkIds, cells, lhIds, alloc⟩

/-! ## Second pass: write and link -/

/-- Where the hive bins data starts in the file, and where the cells start in the bin. -/
def hbinFileStart : Nat := BaseBlock.size
/-- Cells start behind the header of the bin. -/
def hbinDataStart : Nat := 32

/-- `buf[offset..offset + 4].copy_from_slice(&val.to_le_bytes())`. -/
def writeU32 {ε : Type} (buf : Bytes) (offset : Nat) (val : UInt32) : Exec ε Bytes :=
  copyInto buf offset (u32Bytes val)

/-- `xs[i]`. -/
def indexList {ε α : Type} (xs : List α) (i : Nat) : Exec ε α :=
  match xs[i]? with
  | some x => .ok x
  | none => .panic

/-- `m[&k]`. -/
def indexMap {ε κ β : Type} [Ord κ] (m : BTreeMap κ β) (k : κ) : Exec ε β :=
  match m[k]? with
  | some x => .ok x
  | none => .panic

/-- `-(size as i32)`; the negation aborts on the least number. -/
def negSize {ε : Type} (size : Nat) : Exec ε Int :=
  let x := asI32 (size % 2 ^ 32)
  if x = -2 ^ 31 then .panic else .ok (-x)

/-! Byte offsets of fields in the bodies of `nk`, `vk` and `sk` cells, signature included. -/

/-- The places of the fields that are filled in later, behind the signature of the record. -/
def nkParentOffset : Nat := 2 + 14
def nkSubkeyCountOffset : Nat := 2 + 18
def nkSubkeysListOffset : Nat := 2 + 26
def nkValueCountOffset : Nat := 2 + 34
def nkValuesListOffset : Nat := 2 + 38
def nkSecurityOffset : Nat := 2 + 42
def vkDataSizeOffset : Nat := 2 + 2
def vkDataOffsetOffset : Nat := 2 + 6
def skFlinkOffset : Nat := 2 + 2
def skBlinkOffset : Nat := 2 + 6

namespace Plan

/-- Size of the bin: a multiple of 4096, its header included. -/
def hbinContent (plan : Plan) : Nat := hbinDataStart + plan.alloc.pos
/-- The size of the one bin: the content in whole pages. -/
def hbinSize (plan : Plan) : Nat := align4096 plan.hbinContent
/-- What is left of the bin behind the cells. -/
def freeSize (plan : Plan) : Nat := plan.hbinSize - plan.hbinContent
/-- The base block and the bin. -/
def totalFileSize (plan : Plan) : Nat := BaseBlock.size + plan.hbinSize

section Write

variable {ε : Type} (plan : Plan)

/-- The file position of a cell. -/
def cellFile (id : CellId) : Exec ε Nat := do
  let cell ← indexList plan.alloc.cells id
  .ok (hbinFileStart + hbinDataStart + cell.offset)

/-- The offset of a cell relative to the start of the hive bins data. -/
def cellOffset (id : CellId) : Exec ε UInt32 := do
  let cell ← indexList plan.alloc.cells id
  .ok (UInt32.ofNat (hbinDataStart + cell.offset))

/-- Write one cell: its size field and its body. -/
def writeCell (buf : Bytes) (cell : AllocatedCell) : Exec ε Bytes := do
  let filePos := hbinFileStart + hbinDataStart + cell.offset
  let size ← negSize cell.alignedSize
  let buf ← copyInto buf filePos (i32Bytes size)
  copyInto buf (filePos + 4) cell.body

/-- Link the root key and the security cell. -/
def linkRoot (buf : Bytes) : Exec ε Bytes := do
  let rootOff ← plan.cellOffset plan.rootId
  let skOff ← plan.cellOffset plan.skId
  let rootCellFile ← plan.cellFile plan.rootId
  let buf ← writeU32 buf (rootCellFile + 4 + nkSecurityOffset) skOff
  let buf ← match plan.lhIds[([] : Str)]? with
    | some lhId => do
      let lhOff ← plan.cellOffset lhId
      let buf ← writeU32 buf (rootCellFile + 4 + nkSubkeysListOffset) lhOff
      writeU32 buf (rootCellFile + 4 + nkSubkeyCountOffset)
        (UInt32.ofNat plan.tree.rootChildren.length)
    | none => .ok buf
  -- the parent of the root is the root
  let buf ← writeU32 buf (rootCellFile + 4 + nkParentOffset) rootOff
  let skCellFile ← plan.cellFile plan.skId
  let buf ← writeU32 buf (skCellFile + 4 + skFlinkOffset) skOff
  writeU32 buf (skCellFile + 4 + skBlinkOffset) skOff

/-- Link one key to its subkey index. -/
def linkSubkeys (nkFile : Nat) (path : Str) (grandchildren : List Str) (buf : Bytes) :
    Exec ε Bytes :=
  if grandchildren ≠ [] then
    match plan.lhIds[path]? with
    | some lhId => do
      let lhOff ← plan.cellOffset lhId
      let buf ← writeU32 buf (nkFile + 4 + nkSubkeysListOffset) lhOff
      writeU32 buf (nkFile + 4 + nkSubkeyCountOffset) (UInt32.ofNat grandchildren.length)
    | none => .ok buf
  else .ok buf

/-- Link one key to its values list. -/
def linkValues (nkFile : Nat) (path : Str) (buf : Bytes) : Exec ε Bytes :=
  match plan.cells.vkMap[path]? with
  | some vkIds =>
    if vkIds ≠ [] then
      match plan.cells.valuesListIds[path]? with
      | some vlId => do
        let vlOff ← plan.cellOffset vlId
        let buf ← writeU32 buf (nkFile + 4 + nkValuesListOffset) vlOff
        writeU32 buf (nkFile + 4 + nkValueCountOffset) (UInt32.ofNat vkIds.length)
      | none => .ok buf
    else .ok buf
  | none => .ok buf

/-- Link the keys below the root; each passes its own offset down as the parent offset. -/
def linkChildren (n : Nat) (children : List Str) (parentPath : Str)
    (parentNkOffset skOffset : UInt32) (buf : Bytes) : Exec ε Bytes :=
  walkChildren plan.tree (fun path _ grandchildren parentNkOffset buf => do
    let nkId ← indexMap plan.nkIds path
    let nkFile ← plan.cellFile nkId
    let buf ← writeU32 buf (nkFile + 4 + nkParentOffset) parentNkOffset
    let buf ← writeU32 buf (nkFile + 4 + nkSecurityOffset) skOffset
    let buf ← plan.linkSubkeys nkFile path grandchildren buf
    let buf ← plan.linkValues nkFile path buf
    let childNkOffset ← plan.cellOffset nkId
    .ok (childNkOffset, buf)) n children parentPath parentNkOffset buf

/-- Fill in one element of an `lh` cell. -/
def fillElement (elementsStart : Nat) (parentPath : Str) (buf : Bytes) (element : Str × Nat) :
    Exec ε Bytes := do
  let (childName, i) := element
  let nkId ← indexMap plan.nkIds (fullPath parentPath childName)
  let nkOff ← plan.cellOffset nkId
  let hash := lhHash childName
  let elemPos := elementsStart + i * 8
  let buf ← writeU32 buf elemPos nkOff
  writeU32 buf (elemPos + 4) hash

/-- Fill in the elements of an `lh` cell. -/
def fillLh (lhId : CellId) (children : List Str) (parentPath : Str) (buf : Bytes) :
    Exec ε Bytes := do
  let lhFile ← plan.cellFile lhId
  let elementsStart := lhFile + 4 + 4
  children.zipIdx.foldlM (plan.fillElement elementsStart parentPath) buf

/-- Fill in the `lh` cells below the root. -/
def fillLhRecursive (n : Nat) (children : List Str) (parentPath : Str) (buf : Bytes) :
    Exec ε Bytes :=
  walkChildren plan.tree (fun path _ grandchildren above buf =>
    if grandchildren ≠ [] then
      match plan.lhIds[path]? with
      | some lhId => do
        let buf ← plan.fillLh lhId grandchildren path buf
        .ok (above, buf)
      | none => .ok (above, buf)
    else .ok (above, buf)) n children parentPath () buf

/-- Write the offsets of some cells one after the other. -/
def writeOffsets (start : Nat) (ids : List CellId) (buf : Bytes) : Exec ε Bytes :=
  ids.zipIdx.foldlM (fun buf (id, i) => do
    let off ← plan.cellOffset id
    writeU32 buf (start + i * 4) off) buf

/-- Fill in the values list of one key. -/
def fillValuesList (buf : Bytes) (entry : Str × List CellId) : Exec ε Bytes :=
  let (keyPath, vkIds) := entry
  match plan.cells.valuesListIds[keyPath]? with
  | some vlId => do
    let vlFile ← plan.cellFile vlId
    plan.writeOffsets (vlFile + 4) vkIds buf
  | none => .ok buf

/-- Fill in the data offset of one value that is not resident. -/
def linkData (buf : Bytes) (entry : CellId × CellId) : Exec ε Bytes := do
  let (vkId, dataId) := entry
  let vkFile ← plan.cellFile vkId
  let dataOff ← plan.cellOffset dataId
  writeU32 buf (vkFile + 4 + vkDataOffsetOffset) dataOff

/-- Link one `db` cell to its segment list, and the list to the segments. -/
def linkBigData (buf : Bytes) (entry : CellId × CellId × List CellId) : Exec ε Bytes := do
  let (dbId, listId, segIds) := entry
  let dbFile ← plan.cellFile dbId
  let listOff ← plan.cellOffset listId
  let buf ← writeU32 buf (dbFile + 4 + 4) listOff
  let listFile ← plan.cellFile listId
  plan.writeOffsets (listFile + 4) segIds buf

/-- Write one resident value into its `vk` cell. -/
def writeResident (vkIds : List CellId) (buf : Bytes) (entry : TreeValue × Nat) :
    Exec ε Bytes := do
  let (v, i) := entry
  if v.data.length ≤ 4 then do
    let vkId ← indexList vkIds i
    let vkFile ← plan.cellFile vkId
    let residentSize := UInt32.ofNat v.data.length ||| 0x80000000
    let buf ← writeU32 buf (vkFile + 4 + vkDataSizeOffset) residentSize
    copyInto buf (vkFile + 4 + vkDataOffsetOffset) v.data
  else .ok buf

/-- Write the resident values of one key. -/
def writeResidents (buf : Bytes) (entry : Str × List TreeValue) : Exec ε Bytes :=
  let (keyPath, vals) := entry
  match plan.cells.vkMap[keyPath]? with
  | some vkIds => vals.zipIdx.foldlM (plan.writeResident vkIds) buf
  | none => .ok buf

/-- Link the cells. -/
def link (n : Nat) (buf : Bytes) : Exec ε Bytes := do
  let buf ← plan.linkRoot buf
  let rootOff ← plan.cellOffset plan.rootId
  let skOff ← plan.cellOffset plan.skId
  let buf ← plan.linkChildren n plan.tree.rootChildren [] rootOff skOff buf
  let buf ← match plan.lhIds[([] : Str)]? with
    | some lhId => plan.fillLh lhId plan.tree.rootChildren [] buf
    | none => .ok buf
  let buf ← plan.fillLhRecursive n plan.tree.rootChildren [] buf
  let buf ← plan.cells.vkMap.toList.foldlM plan.fillValuesList buf
  let buf ← plan.cells.dataCellIds.toList.foldlM plan.linkData buf
  let buf ← plan.cells.bigDataLinks.foldlM plan.linkBigData buf
  plan.tree.values.toList.foldlM plan.writeResidents buf

/-- A free cell for the rest of the bin, when there is room for one. -/
def writeFreeCell (buf : Bytes) : Exec ε Bytes :=
  if plan.freeSize ≥ 8 then
    copyInto buf (hbinFileStart + plan.hbinContent) (i32Bytes (asI32 (plan.freeSize % 2 ^ 32)))
  else .ok buf

/-- The bin header. -/
def writeBinHeader (buf : Bytes) : Exec ε Bytes := do
  let buf ← copyInto buf hbinFileStart [0x68, 0x62, 0x69, 0x6E]
  let buf ← writeU32 buf (hbinFileStart + 4) 0
  writeU32 buf (hbinFileStart + 8) (UInt32.ofNat plan.hbinSize)

/-- The base block, with its checksum. -/
def writeBaseBlock (buf : Bytes) : Exec ε Bytes := do
  let rootCellOff ← plan.cellOffset plan.rootId
  let buf ← copyInto buf 0 [0x72, 0x65, 0x67, 0x66]
  let buf ← writeU32 buf 0x04 1
  let buf ← writeU32 buf 0x08 1
  let buf ← writeU32 buf 0x14 1
  let buf ← writeU32 buf 0x18 5
  let buf ← writeU32 buf 0x20 1
  let buf ← writeU32 buf 0x24 rootCellOff
  let buf ← writeU32 buf 0x28 (UInt32.ofNat plan.hbinSize)
  let buf ← writeU32 buf 0x2C 1
  let checksum := BaseBlock.computeChecksum buf
  writeU32 buf 0x1FC checksum

/-- Write the cells, link them, and write the headers. -/
def write (n : Nat) : Exec ε Bytes := do
  let buf := List.replicate plan.totalFileSize 0
  let buf ← plan.alloc.cells.foldlM writeCell buf
  let buf ← plan.link n buf
  let buf ← plan.writeFreeCell buf
  let buf ← plan.writeBinHeader buf
  plan.writeBaseBlock buf

end Write

end Plan

/-- Produce a hive byte vector. -/
def TestHiveBuilder.build {ε : Type} (n : Nat) (b : TestHiveBuilder) : Exec ε Bytes := do
  let plan ← b.plan n
  plan.write n

end Winreg.TestUtil
