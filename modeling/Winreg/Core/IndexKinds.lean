/-
  THE FOUR INDEX KINDS are interchangeable.

  A key may list its subkeys in one `lf`, `lh` or `li` cell, or in a tree of `ri` cells over such
  leaves.  The cells differ in signature, in the width of their elements and in what an element
  holds besides an offset; the listing reads the offsets only.

  1. **Cells** — an index cell reads back as the index laid out in it, whatever pads it
     (`dispatchCell_index`).
  2. **Trees** — `IndexTree r off L`: below `off` there is a finite tree of laid-out index cells
     that flattens to `L`; the walk lists `L` (`IndexTree.lists`).
  3. **Subkeys** — so they are the keys at `L`, for every tree (`subkeys_of_indexTree`).
-/
import Winreg.Core.Tree
import Winreg.Format.Records

namespace Winreg

open Rust

/-! ## Cells -/

/-- **An index cell** is dispatched to the parser of its kind, which reads the index back. -/
theorem dispatchCell_index {idx : SubkeyIndex} (h : idx.Fits) (padding : Bytes)
    (off : CellOffset) : dispatchCell off (idx.toBytes ++ padding) = .ok (.index idx) := by
  cases idx with
  | fastLeaf elements =>
    have hsig : CellSignature.fromBytes 0x6C 0x66 = some .fastLeaf := by decide
    rw [SubkeyIndex.toBytes, List.cons_append, List.cons_append, List.append_assoc]
    unfold dispatchCell
    dsimp only
    rw [hsig]
    dsimp only
    rw [SubkeyIndex.parseLf_eq_some padding h.1 h.2, parsedCell]
  | hashLeaf elements =>
    rw [SubkeyIndex.toBytes, List.cons_append, List.cons_append, List.append_assoc]
    exact dispatchCell_hashLeaf (SubkeyIndex.parseLh_eq_some padding h) off
  | indexLeaf offsets =>
    have hsig : CellSignature.fromBytes 0x6C 0x69 = some .indexLeaf := by decide
    rw [SubkeyIndex.toBytes, List.cons_append, List.cons_append, List.append_assoc]
    unfold dispatchCell
    dsimp only
    rw [hsig]
    dsimp only
    rw [SubkeyIndex.parseLi, SubkeyIndex.parseOffsets_eq_some padding h, Option.map_some,
      parsedCell]
  | rootIndex offsets =>
    have hsig : CellSignature.fromBytes 0x72 0x69 = some .rootIndex := by decide
    rw [SubkeyIndex.toBytes, List.cons_append, List.cons_append, List.append_assoc]
    unfold dispatchCell
    dsimp only
    rw [hsig]
    dsimp only
    rw [SubkeyIndex.parseRi, SubkeyIndex.parseOffsets_eq_some padding h, Option.map_some,
      parsedCell]

/-- The cell at an offset is an index cell that holds this index, with any padding behind it. -/
structure IndexCellAt (r : CellReader) (off : CellOffset) (idx : SubkeyIndex) : Prop where
  fits : idx.Fits
  read : ∃ hdr padding, r.readCellRaw off = .ok (hdr, idx.toBytes ++ padding)

/-- An index cell is parsed as the index it spells. -/
theorem IndexCellAt.readCell_eq {r : CellReader} {off : CellOffset} {idx : SubkeyIndex}
    (h : IndexCellAt r off idx) : r.readCell off = .ok (.index idx) := by
  obtain ⟨hdr, padding, hread⟩ := h.read
  rw [CellReader.readCell, hread, Exec.ok_bind]
  exact dispatchCell_index h.fits padding off

/-! ## Trees -/

mutual

/-- Below an offset there is a finite tree of index cells, with `ri` cells inside and `lf`, `lh` or
    `li` cells as leaves, that flattens to these offsets. -/
inductive IndexTree (r : CellReader) : CellOffset → List CellOffset → Prop where
  | leaf {off : CellOffset} {idx : SubkeyIndex} {offsets : List CellOffset}
      (cell : IndexCellAt r off idx) (lists : (Cell.index idx).leafOffsets = some offsets) :
      IndexTree r off offsets
  | inner {off : CellOffset} {subs offsets : List CellOffset}
      (cell : IndexCellAt r off (.rootIndex subs)) (all : IndexTrees r subs offsets) :
      IndexTree r off offsets

/-- The same for the subtrees of an `ri` cell, from left to right. -/
inductive IndexTrees (r : CellReader) : List CellOffset → List CellOffset → Prop where
  | nil : IndexTrees r [] []
  | cons {sub : CellOffset} {subs offsets more : List CellOffset} (head : IndexTree r sub offsets)
      (tail : IndexTrees r subs more) : IndexTrees r (sub :: subs) (offsets ++ more)

end

mutual

/-- **The walk flattens the tree.** -/
theorem IndexTree.lists {r : CellReader} {off : CellOffset} {offsets : List CellOffset} :
    IndexTree r off offsets → Lists r off offsets
  | .leaf cell lists => .leaf cell.readCell_eq lists
  | .inner cell all => .root cell.readCell_eq all.listsAll

/-- A list of index trees lists the keys of all of them, in order. -/
theorem IndexTrees.listsAll {r : CellReader} {subs offsets : List CellOffset} :
    IndexTrees r subs offsets → ListsAll r subs offsets
  | .nil => .nil
  | .cons head tail => .cons head.lists tail.listsAll

end

/-! ## Subkeys -/

/-- Keys can be read at these offsets. -/
def KeysAt (r : CellReader) (offsets : List CellOffset) : Prop :=
  ∀ off ∈ offsets, ∃ nk, r.readCell off = .ok (.keyNode nk)

/-- The subkeys of a key are the keys at these offsets, one for each of them and in their order. -/
def HasSubkeysAt (r : CellReader) (key : Key) (offsets : List CellOffset) : Prop :=
  ∃ kids, kids.map Key.offset = offsets ∧ (∀ kid ∈ kids, kid.AtOffset r) ∧
    Exec.Evals (fun n => key.subkeys r n) (.ok kids)

/-- The keys at some offsets. -/
theorem KeysAt.exists_keys {r : CellReader} : ∀ {offsets : List CellOffset}, KeysAt r offsets →
    ∃ kids : List Key, kids.map Key.offset = offsets ∧ ∀ kid ∈ kids, kid.AtOffset r
  | [], _ => ⟨[], rfl, fun kid hkid => absurd hkid List.not_mem_nil⟩
  | off :: offsets, h => by
    obtain ⟨nk, hread⟩ := h off List.mem_cons_self
    obtain ⟨kids, rfl, hkids⟩ := KeysAt.exists_keys fun o ho => h o (List.mem_cons_of_mem off ho)
    exact ⟨⟨nk, off⟩ :: kids, rfl, List.forall_mem_cons.mpr ⟨hread, hkids⟩⟩

/-- A tree of index cells and keys at what it flattens to give the subkeys. -/
theorem IndexTree.hasSubkeysAt {r : CellReader} {key : Key} {offsets : List CellOffset}
    (htree : IndexTree r key.node.subkeysListOffset offsets) (hkey : key.ListsSubkeys)
    (hkeys : KeysAt r offsets) : HasSubkeysAt r key offsets := by
  obtain ⟨kids, rfl, hkids⟩ := hkeys.exists_keys
  refine ⟨kids, rfl, hkids, subkeys_of_listed hkey htree.lists ?_⟩
  rw [List.forall₂_map_left_iff, List.forall₂_same]
  exact fun kid hkid => ⟨rfl, hkids kid hkid⟩

/-- The root of a tree in a hive file is not at the null offset. -/
theorem IndexTree.isNull_eq_false {hive : Hive} {off : CellOffset} {offsets : List CellOffset}
    (h : IndexTree hive.reader off offsets) : off.isNull = false := by
  cases h with
  | leaf cell _ =>
    obtain ⟨hdr, padding, hread⟩ := cell.read
    exact (Hive.readsCell_of_readCellRaw hread).not_null
  | inner cell _ =>
    obtain ⟨hdr, padding, hread⟩ := cell.read
    exact (Hive.readsCell_of_readCellRaw hread).not_null

/-- **Index kinds are interchangeable.**  The subkeys of a key whose index is a tree of index cells
    are the keys that the tree flattens to, whatever the kinds of the cells; in a hive file, and on
    any other backend unless the tree is at the null offset, which lists nothing.  By induction on
    the tree, all kinds of leaves give the offsets they list, and a root index gives those of its
    entries in order. -/
theorem subkeys_of_indexTree {key : Key} {offsets : List CellOffset}
    (hcount : key.node.subkeyCount ≠ 0) :
    (∀ hive : Hive, IndexTree hive.reader key.node.subkeysListOffset offsets →
      KeysAt hive.reader offsets → HasSubkeysAt hive.reader key offsets) ∧
    ∀ r : CellReader, key.node.subkeysListOffset.isNull = false →
      IndexTree r key.node.subkeysListOffset offsets → KeysAt r offsets →
        HasSubkeysAt r key offsets :=
  ⟨fun _ htree hkeys => htree.hasSubkeysAt ⟨hcount, htree.isNull_eq_false⟩ hkeys,
    fun _ hnull htree hkeys => htree.hasSubkeysAt ⟨hcount, hnull⟩ hkeys⟩

/-- A root with three subkeys, under an `ri` cell over an `li`, an `lf` and an `lh` cell. -/
def mixedRoot : Key := ⟨nkRecord ⟨0x24⟩ 3 112 0 0xFFFFFFFF [], ⟨32⟩⟩

/-- One of its subkeys. -/
def mixedKey (name : UInt8) : RawKeyNode := nkRecord ⟨0x20⟩ 0 0xFFFFFFFF 0 0xFFFFFFFF [name]

/-- The cells of a root whose index mixes the kinds of leaves. -/
def mixedBodies : List Bytes :=
  [mixedRoot.node.toBytes,
    (SubkeyIndex.rootIndex [⟨136⟩, ⟨152⟩, ⟨168⟩]).toBytes ++ [1, 2, 3, 4],
    (SubkeyIndex.indexLeaf [⟨184⟩]).toBytes ++ [0, 0, 0, 0],
    (SubkeyIndex.fastLeaf [⟨⟨272⟩, [0x62, 0, 0, 0]⟩]).toBytes,
    (SubkeyIndex.hashLeaf [⟨⟨360⟩, 7⟩]).toBytes,
    (mixedKey 0x61).toBytes ++ List.replicate 7 0,
    (mixedKey 0x62).toBytes ++ List.replicate 7 0,
    (mixedKey 0x63).toBytes ++ List.replicate 7 0]

/-- A hive with these cells. -/
def mixedHive : Hive := oneBinHive 32 (allocatedCells mixedBodies)

/-- The cells fit into the bin. -/
theorem length_mixedCells : (allocatedCells mixedBodies).length ≤ 4064 := by decide +kernel

/-- The index cell and its leaves form a tree over three keys. -/
theorem mixed_indexTree : IndexTree mixedHive.reader ⟨112⟩ [⟨184⟩, ⟨272⟩, ⟨360⟩] := by
  have hcell : ∀ (off : UInt32) (idx : SubkeyIndex) (padding : Bytes) (i : Nat), idx.Fits →
      mixedBodies[i]? = some (idx.toBytes ++ padding) →
      off.toNat = 32 + (allocatedCells (mixedBodies.take i)).length →
      IndexCellAt mixedHive.reader ⟨off⟩ idx := fun off idx padding i hfits hbody hoff =>
    ⟨hfits, _, _, Hive.readCellRaw_allocatedCells 32 i length_mixedCells hbody hoff⟩
  have hri : IndexCellAt mixedHive.reader ⟨112⟩ (.rootIndex [⟨136⟩, ⟨152⟩, ⟨168⟩]) :=
    hcell _ _ [1, 2, 3, 4] 1 (by decide) rfl (by decide)
  have hli : IndexCellAt mixedHive.reader ⟨136⟩ (.indexLeaf [⟨184⟩]) :=
    hcell _ _ [0, 0, 0, 0] 2 (by decide) rfl (by decide)
  have hlf : IndexCellAt mixedHive.reader ⟨152⟩ (.fastLeaf [⟨⟨272⟩, [0x62, 0, 0, 0]⟩]) :=
    hcell _ _ [] 3 (by decide) rfl (by decide +kernel)
  have hlh : IndexCellAt mixedHive.reader ⟨168⟩ (.hashLeaf [⟨⟨360⟩, 7⟩]) :=
    hcell _ _ [] 4 (by decide) rfl (by decide +kernel)
  exact .inner hri (.cons (.leaf hli rfl) (.cons (.leaf hlf rfl) (.cons (.leaf hlh rfl) .nil)))

/-- At the listed offsets there are keys. -/
theorem mixed_keysAt : KeysAt mixedHive.reader [⟨184⟩, ⟨272⟩, ⟨360⟩] := by
  have hflags : KeyFlags.fromBitsTruncate 0x20 = ⟨0x20⟩ := by decide
  have hcell : ∀ (off : UInt32) (name : UInt8) (i : Nat),
      mixedBodies[i]? = some ((mixedKey name).toBytes ++ List.replicate 7 0) →
      off.toNat = 32 + (allocatedCells (mixedBodies.take i)).length →
      ∃ nk, mixedHive.reader.readCell ⟨off⟩ = .ok (.keyNode nk) := fun off name i hbody hoff =>
    ⟨mixedKey name, Hive.readCell_allocatedCells 32 i length_mixedCells hbody hoff
      (dispatchCell_keyNode (RawKeyNode.parse_fieldBytes _ hflags rfl) _)⟩
  intro off hoff
  simp only [List.mem_cons, List.not_mem_nil, or_false] at hoff
  rcases hoff with rfl | rfl | rfl
  · exact hcell _ 0x61 5 rfl (by decide +kernel)
  · exact hcell _ 0x62 6 rfl (by decide +kernel)
  · exact hcell _ 0x63 7 rfl (by decide +kernel)

/-- The three keys are listed in the order of the leaves. -/
theorem subkeys_of_indexTree_mixed :
    HasSubkeysAt mixedHive.reader mixedRoot [⟨184⟩, ⟨272⟩, ⟨360⟩] :=
  (@subkeys_of_indexTree mixedRoot _ (by decide)).1 mixedHive mixed_indexTree mixed_keysAt

end Winreg
