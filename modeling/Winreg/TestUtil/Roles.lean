/-
  ROLES: what the cells of a built hive are for.

  Every cell has a role: the security cell, the root, the key at a path, the index of a path, the
  values list of a key, and for each value its `vk` and the cells of its data.  `roles` lists them
  in the order in which the first pass allocates them.  No role is given to two cells
  (`nodup_roles`), so the id of a cell is the position of its role (`idOf`); which roles have a
  cell is read off the tree (`mem_roles`).
-/
import Winreg.TestUtil.Paths

namespace Winreg.TestUtil

open Rust

/-! ## Roles -/

/-- A value of a key: the string of the key, its index and the value. -/
structure Item where
  key : Str
  index : Nat
  value : TreeValue
deriving DecidableEq, Repr

/-- What a cell is for. -/
inductive Role where
  | sk
  | root
  | nk (p : Path)
  | lh (p : Path)
  | valuesList (key : Str)
  | vk (x : Item)
  | data (x : Item)
  | segment (x : Item) (k : Nat)
  | segmentList (x : Item)
  | bigData (x : Item)
deriving DecidableEq, Repr

namespace Item

/-- The data is in the `vk` itself. -/
def IsResident (x : Item) : Prop := x.value.data.length ≤ 4

/-- The data is stored as a `db` record. -/
def IsBig (x : Item) : Prop := bigDataThreshold < x.value.data.length

instance (x : Item) : Decidable x.IsResident := inferInstanceAs (Decidable (_ ≤ _))
instance (x : Item) : Decidable x.IsBig := inferInstanceAs (Decidable (_ < _))

/-- Data in segments is not resident. -/
theorem IsBig.not_resident {x : Item} (h : x.IsBig) : ¬ x.IsResident := fun hr => by
  have h : 16344 < x.value.data.length := h
  have hr : x.value.data.length ≤ 4 := hr
  omega

/-- Number of segments of a big value. -/
def segmentCount (x : Item) : Nat := (chunks bigDataSegmentSize x.value.data).length

/-- The number of segments, rounded up. -/
theorem segmentCount_eq (x : Item) : x.segmentCount =
    (x.value.data.length + bigDataSegmentSize - 1) / bigDataSegmentSize := by
  unfold segmentCount chunks
  rw [List.length_map, List.length_range]

/-- The number of segments fits into its field. -/
theorem segmentCount_lt {x : Item} (h : x.value.data.length ≤ 65535 * 16344) :
    x.segmentCount < 65536 := by
  have hcount : x.segmentCount = (x.value.data.length + 16344 - 1) / 16344 := x.segmentCount_eq
  omega

/-- The cells for the data of a value. -/
def dataRoles (x : Item) : List Role :=
  if x.IsBig then
    (List.range x.segmentCount).map (Role.segment x) ++ [.segmentList x, .bigData x]
  else if x.IsResident then [] else [.data x]

/-- The cells of a value. -/
def roles (x : Item) : List Role := .vk x :: x.dataRoles

/-- The cell that the `vk` of a value that is not resident refers to. -/
def dataHead (x : Item) : Role := if x.IsBig then .bigData x else .data x

end Item

/-- The values of one key. -/
def itemsOf (e : Str × List TreeValue) : List Item :=
  e.2.zipIdx.map fun (v, i) => ⟨e.1, i, v⟩

/-- The cells for the values of one key. -/
def keyRoles (e : Str × List TreeValue) : List Role :=
  (itemsOf e).flatMap Item.roles ++ [.valuesList e.1]

namespace TestHiveBuilder

variable (b : TestHiveBuilder)

/-- The tree that the builder makes of its paths. -/
def keyTree : KeyTree := KeyTree.fromPaths b.keys b.values

/-- The entries of the values map, in the order of its keys. -/
def entries : List (Str × List TreeValue) := b.keyTree.values.toList

/-- The values that the values map holds for a key. -/
def valuesOf (key : Str) : List TreeValue := (b.keyTree.values[key]?).getD []

/-- All values. -/
def items : List Item := b.entries.flatMap itemsOf

/-- The paths below the root that have an index. -/
def parents : List Path := (order b).filter fun p => b.childNames p ≠ []

/-- The index of the root, when it has children. -/
def rootIndex : List Role := if b.childNames [] ≠ [] then [.lh []] else []

/-- **The cells**, in the order of allocation. -/
def roles : List Role :=
  [.sk, .root] ++ ((order b).map .nk ++ (b.entries.flatMap keyRoles ++
    (b.rootIndex ++ b.parents.map .lh)))

/-- The body that is allocated for a role. -/
def initial : Role → Bytes
  | .sk => Allocator.skBody minimalSd
  | .root => Allocator.nkBody b.keyFiletime rootName true
  | .nk p => Allocator.nkBody b.keyFiletime (asBytes (p.getLast?.getD [])) false
  | .lh p => Allocator.lhBody (b.childNames p).length
  | .valuesList key => List.replicate ((b.valuesOf key).length * 4) 0
  | .vk x => Allocator.vkBody (asBytes x.value.name) x.value.dataType
      (UInt32.ofNat x.value.data.length)
  | .data x => x.value.data
  | .segment x k => bytesAt x.value.data (k * bigDataSegmentSize) bigDataSegmentSize
  | .segmentList x => List.replicate (x.segmentCount * 4) 0
  | .bigData x => Allocator.dbBody x.segmentCount

/-- The id of the cell with a role. -/
def idOf (r : Role) : CellId := b.roles.idxOf r

end TestHiveBuilder

section Roles

variable {b : TestHiveBuilder}

/-- The entries are the values of the tree, path by path. -/
theorem mem_entries {e : Str × List TreeValue} :
    e ∈ b.entries ↔ b.keyTree.values[e.1]? = some e.2 :=
  Std.TreeMap.mem_toList_iff_getElem?_eq_some

/-- Each path has one entry. -/
theorem nodup_entries (b : TestHiveBuilder) : (b.entries.map Prod.fst).Nodup :=
  BTreeMap.nodup_keys_toList _

/-- An entry is determined by its key. -/
theorem entry_unique {e f : Str × List TreeValue} (he : e ∈ b.entries) (hf : f ∈ b.entries)
    (h : e.1 = f.1) : e = f := by
  have hvals : some e.2 = some f.2 := by
    rw [← mem_entries.mp he, ← mem_entries.mp hf, h]
  exact Prod.ext h (Option.some.inj hvals)

/-- An entry holds the values of its path. -/
theorem valuesOf_of_mem {e : Str × List TreeValue} (he : e ∈ b.entries) :
    b.valuesOf e.1 = e.2 := by
  unfold TestHiveBuilder.valuesOf
  rw [mem_entries.mp he, Option.getD_some]

/-- An item is a value of its entry, with its index. -/
theorem mem_itemsOf {e : Str × List TreeValue} {x : Item} :
    x ∈ itemsOf e ↔ x.key = e.1 ∧ e.2[x.index]? = some x.value := by
  unfold itemsOf
  rw [List.mem_map]
  constructor
  · rintro ⟨⟨v, i⟩, hmem, rfl⟩
    exact ⟨rfl, List.mem_zipIdx_iff_getElem?.mp hmem⟩
  · rintro ⟨hkey, hget⟩
    exact ⟨(x.value, x.index), List.mem_zipIdx_iff_getElem?.mpr hget, by rw [← hkey]⟩

/-- A value of a key stands at its index. -/
theorem getElem?_itemsOf {e : Str × List TreeValue} {x : Item} (hx : x ∈ itemsOf e) :
    (itemsOf e)[x.index]? = some x := by
  obtain ⟨hkey, hget⟩ := mem_itemsOf.mp hx
  unfold itemsOf
  rw [List.getElem?_map, List.getElem?_zipIdx, hget, ← hkey]
  simp

/-- The values are what the values map holds. -/
theorem mem_items {x : Item} : x ∈ b.items ↔ (b.valuesOf x.key)[x.index]? = some x.value := by
  unfold TestHiveBuilder.items
  rw [List.mem_flatMap]
  constructor
  · rintro ⟨e, he, hx⟩
    obtain ⟨hkey, hget⟩ := mem_itemsOf.mp hx
    rw [hkey, valuesOf_of_mem he]
    exact hget
  · intro h
    cases hvals : b.keyTree.values[x.key]? with
    | none =>
      unfold TestHiveBuilder.valuesOf at h
      rw [hvals] at h
      cases h
    | some vals =>
      have he : (x.key, vals) ∈ b.entries := mem_entries.mpr hvals
      rw [valuesOf_of_mem he] at h
      exact ⟨(x.key, vals), he, mem_itemsOf.mpr ⟨rfl, h⟩⟩

/-- The key of a value that a role belongs to. -/
def Role.key? : Role → Option Str
  | .valuesList key => some key
  | .vk x | .data x | .segment x _ | .segmentList x | .bigData x => some x.key
  | _ => none

/-- The value that a role belongs to. -/
def Role.item? : Role → Option Item
  | .vk x | .data x | .segment x _ | .segmentList x | .bigData x => some x
  | _ => none

/-- The role of a value's cell tells the value. -/
theorem item?_of_mem_roles {x : Item} {r : Role} (h : r ∈ x.roles) : r.item? = some x := by
  unfold Item.roles Item.dataRoles at h
  rcases List.mem_cons.mp h with rfl | h
  · rfl
  · split at h
    · rcases List.mem_append.mp h with h | h
      · obtain ⟨k, _, rfl⟩ := List.mem_map.mp h
        rfl
      · rcases List.mem_cons.mp h with rfl | h
        · rfl
        · rw [List.mem_singleton.mp h]; rfl
    · split at h
      · exact absurd h List.not_mem_nil
      · rw [List.mem_singleton.mp h]; rfl

/-- The role of a key's list tells the key. -/
theorem key?_of_mem_keyRoles {e : Str × List TreeValue} {r : Role} (h : r ∈ keyRoles e) :
    r.key? = some e.1 := by
  rcases List.mem_append.mp h with h | h
  · obtain ⟨x, hx, hr⟩ := List.mem_flatMap.mp h
    have hitem := item?_of_mem_roles hr
    rw [← (mem_itemsOf.mp hx).1]
    cases r <;> first | cases hitem; rfl | cases hitem
  · rw [List.mem_singleton.mp h]; rfl

/-- The cells of a value have different roles. -/
theorem nodup_itemRoles (x : Item) : x.roles.Nodup := by
  have hdata : x.dataRoles.Nodup ∧ Role.vk x ∉ x.dataRoles := by
    unfold Item.dataRoles
    split
    · refine ⟨List.nodup_append.mpr ⟨?_, by simp, ?_⟩, by simp⟩
      · exact (List.nodup_range).map fun i j hij => by cases hij; rfl
      · intro r hr s hs heq
        obtain ⟨k, _, rfl⟩ := List.mem_map.mp hr
        subst heq
        simp at hs
    · split <;> simp
  exact List.nodup_cons.mpr ⟨hdata.2, hdata.1⟩

/-- Two values of a key have different indices. -/
theorem nodup_itemsOf (e : Str × List TreeValue) : (itemsOf e).Nodup := by
  unfold itemsOf
  refine (List.Nodup.of_map Prod.snd ?_).map fun p q hpq => ?_
  · rw [List.zipIdx_map_snd]
    exact List.nodup_range'
  · injection hpq with _ hi hv
    exact Prod.ext hv hi

/-- **No value is listed twice.** -/
theorem nodup_items (b : TestHiveBuilder) : b.items.Nodup := by
  refine List.nodup_flatMap.mpr ⟨fun e _ => nodup_itemsOf e, ?_⟩
  refine (List.pairwise_map.mp (nodup_entries b)).imp fun {e f} hef x hxe hxf => hef ?_
  exact (mem_itemsOf.mp hxe).1.symm.trans (mem_itemsOf.mp hxf).1

/-- So have the cells of the values of a key. -/
theorem nodup_keyRoles (e : Str × List TreeValue) : (keyRoles e).Nodup := by
  unfold keyRoles
  refine List.nodup_append.mpr ⟨List.nodup_flatMap.mpr ⟨fun x _ => nodup_itemRoles x, ?_⟩,
    List.nodup_singleton _, ?_⟩
  · refine (nodup_itemsOf e).imp fun {x y} hxy r hrx hry => hxy ?_
    have hx := item?_of_mem_roles hrx
    have hy := item?_of_mem_roles hry
    exact Option.some.inj (hx.symm.trans hy)
  · intro r hr s hs heq
    obtain ⟨x, _, hrx⟩ := List.mem_flatMap.mp hr
    have hitem := item?_of_mem_roles hrx
    rw [heq, List.mem_singleton.mp hs] at hitem
    cases hitem

/-- **No role is given twice.** -/
theorem nodup_roles (b : TestHiveBuilder) : b.roles.Nodup := by
  have hnk : ((order b).map Role.nk).Nodup := (nodup_order b).map fun p q hpq => by
    cases hpq; rfl
  have hentries : (b.entries.flatMap keyRoles).Nodup := by
    refine List.nodup_flatMap.mpr ⟨fun e _ => nodup_keyRoles e, ?_⟩
    refine (List.pairwise_map.mp (nodup_entries b)).imp fun {e f} hef r hre hrf => hef ?_
    exact Option.some.inj ((key?_of_mem_keyRoles hre).symm.trans (key?_of_mem_keyRoles hrf))
  have hparents : (b.parents.map Role.lh).Nodup :=
    ((nodup_order b).filter _).map fun p q hpq => by cases hpq; rfl
  have hindex : (b.rootIndex ++ b.parents.map Role.lh).Nodup := by
    refine List.nodup_append.mpr ⟨?_, hparents, ?_⟩
    · unfold TestHiveBuilder.rootIndex
      split <;> simp
    · intro r hr s hs heq
      unfold TestHiveBuilder.rootIndex at hr
      split at hr
      · obtain ⟨p, hp, rfl⟩ := List.mem_map.mp hs
        rw [List.mem_singleton.mp hr] at heq
        cases heq
        -- the root is not a path of the closure
        exact (mem_closure.mp (mem_order.mp (List.mem_filter.mp hp).1)).1 rfl
      · exact List.not_mem_nil hr
  -- roles of different stretches differ in kind
  have hkey : ∀ r ∈ b.entries.flatMap keyRoles, ∃ key, r.key? = some key := fun r hr => by
    obtain ⟨e, _, hre⟩ := List.mem_flatMap.mp hr
    exact ⟨e.1, key?_of_mem_keyRoles hre⟩
  have hlh : ∀ r ∈ b.rootIndex ++ b.parents.map Role.lh, ∃ p, r = .lh p := fun r hr => by
    rcases List.mem_append.mp hr with h | h
    · unfold TestHiveBuilder.rootIndex at h
      split at h
      · exact ⟨[], List.mem_singleton.mp h⟩
      · exact absurd h List.not_mem_nil
    · obtain ⟨p, _, rfl⟩ := List.mem_map.mp h
      exact ⟨p, rfl⟩
  unfold TestHiveBuilder.roles
  refine List.nodup_append.mpr ⟨by simp, List.nodup_append.mpr ⟨hnk, List.nodup_append.mpr
    ⟨hentries, hindex, ?_⟩, ?_⟩, ?_⟩
  · intro r hr s hs heq
    obtain ⟨key, hkey⟩ := hkey r hr
    obtain ⟨p, rfl⟩ := hlh s hs
    rw [heq] at hkey
    cases hkey
  · intro r hr s hs heq
    obtain ⟨p, _, rfl⟩ := List.mem_map.mp hr
    rcases List.mem_append.mp hs with h | h
    · obtain ⟨key, hkey⟩ := hkey s h
      rw [← heq] at hkey
      cases hkey
    · obtain ⟨q, rfl⟩ := hlh s h
      cases heq
  · intro r hr s hs heq
    subst heq
    rcases List.mem_append.mp hs with h | h
    · obtain ⟨p, _, rfl⟩ := List.mem_map.mp h
      simp at hr
    · rcases List.mem_append.mp h with h | h
      · obtain ⟨key, hkey⟩ := hkey r h
        rcases List.mem_cons.mp hr with rfl | hr
        · cases hkey
        · rw [List.mem_singleton.mp hr] at hkey
          cases hkey
      · obtain ⟨q, rfl⟩ := hlh r h
        simp at hr

/-- When a role has a cell. -/
def Role.Allocated (b : TestHiveBuilder) : Role → Prop
  | .sk | .root => True
  | .nk p => p ∈ b.closure
  | .lh p => (p = [] ∨ p ∈ b.closure) ∧ b.childNames p ≠ []
  | .valuesList key => ∃ vals, (key, vals) ∈ b.entries
  | .vk x => x ∈ b.items
  | .data x => x ∈ b.items ∧ ¬ x.IsResident ∧ ¬ x.IsBig
  | .segment x k => x ∈ b.items ∧ x.IsBig ∧ k < x.segmentCount
  | .segmentList x | .bigData x => x ∈ b.items ∧ x.IsBig

/-- The cells of a value: its record, and by the size of its data nothing, one data cell, or the
    segments with their list and record. -/
theorem mem_itemRoles {x : Item} {r : Role} : r ∈ x.roles ↔ r = .vk x ∨
    (¬ x.IsResident ∧ ¬ x.IsBig ∧ r = .data x) ∨
    (x.IsBig ∧ ((∃ k < x.segmentCount, r = .segment x k) ∨ r = .segmentList x ∨
      r = .bigData x)) := by
  unfold Item.roles Item.dataRoles
  rw [List.mem_cons]
  refine or_congr_right ?_
  by_cases hbig : x.IsBig
  · rw [if_pos hbig, List.mem_append, List.mem_map]
    simp only [List.mem_range, List.mem_cons, List.not_mem_nil, or_false, hbig, not_true_eq_false,
      false_and, and_false, true_and, false_or]
    refine or_congr_left ⟨?_, ?_⟩
    · rintro ⟨k, hk, rfl⟩; exact ⟨k, hk, rfl⟩
    · rintro ⟨k, hk, rfl⟩; exact ⟨k, hk, rfl⟩
  · rw [if_neg hbig]
    by_cases hres : x.IsResident
    · simp [hres, hbig]
    · simp [hres, hbig]

/-- **Which roles have a cell.** -/
theorem mem_roles {r : Role} : r ∈ b.roles ↔ r.Allocated b := by
  -- the four parts of the list, in the order in which they are planned
  have hentries : r ∈ b.entries.flatMap keyRoles ↔
      (∃ x ∈ b.items, r ∈ x.roles) ∨ ∃ key vals, (key, vals) ∈ b.entries ∧ r = .valuesList key := by
    unfold TestHiveBuilder.items keyRoles
    rw [List.mem_flatMap]
    constructor
    · rintro ⟨e, he, hr⟩
      rcases List.mem_append.mp hr with hr | hr
      · obtain ⟨x, hx, hrx⟩ := List.mem_flatMap.mp hr
        exact Or.inl ⟨x, List.mem_flatMap.mpr ⟨e, he, hx⟩, hrx⟩
      · exact Or.inr ⟨e.1, e.2, he, List.mem_singleton.mp hr⟩
    · rintro (⟨x, hx, hrx⟩ | ⟨key, vals, he, rfl⟩)
      · obtain ⟨e, he, hxe⟩ := List.mem_flatMap.mp hx
        exact ⟨e, he, List.mem_append_left _ (List.mem_flatMap.mpr ⟨x, hxe, hrx⟩)⟩
      · exact ⟨(key, vals), he, List.mem_append_right _ (List.mem_singleton_self _)⟩
  have hindex : r ∈ b.rootIndex ↔ b.childNames [] ≠ [] ∧ r = .lh [] := by
    unfold TestHiveBuilder.rootIndex
    split <;> simp [*]
  have hparents : r ∈ b.parents.map Role.lh ↔ ∃ p ∈ b.closure, b.childNames p ≠ [] ∧ r = .lh p := by
    unfold TestHiveBuilder.parents
    rw [List.mem_map]
    constructor
    · rintro ⟨p, hp, rfl⟩
      obtain ⟨hmem, hkids⟩ := List.mem_filter.mp hp
      exact ⟨p, mem_order.mp hmem, of_decide_eq_true hkids, rfl⟩
    · rintro ⟨p, hp, hkids, rfl⟩
      exact ⟨p, List.mem_filter.mpr ⟨mem_order.mpr hp, decide_eq_true hkids⟩, rfl⟩
  have hnk : r ∈ (order b).map Role.nk ↔ ∃ p ∈ b.closure, r = .nk p := by
    rw [List.mem_map]
    exact exists_congr fun p => and_congr mem_order eq_comm
  unfold TestHiveBuilder.roles
  rw [List.mem_append, List.mem_append, List.mem_append, List.mem_append, hentries, hindex,
    hparents, hnk]
  simp only [mem_itemRoles]
  cases r <;> simp [Role.Allocated]
  · -- the index of the root stands before the others
    constructor
    · rintro (⟨hkids, rfl⟩ | ⟨hp, hkids⟩)
      · exact ⟨Or.inl rfl, hkids⟩
      · exact ⟨Or.inr hp, hkids⟩
    · rintro ⟨rfl | hp, hkids⟩
      · exact Or.inl ⟨hkids, rfl⟩
      · exact Or.inr ⟨hp, hkids⟩

end Roles

end Winreg.TestUtil
