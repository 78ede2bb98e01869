/-
  KEY TREES: what a hive says, without offsets and cells.

  A `KeyTree` is a key with the names, types and data of its values and with its subkeys, in the
  order in which they are listed.  `Reads r key tree` says that reading `key` through `r`, with
  everything below it, succeeds and gives `tree`: its values are listed and their data is read, its
  subkeys are listed, and each of them reads as the corresponding child.  `Reads` is inductive, so
  what it reads is finite.

  A hive read this way is compared and described by its tree alone.  The last section lists the
  subkeys and the values of a key from the cells that hold them, whatever the kind of its index.
-/
import Winreg.Base.Paired
import Winreg.Core.Iter

namespace Winreg

open Rust

/-- A value: its name, its type and its data. -/
structure RegValue where
  name : Str
  dataType : ValueType
  data : Bytes
deriving DecidableEq, Repr

/-- A key with its values and everything below it. -/
inductive KeyTree where
  | node (name : Str) (values : List RegValue) (children : List KeyTree)

/-- The name of a value with ASCII case folded. -/
def RegValue.foldedName (v : RegValue) : Str := toAsciiUppercase v.name

namespace KeyTree

/-- The name of the root of a tree. -/
def name : KeyTree → Str
  | node name _ _ => name

/-- Its values. -/
def values : KeyTree → List RegValue
  | node _ values _ => values

/-- The trees below it. -/
def children : KeyTree → List KeyTree
  | node _ _ children => children

/-- The name of a key with ASCII case folded. -/
def foldedName (t : KeyTree) : Str := toAsciiUppercase t.name

/-- Sibling keys, and the values of one key, have names that differ by more than ASCII case, at
    every key of the tree. -/
inductive Distinct : KeyTree → Prop where
  | node {name : Str} {values : List RegValue} {children : List KeyTree}
      (hvalues : (values.map RegValue.foldedName).Nodup)
      (hchildren : (children.map foldedName).Nodup)
      (hbelow : ∀ c ∈ children, Distinct c) : Distinct (.node name values children)

/-- The values of the root differ by name. -/
theorem Distinct.values {t : KeyTree} (h : t.Distinct) :
    (t.values.map RegValue.foldedName).Nodup := by
  cases h with
  | node hvalues _ _ => exact hvalues

/-- So do its children. -/
theorem Distinct.children {t : KeyTree} (h : t.Distinct) :
    (t.children.map foldedName).Nodup := by
  cases h with
  | node _ hchildren _ => exact hchildren

/-- The condition is inherited by every child. -/
theorem Distinct.of_mem {t : KeyTree} (h : t.Distinct) : ∀ c ∈ t.children, c.Distinct := by
  cases h with
  | node _ _ hbelow => exact hbelow

end KeyTree

/-- Reading a value gives this name, type and data. -/
structure ReadsValue (r : CellReader) (val : Value) (v : RegValue) : Prop where
  name : val.name = v.name
  dataType : val.dataType = v.dataType
  data : val.rawData r = .ok v.data

/-- Reading a key and everything below it gives this tree. -/
inductive Reads (r : CellReader) : Key → KeyTree → Prop where
  | node {key : Key} {vals : List Value} {values : List RegValue} {kids : List Key}
      {children : List KeyTree} (hvals : key.values r = .ok vals)
      (hvalues : List.Forall₂ (ReadsValue r) vals values)
      (hkids : Exec.Evals (fun n => key.subkeys r n) (.ok kids))
      (hlength : kids.length = children.length)
      (hchildren : ∀ p ∈ kids.zip children, Reads r p.1 p.2) :
      Reads r key (.node key.name values children)

/-- A key has the name of the tree that is read of it. -/
theorem Reads.name_eq {r : CellReader} {key : Key} {t : KeyTree} (h : Reads r key t) :
    key.name = t.name := by
  cases h; rfl

/-- Reading a hive from its root gives this tree. -/
def Hive.ReadsTree (hive : Hive) (t : KeyTree) : Prop :=
  ∃ root, hive.rootKey = .ok root ∧ Reads hive.reader root t

/-! ## Listing from cells -/

/-- The subkeys of a key are the keys at the offsets that its index lists. -/
theorem subkeys_of_listed {r : CellReader} {key : Key} {offsets : List CellOffset}
    {kids : List Key} (hkey : key.ListsSubkeys)
    (hlist : Lists r key.node.subkeysListOffset offsets)
    (hkids : List.Forall₂ (fun off kid => kid.offset = off ∧ kid.AtOffset r) offsets kids) :
    Exec.Evals (fun n => key.subkeys r n) (.ok kids) := by
  have hpush : ∀ {offsets kids}, List.Forall₂ (fun off (kid : Key) => kid.offset = off ∧
      kid.AtOffset r) offsets kids → ∀ keys, offsets.foldlM (Key.pushKey r) keys =
        .ok (keys ++ kids) := by
    intro offsets kids h
    induction h with
    | nil => intro keys; rw [List.append_nil]; rfl
    | @cons off kid offsets kids hkid _ ih =>
      intro keys
      obtain ⟨rfl, hread⟩ := hkid
      have hone : Key.pushKey r keys kid.offset = .ok (keys ++ [kid]) := by
        rw [Key.pushKey, show r.readCell kid.offset = _ from hread, Exec.ok_bind]
      rw [List.foldlM_cons, hone, Exec.ok_bind, ih, List.append_assoc, List.singleton_append]
  simp only [subkeys_of_lists hkey]
  refine Exec.Evals.bind hlist.evals ?_
  rw [hpush hkids, List.nil_append]
  exact Exec.Evals.const _

/-- The values of a key are the values at the offsets in its values list. -/
theorem values_of_listed {r : CellReader} {key : Key} {hdr : CellHeader} {body : Bytes}
    {vals : List Value} (hcount : key.node.valueCount.toNat = vals.length)
    (hsome : vals ≠ []) (hnull : key.node.valuesListOffset.isNull = false)
    (hlist : r.readCellRaw key.node.valuesListOffset = .ok (hdr, body))
    (hbody : 4 * vals.length ≤ body.length)
    (hvals : ∀ i (h : i < vals.length), vals[i].offset = ⟨leU32 body (i * 4)⟩ ∧
      r.readCell vals[i].offset = .ok (.keyValue vals[i].vk)) :
    key.values r = .ok vals := by
  have hpos : 0 < vals.length := List.length_pos_iff.mpr hsome
  have hlists : ¬ (key.node.valueCount = 0 ∨ key.node.valuesListOffset.isNull = true) := by
    rintro (h | h)
    · rw [h] at hcount
      have : (0 : UInt32).toNat = 0 := rfl
      omega
    · rw [hnull] at h; cases h
  -- after `i` passes the first `i` values are listed
  have hpass : ∀ i, 0 ≤ i → i < 0 + vals.length →
      Key.readValueEntry r body i (vals.take i) = .ok (.again (vals.take (i + 1))) := by
    intro i _ hi
    obtain ⟨hoff, hread⟩ := hvals i (by omega)
    have htake : vals.take (i + 1) = vals.take i ++ [vals[i]] := by
      rw [List.take_add_one, List.getElem?_eq_getElem (by omega)]; rfl
    unfold Key.readValueEntry
    dsimp only
    rw [if_neg (by omega), ← hoff, hread, Exec.ok_bind, htake]
  unfold Key.values
  rw [if_neg hlists, hlist, Exec.ok_bind]
  dsimp only
  have hrange := @Exec.forRange_states _ _ _ (fun i => vals.take i) vals.length 0 hpass
  rw [hcount]
  rw [Nat.zero_add, List.take_length] at hrange
  exact hrange

/-- A key that declares neither values nor subkeys reads as a leaf. -/
theorem Reads.leaf {r : CellReader} {key : Key} (hvalues : key.node.valueCount = 0)
    (hkids : key.node.subkeyCount = 0) : Reads r key (.node key.name [] []) := by
  have hv : key.values r = .ok [] := by unfold Key.values; rw [if_pos (Or.inl hvalues)]
  have hk : ∀ n, key.subkeys r n = .ok [] := fun n => by
    unfold Key.subkeys; rw [if_pos (Or.inl hkids)]
  exact .node hv .nil ⟨0, fun n _ => hk n⟩ rfl (fun p hp => absurd hp List.not_mem_nil)

end Winreg
