/-
  THE SECOND PASS links the cells.

  It runs in stages, and each stage settles the cells of one kind: the root and the security cell,
  the keys, the indices, the values lists, the values whose data have a cell, the big-data records,
  and the resident values.

  1. **Keys** — `linkRoot_settles`, `linkChildren_settles`.
  2. **Indices** — `fillLh_settles`, `fillLhRecursive_settles`.
  3. **Values** — `fillValuesLists_settles`, `linkData_settles`, `linkBigData_settles`,
     `writeResidents_settles`.
  4. **All stages** — linking takes the file from the allocated bodies to the linked ones
     (`link_runs`).
-/
import Winreg.TestUtil.Contents

namespace Winreg.TestUtil

open Rust

section Linking

variable {b : TestHiveBuilder} {ε : Type}

/-! ## Keys -/

/-- Each key has its cell. -/
theorem keyRole_mem {p : Path} (hp : p = [] ∨ p ∈ b.closure) : keyRole p ∈ b.roles := by
  unfold keyRole
  split
  · exact mem_roles.mpr trivial
  · rename_i hne
    exact mem_roles.mpr (hp.resolve_left hne)

theorem sk_mem (b : TestHiveBuilder) : Role.sk ∈ b.roles := mem_roles.mpr trivial

theorem vk_mem {x : Item} (hx : x ∈ b.items) : Role.vk x ∈ b.roles := mem_roles.mpr hx

/-- The fixed fields of a key are inside its body. -/
theorem nk_field {p : Path} {o : Nat} (ho : o + 4 ≤ 76) :
    o + 4 ≤ (b.initial (keyRole p)).length := by
  have hlen : 76 ≤ (b.initial (keyRole p)).length := by
    unfold keyRole
    split
    · exact (Nat.le_add_right 76 _).trans_eq
        ((blankNode b.keyFiletime rootName true).length_toBytes).symm
    · exact (Nat.le_add_right 76 _).trans_eq
        ((blankNode b.keyFiletime (asBytes (p.getLast?.getD [])) false).length_toBytes).symm
  omega

/-- The body that is allocated for a key. -/
theorem initial_keyRole (p : Path) : b.initial (keyRole p) =
    (blankNode b.keyFiletime (keyName p) (p = [])).toBytes := by
  unfold keyRole keyName
  by_cases hp : p = []
  · rw [if_pos hp, if_pos hp, hp]
    rfl
  · rw [if_neg hp, if_neg hp, decide_eq_false hp]
    rfl

/-- The linked cell of a key spells its linked record. -/
theorem linked_keyRole (p : Path) : b.linked (keyRole p) = (b.linkedNode p).toBytes := by
  unfold keyRole
  split
  · rename_i hp
    rw [hp]
    rfl
  · rfl

/-- The root has no values: no path is empty. -/
theorem valuesAt_nil (b : TestHiveBuilder) : b.valuesAt [] = [] := by
  have hnone : ∀ v ∈ b.values, ¬ decide (components v.keyPath = []) = true := fun v _ h =>
    List.splitOn_ne_nil '\\' v.keyPath (of_decide_eq_true h)
  unfold TestHiveBuilder.valuesAt
  rw [List.filter_eq_nil_iff.mpr hnone]
  rfl

/-- Writing where the subkeys of a key are listed. -/
def writeIndex (b : TestHiveBuilder) (p : Path) (buf : Bytes) : Exec ε Bytes :=
  if b.childNames p ≠ [] then do
    let buf ← writeU32 buf (b.place (keyRole p) + 4 + nkSubkeysListOffset) (b.address (.lh p))
    writeU32 buf (b.place (keyRole p) + 4 + nkSubkeyCountOffset)
      (UInt32.ofNat (b.childNames p).length)
  else .ok buf

/-- Writing where the values of a key are listed. -/
def writeValues (b : TestHiveBuilder) (p : Path) (buf : Bytes) : Exec ε Bytes :=
  if b.valuesAt p ≠ [] then do
    let buf ← writeU32 buf (b.place (keyRole p) + 4 + nkValuesListOffset)
      (b.address (.valuesList (joinParts p)))
    writeU32 buf (b.place (keyRole p) + 4 + nkValueCountOffset)
      (UInt32.ofNat (b.valuesAt p).length)
  else .ok buf

section Node

variable {p : Path} (hp : p = [] ∨ p ∈ b.closure)

include hp

/-- Writing the parent field changes the parent of the record. -/
theorem writeParent_edits (nk : RawKeyNode) (v : UInt32) :
    EditsBody b (keyRole p) (fun buf =>
      (writeU32 buf (b.place (keyRole p) + 4 + nkParentOffset) v : Exec ε Bytes)) nk.toBytes
      { nk with parent := ⟨v⟩ }.toBytes :=
  EditsBody.write (keyRole_mem hp) (nk_field (by decide)) _ v

/-- Writing the security field changes that one. -/
theorem writeSecurity_edits (nk : RawKeyNode) (v : UInt32) :
    EditsBody b (keyRole p) (fun buf =>
      (writeU32 buf (b.place (keyRole p) + 4 + nkSecurityOffset) v : Exec ε Bytes)) nk.toBytes
      { nk with securityOffset := ⟨v⟩ }.toBytes :=
  EditsBody.write (keyRole_mem hp) (nk_field (by decide)) _ v

/-- Writing count and list of the subkeys, where there are any. -/
theorem writeIndex_edits {nk : RawKeyNode} (hcount : nk.subkeyCount = 0)
    (hlist : nk.subkeysListOffset = .null) :
    EditsBody b (keyRole p) (writeIndex b p : Bytes → Exec ε Bytes) nk.toBytes
      (b.withIndex p nk).toBytes := by
  unfold writeIndex TestHiveBuilder.withIndex
  by_cases hkids : b.childNames p = []
  · simp only [hkids, ne_eq, not_true_eq_false, if_false, List.length_nil]
    rw [show UInt32.ofNat 0 = 0 from rfl, ← hcount, ← hlist]
    exact EditsBody.skip
  · simp only [ne_eq, hkids, not_false_eq_true, if_true]
    exact EditsBody.bind (EditsBody.write (keyRole_mem hp) (nk_field (by decide)) _ _)
      (EditsBody.write (keyRole_mem hp) (nk_field (by decide)) _ _)

/-- Writing count and list of the values, where there are any. -/
theorem writeValues_edits {nk : RawKeyNode} (hcount : nk.valueCount = 0)
    (hlist : nk.valuesListOffset = .null) :
    EditsBody b (keyRole p) (writeValues b p : Bytes → Exec ε Bytes) nk.toBytes
      (b.withValues p nk).toBytes := by
  unfold writeValues TestHiveBuilder.withValues
  by_cases hvals : b.valuesAt p = []
  · simp only [hvals, ne_eq, not_true_eq_false, if_false, List.length_nil]
    rw [show UInt32.ofNat 0 = 0 from rfl, ← hcount, ← hlist]
    exact EditsBody.skip
  · simp only [ne_eq, hvals, not_false_eq_true, if_true]
    exact EditsBody.bind (EditsBody.write (keyRole_mem hp) (nk_field (by decide)) _ _)
      (EditsBody.write (keyRole_mem hp) (nk_field (by decide)) _ _)

end Node

/-- The writes into the root. -/
def writeRoot (b : TestHiveBuilder) (buf : Bytes) : Exec ε Bytes := do
  let buf ← writeU32 buf (b.place .root + 4 + nkSecurityOffset) (b.address .sk)
  let buf ← writeIndex b [] buf
  writeU32 buf (b.place .root + 4 + nkParentOffset) (b.address .root)

/-- The writes into the security cell: it is the only one, so it is its own neighbour. -/
def writeSk (b : TestHiveBuilder) (buf : Bytes) : Exec ε Bytes := do
  let buf ← writeU32 buf (b.place .sk + 4 + skFlinkOffset) (b.address .sk)
  writeU32 buf (b.place .sk + 4 + skBlinkOffset) (b.address .sk)

/-- Linking the root writes its own cell and then the security descriptor's. -/
theorem linkRoot_eq (h : b.Valid) (buf : Bytes) :
    (b.planOf.linkRoot buf : Exec ε Bytes) = writeRoot b buf >>= writeSk b := by
  have hroot : Role.root ∈ b.roles := mem_roles.mpr trivial
  have hlh : b.planOf.lhIds[([] : Str)]? =
      if b.childNames [] ≠ [] then some (b.idOf (.lh [])) else none :=
    getElem?_lhIds h (Or.inl rfl)
  unfold Plan.linkRoot writeRoot writeIndex
  rw [show b.planOf.rootId = b.idOf .root from rfl, show b.planOf.skId = b.idOf .sk from rfl,
    cellOffset_eq hroot, cellOffset_eq (sk_mem b), cellFile_eq hroot, cellFile_eq (sk_mem b), hlh]
  by_cases hkids : b.childNames [] = []
  · simp only [hkids, ne_eq, not_true_eq_false, if_false, Exec.ok_bind, bind_assoc]
    rfl
  · have hlhRole : Role.lh [] ∈ b.roles := mem_roles.mpr ⟨Or.inl rfl, hkids⟩
    simp only [hkids, ne_eq, not_false_eq_true, if_true, Exec.ok_bind, bind_assoc,
      cellOffset_eq hlhRole]
    rw [show b.planOf.tree.rootChildren = b.childNames [] from rootChildren_eq h]
    rfl

/-- **The root and the security cell.** -/
theorem linkRoot_settles (h : b.Valid) :
    b.arena.Settles b.firstContent b.linkedContent [.cell .root, .cell .sk]
      (fun buf => (b.planOf.linkRoot buf : Exec ε Bytes)) := by
  have hroot : ([] : Path) = [] ∨ ([] : Path) ∈ b.closure := Or.inl rfl
  have hedits : EditsBody b .root (writeRoot b : Bytes → Exec ε Bytes) (b.initial .root)
      (b.linked .root) := by
    have hsecurity := @writeSecurity_edits b ε [] hroot (blankNode b.keyFiletime rootName true)
      (b.address .sk)
    have hindex := @writeIndex_edits b ε [] hroot
      { blankNode b.keyFiletime rootName true with securityOffset := ⟨b.address .sk⟩ } rfl rfl
    have hparent := @writeParent_edits b ε [] hroot (b.withIndex []
      { blankNode b.keyFiletime rootName true with securityOffset := ⟨b.address .sk⟩ })
      (b.address .root)
    have hlinked : b.linked .root = { b.withIndex []
        { blankNode b.keyFiletime rootName true with securityOffset := ⟨b.address .sk⟩ } with
          parent := ⟨b.address .root⟩ }.toBytes := by
      show (b.linkedNode []).toBytes = _
      unfold TestHiveBuilder.linkedNode TestHiveBuilder.withValues
      rw [valuesAt_nil]
      rfl
    rw [hlinked]
    exact EditsBody.bind hsecurity (EditsBody.bind hindex hparent)
  have hsk : EditsBody b .sk (writeSk b : Bytes → Exec ε Bytes) (b.initial .sk) (b.linked .sk) :=
    EditsBody.bind
      (EditsBody.write (sk_mem b) (show 4 + 4 ≤ (Allocator.skBody minimalSd).length by decide) _ _)
      (EditsBody.write (sk_mem b) (show 8 + 4 ≤ (Allocator.skBody minimalSd).length by decide) _ _)
  rw [funext (linkRoot_eq h)]
  exact Arena.Settles.bind hedits.settles hsk.settles (by simp)

/-- The writes into a key below the root. -/
def writeKey (b : TestHiveBuilder) (buf : Bytes) (p : Path) : Exec ε Bytes := do
  let buf ← writeU32 buf (b.place (keyRole p) + 4 + nkParentOffset)
    (b.address (keyRole p.dropLast))
  let buf ← writeU32 buf (b.place (keyRole p) + 4 + nkSecurityOffset) (b.address .sk)
  let buf ← writeIndex b p buf
  writeValues b p buf

/-- A path that has values has an entry. -/
theorem mem_entries_of_path (h : b.Valid) {p : Path} (hp : p ∈ b.closure)
    (hvals : b.valuesAt p ≠ []) : (joinParts p, b.valuesAt p) ∈ b.entries := by
  refine mem_entries.mpr ((getElem?_values h hp).trans ?_)
  rw [if_neg hvals]

theorem keyRole_of_mem {p : Path} (hp : p ∈ b.closure) : keyRole p = .nk p :=
  if_neg (mem_closure.mp hp).1

/-- Linking the subkeys of a key, with the places of the plan put in. -/
theorem linkSubkeys_eq (h : b.Valid) {p : Path} (hp : p ∈ b.closure) (buf : Bytes) :
    (b.planOf.linkSubkeys (b.place (.nk p)) (joinParts p) (b.childNames p) buf : Exec ε Bytes) =
      writeIndex b p buf := by
  unfold Plan.linkSubkeys writeIndex
  by_cases hkids : b.childNames p = []
  · rw [if_neg (not_not.mpr hkids), if_neg (not_not.mpr hkids)]
  · have hlh : b.planOf.lhIds[joinParts p]? = some (b.idOf (.lh p)) :=
      (getElem?_lhIds h (Or.inr hp)).trans (if_pos hkids)
    have hlhRole : Role.lh p ∈ b.roles := mem_roles.mpr ⟨Or.inr hp, hkids⟩
    rw [if_pos hkids, if_pos hkids, hlh]
    dsimp only
    rw [cellOffset_eq hlhRole, Exec.ok_bind, keyRole_of_mem hp]

/-- Linking its values. -/
theorem linkValues_eq (h : b.Valid) {p : Path} (hp : p ∈ b.closure) (buf : Bytes) :
    (b.planOf.linkValues (b.place (.nk p)) (joinParts p) buf : Exec ε Bytes) =
      writeValues b p buf := by
  unfold Plan.linkValues writeValues
  by_cases hvals : b.valuesAt p = []
  · have hnone : b.planOf.cells.vkMap[joinParts p]? = none := by
      rw [Option.eq_none_iff_forall_ne_some]
      intro ids hids
      obtain ⟨e, he, hkey, _⟩ := getElem?_vkMap.mp hids
      have hget := mem_entries.mp he
      rw [hkey] at hget
      have hmap := (getElem?_values h hp).symm.trans hget
      rw [if_pos hvals] at hmap
      cases hmap
    rw [hnone, if_neg (not_not.mpr hvals)]
  · have he := mem_entries_of_path h hp hvals
    have hmap : b.planOf.cells.vkMap[joinParts p]? =
        some ((itemsOf (joinParts p, b.valuesAt p)).map fun x => b.idOf (.vk x)) :=
      getElem?_vkMap.mpr ⟨_, he, rfl, rfl⟩
    have hlist : b.planOf.cells.valuesListIds[joinParts p]? =
        some (b.idOf (.valuesList (joinParts p))) := getElem?_valuesListIds he
    have hcount : ((itemsOf (joinParts p, b.valuesAt p)).map fun x => b.idOf (.vk x)).length =
        (b.valuesAt p).length := by
      rw [List.length_map, itemsOf, List.length_map, List.length_zipIdx]
    have hsome : (itemsOf (joinParts p, b.valuesAt p)).map (fun x => b.idOf (.vk x)) ≠ [] :=
      fun hnil => hvals (List.length_eq_zero_iff.mp (hcount.symm.trans (by rw [hnil]; rfl)))
    have hlistRole : Role.valuesList (joinParts p) ∈ b.roles := mem_roles.mpr ⟨_, he⟩
    rw [hmap]
    dsimp only
    rw [if_pos hsome, if_pos hvals, hlist]
    dsimp only
    rw [cellOffset_eq hlistRole, Exec.ok_bind, hcount, keyRole_of_mem hp]

/-- The recursion over the tree of names writes the keys in pre-order, one after the other. -/
theorem linkChildren_eq (h : b.Valid) {n : Nat} (hn : b.depth < n) (buf : Bytes) :
    (b.planOf.linkChildren n b.planOf.tree.rootChildren [] (b.address .root) (b.address .sk) buf :
      Exec ε Bytes) = (order b).foldlM (writeKey b) buf := by
  refine @walkChildren_eq b ε Bytes UInt32 h _ (fun p => b.address (keyRole p)) (writeKey b)
    (fun p hp buf => ?_) n hn buf
  have hrole : Role.nk p ∈ b.roles := mem_roles.mpr hp
  have hnk : indexMap b.planOf.nkIds (joinParts p) = (.ok (b.idOf (.nk p)) : Exec ε CellId) := by
    unfold indexMap
    rw [show b.planOf.nkIds[joinParts p]? = _ from getElem?_nkIds h hp]
  unfold writeKey
  simp only [hnk, Exec.ok_bind, cellFile_eq hrole, cellOffset_eq hrole, linkSubkeys_eq h hp,
    linkValues_eq h hp, keyRole_of_mem hp, bind_assoc]

/-- **The keys below the root.** -/
theorem linkChildren_settles (h : b.Valid) {n : Nat} (hn : b.depth < n) :
    b.arena.Settles b.firstContent b.linkedContent ((order b).flatMap fun p => [.cell (.nk p)])
      (fun buf => (b.planOf.linkChildren n b.planOf.tree.rootChildren [] (b.address .root)
        (b.address .sk) buf : Exec ε Bytes)) := by
  rw [funext (linkChildren_eq h hn)]
  refine Arena.Settles.foldlM (fun p hp => ?_) ?_
  · have hmem := mem_order.mp hp
    have hpath : p = [] ∨ p ∈ b.closure := Or.inr hmem
    have hedits : EditsBody b (keyRole p) (fun buf => (writeKey b buf p : Exec ε Bytes))
        (b.initial (keyRole p)) (b.linked (keyRole p)) := by
      rw [initial_keyRole, linked_keyRole]
      exact EditsBody.bind (writeParent_edits hpath _ _) <|
        EditsBody.bind (writeSecurity_edits hpath _ _) <|
        EditsBody.bind (writeIndex_edits hpath rfl rfl) (writeValues_edits hpath rfl rfl)
    rw [keyRole_of_mem hmem] at hedits
    exact hedits.settles
  · rw [← List.map_eq_flatMap]
    exact (nodup_order b).map fun p q hpq => by cases hpq; rfl

/-! ## Indices -/

/-- In a valid builder all names are good. -/
theorem goodPath_of (h : b.Valid) {p : Path} (hp : p = [] ∨ p ∈ b.closure) : GoodPath p := by
  rcases hp with rfl | hp
  · exact fun c hc => absurd hc List.not_mem_nil
  · exact h.goodPath hp

/-- The element of a child. -/
def lhElement (b : TestHiveBuilder) (p : Path) (c : Str) : LhElement :=
  ⟨⟨b.address (.nk (p ++ [c]))⟩, lhHash c⟩

/-- One element of a list of subkeys: the address of the child and the hash of its name. -/
theorem fillElement_eq (h : b.Valid) {p : Path} (hp : p = [] ∨ p ∈ b.closure) {c : Str}
    (hc : c ∈ b.childNames p) (start i : Nat) (buf : Bytes) :
    (b.planOf.fillElement start (joinParts p) buf (c, i) : Exec ε Bytes) =
      copyInto buf (start + i * 8) (lhElement b p c).toBytes := by
  have hmem := mem_childNames.mp hc
  have hnk : indexMap b.planOf.nkIds (joinParts (p ++ [c])) =
      (.ok (b.idOf (.nk (p ++ [c]))) : Exec ε CellId) := by
    unfold indexMap
    rw [show b.planOf.nkIds[joinParts (p ++ [c])]? = _ from getElem?_nkIds h hmem]
  have hrole : Role.nk (p ++ [c]) ∈ b.roles := mem_roles.mpr hmem
  unfold Plan.fillElement LhElement.toBytes
  dsimp only
  rw [fullPath_joinParts (goodPath_of h hp), hnk, Exec.ok_bind, cellOffset_eq hrole, Exec.ok_bind,
    copyInto_append]
  rfl

/-- **One index** is filled in with the addresses of the children. -/
theorem fillLh_settles (h : b.Valid) {p : Path} (hp : p = [] ∨ p ∈ b.closure)
    (hkids : b.childNames p ≠ []) :
    b.arena.Settles b.firstContent b.linkedContent [.cell (.lh p)] (fun buf =>
      (b.planOf.fillLh (b.idOf (.lh p)) (b.childNames p) (joinParts p) buf : Exec ε Bytes)) := by
  have hrole : Role.lh p ∈ b.roles := mem_roles.mpr ⟨hp, hkids⟩
  have hfun : (fun buf => (b.planOf.fillLh (b.idOf (.lh p)) (b.childNames p) (joinParts p) buf :
      Exec ε Bytes)) = fun buf => (b.childNames p).zipIdx.foldlM
        (b.planOf.fillElement (b.place (.lh p) + 4 + 4) (joinParts p)) buf := by
    funext buf
    unfold Plan.fillLh
    rw [cellFile_eq hrole, Exec.ok_bind]
  have hlinked : b.linked (.lh p) = [0x6C, 0x68] ++
      u16Bytes (UInt16.ofNat (b.childNames p).length) ++
        (b.childNames p).flatMap fun c => (lhElement b p c).toBytes := by
    show _ ++ (b.lhElements p).flatMap _ = _
    unfold TestHiveBuilder.lhElements
    rw [List.flatMap_map]
    rfl
  refine EditsBody.settles ?_
  rw [hfun, hlinked]
  exact EditsBody.fill (fun c => (lhElement b p c).length_toBytes) hrole
    (fun c i hci buf => fillElement_eq h hp (List.fst_mem_of_mem_zipIdx hci) _ i buf) rfl

/-- The part of the file that the index of a path takes. -/
def indexRegion (b : TestHiveBuilder) (p : Path) : List Region :=
  if b.childNames p ≠ [] then [.cell (.lh p)] else []

/-- Filling in the index of the root. -/
def fillRootLh (b : TestHiveBuilder) (buf : Bytes) : Exec ε Bytes :=
  match b.planOf.lhIds[([] : Str)]? with
  | some lhId => b.planOf.fillLh lhId b.planOf.tree.rootChildren [] buf
  | none => .ok buf

/-- **The index of the root.** -/
theorem fillRootLh_settles (h : b.Valid) :
    b.arena.Settles b.firstContent b.linkedContent (indexRegion b [])
      (fillRootLh b : Bytes → Exec ε Bytes) := by
  have hlh : b.planOf.lhIds[([] : Str)]? =
      if b.childNames [] ≠ [] then some (b.idOf (.lh [])) else none :=
    getElem?_lhIds h (Or.inl rfl)
  unfold indexRegion fillRootLh
  rw [hlh, show b.planOf.tree.rootChildren = b.childNames [] from rootChildren_eq h]
  by_cases hkids : b.childNames [] = []
  · rw [if_neg (not_not.mpr hkids), if_neg (not_not.mpr hkids)]
    exact Arena.Settles.skip
  · rw [if_pos hkids, if_pos hkids]
    exact fillLh_settles h (Or.inl rfl) hkids

/-- **The indices below the root.** -/
theorem fillLhRecursive_settles (h : b.Valid) {n : Nat} (hn : b.depth < n) :
    b.arena.Settles b.firstContent b.linkedContent ((order b).flatMap (indexRegion b))
      (fun buf => (b.planOf.fillLhRecursive n b.planOf.tree.rootChildren [] buf :
        Exec ε Bytes)) := by
  -- the recursion is a fold over the keys in the order of the layout
  have hwalk : ∀ buf, (b.planOf.fillLhRecursive n b.planOf.tree.rootChildren [] buf :
      Exec ε Bytes) = (order b).foldlM (fun buf p => if b.childNames p ≠ [] then
        b.planOf.fillLh (b.idOf (.lh p)) (b.childNames p) (joinParts p) buf else .ok buf) buf := by
    intro buf
    refine @walkChildren_eq b ε Bytes Unit h _ (fun _ => ()) _ (fun p hp buf => ?_) n hn buf
    have hlh : b.planOf.lhIds[joinParts p]? =
        if b.childNames p ≠ [] then some (b.idOf (.lh p)) else none :=
      getElem?_lhIds h (Or.inr hp)
    rw [hlh]
    by_cases hkids : b.childNames p = []
    · rw [if_neg (not_not.mpr hkids), if_neg (not_not.mpr hkids), Exec.ok_bind]
    · rw [if_pos hkids, if_pos hkids, if_pos hkids]
  rw [funext hwalk]
  refine Arena.Settles.foldlM (fun p hp => ?_) ?_
  · unfold indexRegion
    by_cases hkids : b.childNames p = []
    · simp only [hkids, ne_eq, not_true_eq_false, if_false]
      exact Arena.Settles.skip
    · simp only [hkids, ne_eq, not_false_eq_true, if_true]
      exact fillLh_settles h (Or.inr (mem_order.mp hp)) hkids
  · -- no two keys write to the same index cell
    rw [List.nodup_flatMap]
    refine ⟨fun p _ => ?_, (nodup_order b).imp fun {p q} hpq i hi hj => hpq ?_⟩
    · unfold indexRegion
      split <;> simp
    · have hform : ∀ {p : Path}, i ∈ indexRegion b p → i = .cell (.lh p) := fun {p} hi => by
        unfold indexRegion at hi
        split at hi
        · exact List.mem_singleton.mp hi
        · exact absurd hi List.not_mem_nil
      have heq := (hform hi).symm.trans (hform hj)
      injection heq with heq
      injection heq

/-! ## Values -/

/-- **Writing the addresses of some cells** fills in a body of zeros. -/
theorem writeOffsets_edits {α : Type} {target : α → Role} {r : Role} (hr : r ∈ b.roles)
    {xs : List α} (htarget : ∀ x ∈ xs, target x ∈ b.roles)
    (hinitial : b.initial r = List.replicate (xs.length * 4) 0) :
    EditsBody b r (fun buf => (b.planOf.writeOffsets (b.place r + 4)
      (xs.map fun x => b.idOf (target x)) buf : Exec ε Bytes)) (b.initial r)
      (xs.flatMap fun x => u32Bytes (b.address (target x))) := by
  have hfun : (fun buf => (b.planOf.writeOffsets (b.place r + 4)
      (xs.map fun x => b.idOf (target x)) buf : Exec ε Bytes)) =
      fun buf => xs.zipIdx.foldlM (fun buf (x, i) => do
        let off ← b.planOf.cellOffset (b.idOf (target x))
        writeU32 buf (b.place r + 4 + i * 4) off) buf := by
    funext buf
    unfold Plan.writeOffsets
    rw [List.zipIdx_map, List.foldlM_map]
    rfl
  rw [hfun]
  refine @EditsBody.fill b ε r α _ 4 (fun x => length_u32Bytes _) hr [] xs _
    (fun x l hxl buf => ?_) hinitial
  have hx : target x ∈ b.roles := htarget x (List.fst_mem_of_mem_zipIdx hxl)
  dsimp only
  rw [cellOffset_eq hx, Exec.ok_bind]
  rfl

/-- The values list of one key. -/
theorem fillValuesList_settles {e : Str × List TreeValue} (he : e ∈ b.entries) :
    b.arena.Settles b.firstContent b.linkedContent [.cell (.valuesList e.1)] (fun buf =>
      (b.planOf.fillValuesList buf (e.1, (itemsOf e).map fun x => b.idOf (.vk x)) :
        Exec ε Bytes)) := by
  have hrole : Role.valuesList e.1 ∈ b.roles := mem_roles.mpr ⟨e.2, he⟩
  have hitems : b.itemsAt e.1 = itemsOf e := by
    unfold TestHiveBuilder.itemsAt
    rw [valuesOf_of_mem he]
  have hmem : ∀ x ∈ itemsOf e, Role.vk x ∈ b.roles := fun x hx =>
    vk_mem (List.mem_flatMap.mpr ⟨e, he, hx⟩)
  have hinitial : b.initial (.valuesList e.1) = List.replicate ((itemsOf e).length * 4) 0 := by
    show List.replicate ((b.valuesOf e.1).length * 4) 0 = _
    rw [valuesOf_of_mem he, itemsOf, List.length_map, List.length_zipIdx]
  have hlist : b.planOf.cells.valuesListIds[e.1]? = some (b.idOf (.valuesList e.1)) :=
    getElem?_valuesListIds he
  have hfun : (fun buf => (b.planOf.fillValuesList buf
      (e.1, (itemsOf e).map fun x => b.idOf (.vk x)) : Exec ε Bytes)) =
      fun buf => b.planOf.writeOffsets (b.place (.valuesList e.1) + 4)
        ((itemsOf e).map fun x => b.idOf (.vk x)) buf := by
    funext buf
    unfold Plan.fillValuesList
    dsimp only
    rw [hlist]
    dsimp only
    rw [cellFile_eq hrole, Exec.ok_bind]
  have hlinked : b.linked (.valuesList e.1) =
      (itemsOf e).flatMap fun x => u32Bytes (b.address (.vk x)) := by
    show (b.itemsAt e.1).flatMap _ = _
    rw [hitems]
  refine EditsBody.settles ?_
  rw [hfun, hlinked]
  exact writeOffsets_edits hrole hmem hinitial

/-- **The values lists.** -/
theorem fillValuesLists_settles (b : TestHiveBuilder) :
    b.arena.Settles b.firstContent b.linkedContent
      (b.planOf.cells.vkMap.toList.flatMap fun e => [.cell (.valuesList e.1)]) (fun buf =>
        (b.planOf.cells.vkMap.toList.foldlM b.planOf.fillValuesList buf : Exec ε Bytes)) := by
  refine Arena.Settles.foldlM (fun e he => ?_) ?_
  · obtain ⟨key, ids⟩ := e
    obtain ⟨e, he, hkey, hids⟩ :=
      getElem?_vkMap.mp (Std.TreeMap.mem_toList_iff_getElem?_eq_some.mp he)
    rw [← hkey, ← hids]
    exact fillValuesList_settles he
  · rw [← List.map_eq_flatMap]
    have hkeys := BTreeMap.nodup_keys_toList b.planOf.cells.vkMap
    have hmap : b.planOf.cells.vkMap.toList.map (fun e => Region.cell (.valuesList e.1)) =
        (b.planOf.cells.vkMap.toList.map Prod.fst).map fun key => .cell (.valuesList key) := by
      rw [List.map_map]
      rfl
    rw [hmap]
    exact hkeys.map fun x y hxy => by cases hxy; rfl

/-- The role of a cell. -/
def roleAt (b : TestHiveBuilder) (id : CellId) : Role := (b.roles[id]?).getD .sk

theorem roleAt_idOf {r : Role} (hr : r ∈ b.roles) : roleAt b (b.idOf r) = r := by
  unfold roleAt
  rw [getElem?_idOf hr, Option.getD_some]

/-- Data that is not resident has a cell that the value names. -/
theorem dataHead_mem {x : Item} (hx : x ∈ b.items) (hres : ¬ x.IsResident) :
    x.dataHead ∈ b.roles := by
  unfold Item.dataHead
  split
  · rename_i hbig
    exact mem_roles.mpr ⟨hx, hbig⟩
  · rename_i hbig
    exact mem_roles.mpr ⟨hx, hres, hbig⟩

/-- One value whose data have a cell. -/
theorem linkData_settles_one {x : Item} (hx : x ∈ b.items) (hres : ¬ x.IsResident) :
    b.arena.Settles b.firstContent b.linkedContent [.cell (.vk x)] (fun buf =>
      (b.planOf.linkData buf (b.idOf (.vk x), b.idOf x.dataHead) : Exec ε Bytes)) := by
  have hrole := vk_mem hx
  have hfun : (fun buf => (b.planOf.linkData buf (b.idOf (.vk x), b.idOf x.dataHead) :
      Exec ε Bytes)) = fun buf => writeU32 buf (b.place (.vk x) + 4 + vkDataOffsetOffset)
        (b.address x.dataHead) := by
    funext buf
    unfold Plan.linkData
    dsimp only
    rw [cellFile_eq hrole, Exec.ok_bind, cellOffset_eq (dataHead_mem hx hres), Exec.ok_bind]
  have hlen : vkDataOffsetOffset + 4 ≤ (b.initial (.vk x)).length :=
    (Nat.le_trans (by decide) (Nat.le_add_right 20 _)).trans_eq
      ((blankValue x.value).length_toBytes x.value.dataType 0).symm
  have hlinked : b.linked (.vk x) =
      patch (b.initial (.vk x)) vkDataOffsetOffset (u32Bytes (b.address x.dataHead)) := by
    show (b.linkedValue x).toBytes x.value.dataType 0 = _
    unfold TestHiveBuilder.linkedValue
    rw [if_neg hres]
    rfl
  refine EditsBody.settles ?_
  rw [hfun, hlinked]
  exact EditsBody.write hrole hlen _ _

/-- **The values whose data have a cell.** -/
theorem linkData_settles (b : TestHiveBuilder) :
    b.arena.Settles b.firstContent b.linkedContent
      (b.planOf.cells.dataCellIds.toList.flatMap fun e => [.cell (roleAt b e.1)]) (fun buf =>
        (b.planOf.cells.dataCellIds.toList.foldlM b.planOf.linkData buf : Exec ε Bytes)) := by
  have hmem : ∀ e ∈ b.planOf.cells.dataCellIds.toList,
      ∃ x ∈ b.items, ¬ x.IsResident ∧ b.idOf (.vk x) = e.1 ∧ b.idOf x.dataHead = e.2 := fun e he =>
    getElem?_dataCellIds.mp (Std.TreeMap.mem_toList_iff_getElem?_eq_some.mp he)
  refine Arena.Settles.foldlM (fun e he => ?_) ?_
  · obtain ⟨vkId, dataId⟩ := e
    obtain ⟨x, hx, hres, rfl, rfl⟩ := hmem _ he
    rw [roleAt_idOf (vk_mem hx)]
    exact linkData_settles_one hx hres
  · rw [← List.map_eq_flatMap]
    have hkeys := List.pairwise_map.mp (BTreeMap.nodup_keys_toList b.planOf.cells.dataCellIds)
    refine List.pairwise_map.mpr (hkeys.imp_of_mem fun {e f} he hf hne heq => hne ?_)
    obtain ⟨x, hx, _, hxid, _⟩ := hmem e he
    obtain ⟨y, hy, _, hyid, _⟩ := hmem f hf
    rw [← hxid, ← hyid, roleAt_idOf (vk_mem hx), roleAt_idOf (vk_mem hy)] at heq
    injection heq with hrole
    rw [← hxid, ← hyid, hrole]

/-- One big value: its record refers to its segment list, and the list to the segments. -/
theorem linkBigData_settles_one {x : Item} (hx : x ∈ b.items) (hbig : x.IsBig) :
    b.arena.Settles b.firstContent b.linkedContent [.cell (.bigData x), .cell (.segmentList x)]
      (fun buf => (b.planOf.linkBigData buf (b.bigDataLink x) : Exec ε Bytes)) := by
  have hdb : Role.bigData x ∈ b.roles := mem_roles.mpr ⟨hx, hbig⟩
  have hlist : Role.segmentList x ∈ b.roles := mem_roles.mpr ⟨hx, hbig⟩
  have hsegments : ∀ k ∈ List.range x.segmentCount, Role.segment x k ∈ b.roles := fun k hk =>
    mem_roles.mpr ⟨hx, hbig, List.mem_range.mp hk⟩
  have hfun : (fun buf => (b.planOf.linkBigData buf (b.bigDataLink x) : Exec ε Bytes)) =
      fun buf => writeU32 buf (b.place (.bigData x) + 4 + 4) (b.address (.segmentList x)) >>=
        fun buf => b.planOf.writeOffsets (b.place (.segmentList x) + 4)
          ((List.range x.segmentCount).map fun k => b.idOf (.segment x k)) buf := by
    funext buf
    unfold Plan.linkBigData TestHiveBuilder.bigDataLink
    dsimp only
    rw [cellFile_eq hdb, Exec.ok_bind, cellOffset_eq hlist, Exec.ok_bind, cellFile_eq hlist]
    rfl
  have hinitial : b.initial (.segmentList x) =
      List.replicate ((List.range x.segmentCount).length * 4) 0 := by
    rw [List.length_range]
    rfl
  rw [hfun]
  exact Arena.Settles.bind
    (EditsBody.settles (EditsBody.write hdb
      (show 4 + 4 ≤ (Allocator.dbBody x.segmentCount).length from Nat.le_refl 8) _ _))
    (EditsBody.settles (writeOffsets_edits hlist hsegments hinitial)) (by simp)

/-- **The big values.** -/
theorem linkBigData_settles (b : TestHiveBuilder) :
    b.arena.Settles b.firstContent b.linkedContent
      ((b.items.filter fun x => x.IsBig).flatMap fun x =>
        [.cell (.bigData x), .cell (.segmentList x)]) (fun buf =>
          (b.planOf.cells.bigDataLinks.foldlM b.planOf.linkBigData buf : Exec ε Bytes)) := by
  have hfun : (fun buf => (b.planOf.cells.bigDataLinks.foldlM b.planOf.linkBigData buf :
      Exec ε Bytes)) = fun buf => (b.items.filter fun x => x.IsBig).foldlM
        (fun buf x => b.planOf.linkBigData buf (b.bigDataLink x)) buf := by
    funext buf
    show ((b.items.filter fun x => x.IsBig).map b.bigDataLink).foldlM _ buf = _
    rw [List.foldlM_map]
  rw [hfun]
  refine Arena.Settles.foldlM (fun x hx => ?_) ?_
  · rw [List.mem_filter, decide_eq_true_eq] at hx
    exact linkBigData_settles_one hx.1 hx.2
  · refine List.nodup_flatMap.mpr ⟨fun x _ => by simp, ?_⟩
    refine ((nodup_items b).filter _).imp fun {x y} hxy r hrx hry => hxy ?_
    have hvalue : ∀ {z : Item}, r ∈ [Region.cell (.bigData z), .cell (.segmentList z)] →
        ∃ s : Role, r = .cell s ∧ s.item? = some z := fun {z} hr => by
      rcases List.mem_cons.mp hr with rfl | hr
      · exact ⟨_, rfl, rfl⟩
      · exact ⟨_, List.mem_singleton.mp hr, rfl⟩
    obtain ⟨s, rfl, hs⟩ := hvalue hrx
    obtain ⟨t, ht, hty⟩ := hvalue hry
    injection ht with ht
    rw [← ht, hs] at hty
    exact Option.some.inj hty

/-- The part of the file that is written when the data of a value are resident. -/
def residentRegion (x : Item) : List Region := if x.IsResident then [.cell (.vk x)] else []

/-- One value: when it is resident, its `vk` gets its data. -/
theorem writeResident_settles {e : Str × List TreeValue} (he : e ∈ b.entries) {x : Item}
    (hx : x ∈ itemsOf e) :
    b.arena.Settles b.firstContent b.linkedContent (residentRegion x) (fun buf =>
      (b.planOf.writeResident ((itemsOf e).map fun x => b.idOf (.vk x)) buf (x.value, x.index) :
        Exec ε Bytes)) := by
  have hrole : Role.vk x ∈ b.roles := vk_mem (List.mem_flatMap.mpr ⟨e, he, hx⟩)
  unfold residentRegion Plan.writeResident
  dsimp only
  by_cases hres : x.IsResident
  · have hfit : x.value.data.length ≤ 4 := hres
    have hid : indexList ((itemsOf e).map fun x => b.idOf (.vk x)) x.index =
        (.ok (b.idOf (.vk x)) : Exec ε CellId) := by
      unfold indexList
      rw [List.getElem?_map, getElem?_itemsOf hx, Option.map_some]
    have hlen : ∀ {o}, o ≤ 20 → o ≤ (b.initial (.vk x)).length := fun ho =>
      (Nat.le_trans ho (Nat.le_add_right 20 _)).trans_eq
        ((blankValue x.value).length_toBytes x.value.dataType 0).symm
    have hlinked : b.linked (.vk x) = patch (patch (b.initial (.vk x)) vkDataSizeOffset
        (u32Bytes (UInt32.ofNat x.value.data.length ||| 0x80000000))) vkDataOffsetOffset
          x.value.data := by
      show (b.linkedValue x).toBytes x.value.dataType 0 = _
      unfold TestHiveBuilder.linkedValue
      rw [if_pos hres]
      exact (RawKeyValue.patch_inlineData { blankValue x.value with
        dataSizeRaw := UInt32.ofNat x.value.data.length ||| 0x80000000 } x.value.dataType 0
          hfit).symm
    simp only [if_pos hres, if_pos hfit, hid, cellFile_eq hrole, Exec.ok_bind]
    refine EditsBody.settles ?_
    rw [hlinked]
    exact EditsBody.bind (EditsBody.write hrole (hlen (by decide)) _ _)
      (EditsBody.copy hrole (hlen (show 8 + x.value.data.length ≤ 20 by omega)) _)
  · have hfit : ¬ x.value.data.length ≤ 4 := hres
    simp only [if_neg hres, if_neg hfit]
    exact Arena.Settles.skip

/-- **The resident values.** -/
theorem writeResidents_settles (b : TestHiveBuilder) :
    b.arena.Settles b.firstContent b.linkedContent (b.items.flatMap residentRegion) (fun buf =>
      (b.planOf.tree.values.toList.foldlM b.planOf.writeResidents buf : Exec ε Bytes)) := by
  have hnodup : (b.items.flatMap residentRegion).Nodup := by
    refine List.nodup_flatMap.mpr ⟨fun x _ => ?_, (nodup_items b).imp fun {x y} hxy r hrx hry =>
      hxy ?_⟩
    · unfold residentRegion
      split <;> simp
    · have hform : ∀ {z : Item}, r ∈ residentRegion z → r = .cell (.vk z) := fun {z} hr => by
        unfold residentRegion at hr
        split at hr
        · exact List.mem_singleton.mp hr
        · exact absurd hr List.not_mem_nil
      have heq := (hform hrx).symm.trans (hform hry)
      injection heq with heq
      injection heq
  have hassoc : b.items.flatMap residentRegion =
      b.entries.flatMap fun e => (itemsOf e).flatMap residentRegion := List.flatMap_assoc
  rw [hassoc] at hnodup ⊢
  refine Arena.Settles.foldlM (fun e he => ?_) hnodup
  have hmap : b.planOf.cells.vkMap[e.1]? = some ((itemsOf e).map fun x => b.idOf (.vk x)) :=
    getElem?_vkMap.mpr ⟨e, he, rfl, rfl⟩
  have hfun : (fun buf => (b.planOf.writeResidents buf e : Exec ε Bytes)) = fun buf =>
      (itemsOf e).foldlM (fun buf x => b.planOf.writeResident
        ((itemsOf e).map fun x => b.idOf (.vk x)) buf (x.value, x.index)) buf := by
    funext buf
    have hpairs : e.2.zipIdx = (itemsOf e).map fun x => (x.value, x.index) := by
      unfold itemsOf
      rw [List.map_map]
      exact (List.map_id _).symm
    unfold Plan.writeResidents
    dsimp only
    rw [hmap]
    dsimp only
    rw [hpairs, List.foldlM_map]
  rw [hfun]
  exact Arena.Settles.foldlM (fun x hx => writeResident_settles he hx)
    ((List.nodup_flatMap.mp hnodup).1 e he)

/-! ## All stages -/

/-- The stage in which a part of the file gets its final content; the others never change. -/
def Region.stage : Region → Nat
  | .cell .root | .cell .sk => 1
  | .cell (.nk _) => 2
  | .cell (.lh p) => if p = [] then 3 else 4
  | .cell (.valuesList _) => 5
  | .cell (.vk x) => if x.IsResident then 8 else 6
  | .cell (.bigData _) | .cell (.segmentList _) => 7
  | _ => 0

/-- The parts of the file that a stage settles. -/
def stageRegions (b : TestHiveBuilder) : Nat → List Region
  | 1 => [.cell .root, .cell .sk]
  | 2 => (order b).flatMap fun p => [.cell (.nk p)]
  | 3 => indexRegion b []
  | 4 => (order b).flatMap (indexRegion b)
  | 5 => b.planOf.cells.vkMap.toList.flatMap fun e => [.cell (.valuesList e.1)]
  | 6 => b.planOf.cells.dataCellIds.toList.flatMap fun e => [.cell (roleAt b e.1)]
  | 7 => (b.items.filter fun x => x.IsBig).flatMap fun x =>
      [.cell (.bigData x), .cell (.segmentList x)]
  | 8 => b.items.flatMap residentRegion
  | _ => []

/-- The list of subkeys is a part of the file where there are subkeys. -/
theorem mem_indexRegion {p : Path} {i : Region} :
    i ∈ indexRegion b p ↔ b.childNames p ≠ [] ∧ i = .cell (.lh p) := by
  unfold indexRegion
  split <;> simp [*]

/-- Resident data is written into the record of the value. -/
theorem mem_residentRegion {x : Item} {i : Region} :
    i ∈ residentRegion x ↔ x.IsResident ∧ i = .cell (.vk x) := by
  unfold residentRegion
  split <;> simp [*]

/-- A cell is settled in its stage. -/
theorem mem_stageRegions {r : Role} (hr : r.Allocated b) (hstage : (Region.cell r).stage ≠ 0) :
    .cell r ∈ stageRegions b (Region.cell r).stage := by
  -- one case for each kind of cell; plain data and segments are written before any linking
  cases r with
  | sk => exact List.mem_cons_of_mem _ (List.mem_singleton_self _)
  | root => exact List.mem_cons_self
  | nk p => exact List.mem_flatMap.mpr ⟨p, mem_order.mpr hr, List.mem_singleton_self _⟩
  | lh p =>
    by_cases hp : p = []
    · rw [Region.stage, if_pos hp]
      exact mem_indexRegion.mpr ⟨hp ▸ hr.2, by rw [hp]⟩
    · rw [Region.stage, if_neg hp]
      exact List.mem_flatMap.mpr
        ⟨p, mem_order.mpr (hr.1.resolve_left hp), mem_indexRegion.mpr ⟨hr.2, rfl⟩⟩
  | valuesList key =>
    obtain ⟨vals, he⟩ := hr
    have hget : b.planOf.cells.vkMap[key]? =
        some ((itemsOf (key, vals)).map fun x => b.idOf (.vk x)) :=
      getElem?_vkMap.mpr ⟨_, he, rfl, rfl⟩
    exact List.mem_flatMap.mpr
      ⟨(key, _), Std.TreeMap.mem_toList_iff_getElem?_eq_some.mpr hget, List.mem_singleton_self _⟩
  | vk x =>
    have hx : x ∈ b.items := hr
    by_cases hres : x.IsResident
    · rw [Region.stage, if_pos hres]
      exact List.mem_flatMap.mpr ⟨x, hx, mem_residentRegion.mpr ⟨hres, rfl⟩⟩
    · rw [Region.stage, if_neg hres]
      have hget : b.planOf.cells.dataCellIds[b.idOf (.vk x)]? = some (b.idOf x.dataHead) :=
        getElem?_dataCellIds.mpr ⟨x, hx, hres, rfl, rfl⟩
      refine List.mem_flatMap.mpr
        ⟨(b.idOf (.vk x), _), Std.TreeMap.mem_toList_iff_getElem?_eq_some.mpr hget, ?_⟩
      rw [roleAt_idOf (vk_mem hx)]
      exact List.mem_singleton_self _
  | data x => exact absurd rfl hstage
  | segment x k => exact absurd rfl hstage
  | segmentList x =>
    exact List.mem_flatMap.mpr ⟨x, List.mem_filter.mpr ⟨hr.1, decide_eq_true hr.2⟩,
      List.mem_cons_of_mem _ (List.mem_singleton_self _)⟩
  | bigData x =>
    exact List.mem_flatMap.mpr ⟨x, List.mem_filter.mpr ⟨hr.1, decide_eq_true hr.2⟩,
      List.mem_cons_self⟩

/-- A stage settles the parts that belong to it and no others. -/
theorem stage_of_mem_stageRegions {i : Region} : ∀ {k : Nat}, i ∈ stageRegions b k → i.stage = k
  | 1, hi => by
    rcases List.mem_cons.mp hi with rfl | hi
    · rfl
    · rw [List.mem_singleton.mp hi]; rfl
  | 2, hi => by
    obtain ⟨p, _, hi⟩ := List.mem_flatMap.mp hi
    rw [List.mem_singleton.mp hi]; rfl
  | 3, hi => by
    rw [(mem_indexRegion.mp hi).2]; rfl
  | 4, hi => by
    obtain ⟨p, hp, hi⟩ := List.mem_flatMap.mp hi
    have hne : p ≠ [] := (mem_closure.mp (mem_order.mp hp)).1
    rw [(mem_indexRegion.mp hi).2, Region.stage, if_neg hne]
  | 5, hi => by
    obtain ⟨e, _, hi⟩ := List.mem_flatMap.mp hi
    rw [List.mem_singleton.mp hi]; rfl
  | 6, hi => by
    obtain ⟨e, he, hi⟩ := List.mem_flatMap.mp hi
    obtain ⟨x, hx, hres, hid, _⟩ :=
      getElem?_dataCellIds.mp (Std.TreeMap.mem_toList_iff_getElem?_eq_some.mp he)
    rw [List.mem_singleton.mp hi, ← hid, roleAt_idOf (vk_mem hx), Region.stage, if_neg hres]
  | 7, hi => by
    obtain ⟨x, _, hi⟩ := List.mem_flatMap.mp hi
    rcases List.mem_cons.mp hi with rfl | hi
    · rfl
    · rw [List.mem_singleton.mp hi]; rfl
  | 8, hi => by
    obtain ⟨x, _, hi⟩ := List.mem_flatMap.mp hi
    obtain ⟨hres, rfl⟩ := mem_residentRegion.mp hi
    rw [Region.stage, if_pos hres]
  | 0, hi => absurd hi List.not_mem_nil
  | _ + 9, hi => absurd hi List.not_mem_nil

/-- **One stage.** -/
theorem stage_runs {f : Bytes → Exec ε Bytes} {k : Nat} (hk : k ≠ 0)
    (h : b.arena.Settles b.firstContent b.linkedContent (stageRegions b k) f) :
    b.arena.Runs f (Arena.staged Region.stage b.firstContent b.linkedContent k)
      (Arena.staged Region.stage b.firstContent b.linkedContent (k + 1)) := by
  refine h.stage (fun i hi => stage_of_mem_stageRegions hi) fun i hi hstage => ?_
  cases i with
  | cell r =>
    rw [← hstage]
    exact mem_stageRegions (mem_roles.mp (mem_regions.mp hi)) (by rw [hstage]; exact hk)
  | _ => exact absurd hstage.symm hk

/-- Before the first stage nothing is linked. -/
theorem staged_one (b : TestHiveBuilder) :
    Arena.staged Region.stage b.firstContent b.linkedContent 1 = b.firstContent := by
  funext i
  unfold Arena.staged
  split
  · rename_i hlt
    have hzero : i.stage = 0 := by omega
    cases i with
    | cell r =>
      cases r with
      | data x => rfl
      | segment x k => rfl
      | lh p =>
        rw [Region.stage] at hzero
        split at hzero <;> cases hzero
      | vk x =>
        rw [Region.stage] at hzero
        split at hzero <;> cases hzero
      | _ => cases hzero
    | _ => rfl
  · rfl

/-- After the last stage everything is linked. -/
theorem staged_nine (b : TestHiveBuilder) :
    Arena.staged Region.stage b.firstContent b.linkedContent 9 = b.linkedContent := by
  funext i
  refine if_pos ?_
  unfold Region.stage
  split <;> (try split) <;> omega

/-- **Linking** takes the file from the allocated bodies to the linked ones. -/
theorem link_runs (h : b.Valid) {n : Nat} (hn : b.depth < n) :
    b.arena.Runs (fun buf => (b.planOf.link n buf : Exec ε Bytes)) b.firstContent
      b.linkedContent := by
  have hroot : Role.root ∈ b.roles := mem_roles.mpr trivial
  have hfun : (fun buf => (b.planOf.link n buf : Exec ε Bytes)) = fun buf =>
      b.planOf.linkRoot buf >>= fun buf =>
      b.planOf.linkChildren n b.planOf.tree.rootChildren [] (b.address .root) (b.address .sk)
        buf >>= fun buf => fillRootLh b buf >>= fun buf =>
      b.planOf.fillLhRecursive n b.planOf.tree.rootChildren [] buf >>= fun buf =>
      b.planOf.cells.vkMap.toList.foldlM b.planOf.fillValuesList buf >>= fun buf =>
      b.planOf.cells.dataCellIds.toList.foldlM b.planOf.linkData buf >>= fun buf =>
      b.planOf.cells.bigDataLinks.foldlM b.planOf.linkBigData buf >>= fun buf =>
      b.planOf.tree.values.toList.foldlM b.planOf.writeResidents buf := by
    funext buf
    unfold Plan.link fillRootLh
    rw [show b.planOf.rootId = b.idOf .root from rfl, show b.planOf.skId = b.idOf .sk from rfl,
      cellOffset_eq hroot, cellOffset_eq (sk_mem b)]
    cases b.planOf.lhIds[([] : Str)]? <;> rfl
  have hlinked := (stage_runs (k := 1) (by decide) (@linkRoot_settles b ε h)).bind <|
    (stage_runs (k := 2) (by decide) (@linkChildren_settles b ε h n hn)).bind <|
    (stage_runs (k := 3) (by decide) (@fillRootLh_settles b ε h)).bind <|
    (stage_runs (k := 4) (by decide) (@fillLhRecursive_settles b ε h n hn)).bind <|
    (stage_runs (k := 5) (by decide) (@fillValuesLists_settles ε b)).bind <|
    (stage_runs (k := 6) (by decide) (@linkData_settles ε b)).bind <|
    (stage_runs (k := 7) (by decide) (@linkBigData_settles ε b)).bind <|
    stage_runs (k := 8) (by decide) (@writeResidents_settles ε b)
  rw [staged_one, staged_nine] at hlinked
  rw [hfun]
  exact hlinked

end Linking

end Winreg.TestUtil
