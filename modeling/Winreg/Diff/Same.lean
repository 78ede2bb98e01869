/-
  WHEN A DIFF IS EMPTY.

  1. **Contents** — what a key tree says up to the case of names and the order on disk: a partial
     map from folded paths to partial maps from folded value names to typed data (`contents`).
  2. **Empty diffs** — there are no changes between two trees exactly when their contents are the
     same map (`changes_eq_nil_iff`), by induction on the tree; at each level the join of the
     children, and of the values, must consist of pairs.
  3. **Order** — reordering subkeys and values anywhere in a tree does not change the changes
     (`changes_reordered`).
-/
import Winreg.Diff.Changes

namespace Winreg

open Rust

/-! ## Contents -/

namespace KeyTree

/-- The subkey with a folded name. -/
def child (t : KeyTree) (name : Str) : Option KeyTree := findByKey foldedName t.children name

/-- The type and the data of the value with a folded name. -/
def valueNamed (t : KeyTree) (name : Str) : Option (ValueType × Bytes) :=
  (findByKey RegValue.foldedName t.values name).map fun v => (v.dataType, v.data)

/-- The key at a folded path. -/
def at? : KeyTree → List Str → Option KeyTree
  | t, [] => some t
  | t, name :: path => (t.child name).bind fun c => at? c path

/-- The contents of a tree: the values of the key at each folded path. -/
def contents (t : KeyTree) (path : List Str) : Option (Str → Option (ValueType × Bytes)) :=
  (t.at? path).map valueNamed

/-- **Two trees are the same** below their roots, up to the case of names and to order: the same
    paths, at each path the same value names, and for each name the same type and data. -/
def Same (l r : KeyTree) : Prop := l.contents = r.contents

/-- The contents below a name are those of the child with that name. -/
theorem contents_cons (t : KeyTree) (name : Str) (path : List Str) :
    t.contents (name :: path) = (t.child name).bind fun c => c.contents path := by
  show ((t.child name).bind fun c => c.at? path).map valueNamed = _
  rw [Option.map_bind]
  rfl

/-- Trees are the same when their values are and the children of each name are. -/
theorem same_iff {l r : KeyTree} :
    Same l r ↔ l.valueNamed = r.valueNamed ∧ ∀ name, Option.Rel Same (l.child name) (r.child name)
    := by
  constructor
  · intro h
    refine ⟨Option.some.inj (congrFun h []), fun name => ?_⟩
    -- the contents below a name are those of the child of that name
    have hname : ∀ path, (l.child name).bind (fun c => c.contents path) =
        (r.child name).bind fun c => c.contents path := by
      intro path
      rw [← contents_cons, ← contents_cons]
      exact congrFun h _
    cases hl : l.child name with
    | none =>
      cases hr : r.child name with
      | none => exact .none
      | some b => rw [hl, hr] at hname; cases hname []
    | some a =>
      cases hr : r.child name with
      | none => rw [hl, hr] at hname; cases hname []
      | some b =>
        rw [hl, hr] at hname
        exact .some (funext hname)
  · rintro ⟨hvalues, hchildren⟩
    funext path
    cases path with
    | nil => exact congrArg some hvalues
    | cons name path =>
      have hrel := hchildren name
      rw [contents_cons, contents_cons]
      generalize l.child name = a at hrel ⊢
      generalize r.child name = b at hrel ⊢
      cases hrel with
      | none => rfl
      | some hsame => exact congrFun hsame path

end KeyTree

namespace Diff

/-! ## Empty diffs -/

/-- Two values with the same data and type. -/
def SameData (l r : RegValue) : Prop := l.data = r.data ∧ l.dataType = r.dataType

/-- An aligned pair of values gives no change exactly when both are there and hold the same data. -/
theorem valueChange_eq_nil_iff (x : Aligned RegValue RegValue) :
    valueChange x = [] ↔ x.Paired SameData := by
  cases x with
  | both l r =>
    simp only [valueChange, Aligned.Paired, SameData]
    split
    · rename_i h
      exact ⟨fun hnil => absurd hnil (List.cons_ne_nil _ _), fun hsame => by simp_all⟩
    · rename_i h
      exact ⟨fun _ => by simpa using h, fun _ => rfl⟩
  | left l => exact ⟨fun h => absurd h (List.cons_ne_nil _ _), False.elim⟩
  | right r => exact ⟨fun h => absurd h (List.cons_ne_nil _ _), False.elim⟩

/-- Two keys have no value changes exactly when their values have the same names, types and
    data. -/
theorem valueChanges_eq_nil_iff {l r : KeyTree} (hl : l.Distinct) (hr : r.Distinct) :
    valueChanges l.values r.values = [] ↔ l.valueNamed = r.valueNamed := by
  unfold valueChanges
  rw [List.flatMap_eq_nil_iff]
  simp only [valueChange_eq_nil_iff]
  rw [forall_paired_joinByKey_iff hl.values hr.values, funext_iff]
  refine forall_congr' fun name => ?_
  unfold KeyTree.valueNamed
  cases findByKey RegValue.foldedName l.values name with
  | none =>
    cases findByKey RegValue.foldedName r.values name with
    | none => exact ⟨fun _ => rfl, fun _ => .none⟩
    | some b => exact ⟨fun h => (by cases h), fun h => (by cases h)⟩
  | some a =>
    cases findByKey RegValue.foldedName r.values name with
    | none => exact ⟨fun h => (by cases h), fun h => (by cases h)⟩
    | some b => simp [SameData, and_comm]

/-- A key is not reported as modified exactly when no value is. -/
theorem modifiedBy_eq_nil_iff {name : Str} {details : List ValueDiff} :
    modifiedBy name details = [] ↔ details = [] := by
  unfold modifiedBy
  split
  · rename_i h
    exact ⟨fun hnil => absurd hnil (List.cons_ne_nil _ _), fun hd => absurd hd h⟩
  · rename_i h
    exact ⟨fun _ => not_not.mp h, fun _ => rfl⟩

/-- The pairs of a join record nothing, and nothing else is in the join. -/
theorem keyChange_eq_nil_iff (x : Aligned KeyTree KeyTree) :
    keyChange x = [] ↔ x.Paired fun l r => l.changes r = [] := by
  cases x with
  | both l r => exact List.map_eq_nil_iff
  | left l => exact ⟨fun h => absurd h (List.cons_ne_nil _ _), False.elim⟩
  | right r => exact ⟨fun h => absurd h (List.cons_ne_nil _ _), False.elim⟩

/-- Two relations that agree on the elements at hand relate the same options. -/
theorem optionRel_congr {α β : Type} {P Q : α → β → Prop} {x : Option α} {y : Option β}
    (h : ∀ a ∈ x, ∀ b ∈ y, (P a b ↔ Q a b)) : Option.Rel P x y ↔ Option.Rel Q x y := by
  constructor
  · intro hP
    cases hP with
    | none => exact .none
    | some hab => exact .some ((h _ rfl _ rfl).mp hab)
  · intro hQ
    cases hQ with
    | none => exact .none
    | some hab => exact .some ((h _ rfl _ rfl).mpr hab)

/-- **There are no changes between two trees exactly when they are the same.** -/
theorem changes_eq_nil_iff {l : KeyTree} (hl : l.Distinct) :
    ∀ {r : KeyTree}, r.Distinct → (l.changes r = [] ↔ l.Same r) := by
  induction hl with
  | @node name values children hvalues hchildren hbelow ih =>
    intro r hr
    have hl : (KeyTree.node name values children).Distinct := .node hvalues hchildren hbelow
    cases r with
    | node rname rvals rkids =>
      rw [changes_node, List.append_eq_nil_iff, modifiedBy_eq_nil_iff, KeyTree.same_iff,
        List.flatMap_eq_nil_iff, ← valueChanges_eq_nil_iff hl hr]
      refine and_congr Iff.rfl ?_
      simp only [keyChange_eq_nil_iff]
      have hjoin := forall_paired_joinByKey_iff hl.children hr.children
        (P := fun l r => l.changes r = [])
      refine hjoin.trans (forall_congr' fun key => optionRel_congr fun a ha b hb => ?_)
      have hamem : a ∈ children := List.mem_of_find?_eq_some ha
      have hbmem : b ∈ rkids := List.mem_of_find?_eq_some hb
      exact ih a hamem (hr.of_mem b hbmem)

/-! ## Order -/

end Diff

/-- The same tree with subkeys and values listed in another order, at any of its keys. -/
inductive KeyTree.Reordered : KeyTree → KeyTree → Prop where
  | node {name : Str} {values values' : List RegValue} {children order children' : List KeyTree}
      (hvalues : values.Perm values') (horder : children.Perm order)
      (hlength : order.length = children'.length)
      (hchildren : ∀ p ∈ order.zip children', Reordered p.1 p.2) :
      Reordered (.node name values children) (.node name values' children')

/-- Reordering what is below a key leaves its name. -/
theorem KeyTree.Reordered.name_eq {t t' : KeyTree} (h : t.Reordered t') : t.name = t'.name := by
  cases h; rfl

namespace Diff

/-- Lists that are related element by element have the same flat map under functions that agree on
    related elements. -/
theorem flatMap_eq_of_forall₂ {α α' β : Type} {R : α → α' → Prop} {f : α → List β}
    {g : α' → List β} (hfg : ∀ x y, R x y → f x = g y) {xs : List α} {ys : List α'}
    (h : List.Forall₂ R xs ys) : xs.flatMap f = ys.flatMap g := by
  induction h with
  | nil => rfl
  | cons hxy _ ih => rw [List.flatMap_cons, List.flatMap_cons, hfg _ _ hxy, ih]

/-- **Reordering subkeys and values does not change the changes.** -/
theorem changes_reordered {l l' : KeyTree} (hl : l.Reordered l') :
    ∀ {r r' : KeyTree}, r.Reordered r' → l.Distinct → r.Distinct →
      l.changes r = l'.changes r' := by
  induction hl with
  | @node name lvals lvals' lkids lorder lkids' hvaluesL horderL hlengthL hchildrenL ih =>
    intro r r' hr dl dr
    cases hr with
    | @node rname rvals rvals' rkids rorder rkids' hvaluesR horderR hlengthR hchildrenR =>
      have hvalues : valueChanges lvals rvals = valueChanges lvals' rvals' :=
        congrArg (List.flatMap valueChange)
          (joinByKey_eq_of_perm hvaluesL hvaluesR dl.values dr.values)
      -- related children have the same name, and the same changes to related children
      have hrelL : List.Forall₂ (fun a a' => a.Reordered a' ∧ ∀ {b b' : KeyTree},
          b.Reordered b' → b.Distinct → a.changes b = a'.changes b') lorder lkids' :=
        List.forall₂_iff_zip.mpr ⟨hlengthL, fun {a a'} hp => ⟨hchildrenL _ hp, fun hb db =>
          ih _ hp hb (dl.of_mem a (horderL.mem_iff.mpr (List.of_mem_zip hp).1)) db⟩⟩
      have hrelR : List.Forall₂ (fun b b' => b.Reordered b' ∧ b.Distinct) rorder rkids' :=
        List.forall₂_iff_zip.mpr ⟨hlengthR, fun {b b'} hp => ⟨hchildrenR _ hp,
          dr.of_mem b (horderR.mem_iff.mpr (List.of_mem_zip hp).1)⟩⟩
      have hfolded : ∀ {a a' : KeyTree}, a.Reordered a' → a.foldedName = a'.foldedName :=
        fun h => congrArg toAsciiUppercase h.name_eq
      have hjoin := joinByKey_rel (fun a a' h => hfolded h.1) (fun b b' h => hfolded h.1)
        hrelL hrelR
      have hkids := flatMap_eq_of_forall₂ (f := keyChange) (g := keyChange) (fun x y hxy => by
        cases hxy with
        | both ha hb => rw [keyChange, keyChange, ha.2 hb.1 hb.2, ha.1.name_eq]
        | left ha => rw [keyChange, keyChange, ha.1.name_eq]
        | right hb => rw [keyChange, keyChange, hb.1.name_eq]) hjoin
      rw [changes_node, changes_node, hvalues,
        joinByKey_eq_of_perm horderL horderR dl.children dr.children, hkids]

/-- **A diff is empty exactly when the two trees are the same** up to the case of names and to
    order; the result depends on the trees only, whatever their order on disk.  The diff refines the
    comparison of the two trees that are read, and that comparison is empty, by induction on the
    left tree, exactly where both merges pair all values and all children. -/
theorem diffHives_empty_iff_same {left right : Hive} {tl tr : KeyTree} (hl : left.ReadsTree tl)
    (hr : right.ReadsTree tr) (dl : tl.Distinct) (dr : tr.Distinct) (leftLabel rightLabel : Str) :
    ∃ result, Exec.Evals (fun n => diffHives n left right leftLabel rightLabel) (.ok result) ∧
      (result.entries = [] ∧ result.stats = {} ↔ tl.Same tr) ∧
      (result.entries = [] ↔ tl.Same tr) ∧
      ∀ (left' right' : Hive) (tl' tr' : KeyTree), left'.ReadsTree tl' → right'.ReadsTree tr' →
        tl.Reordered tl' → tr.Reordered tr' →
        Exec.Evals (fun n => diffHives n left' right' leftLabel rightLabel) (.ok result) := by
  have hentries : (resultOf leftLabel rightLabel (tl.changes tr)).entries = [] ↔ tl.Same tr :=
    List.map_eq_nil_iff.trans (changes_eq_nil_iff dl dr)
  refine ⟨_, diffHives_reads hl hr leftLabel rightLabel, ?_, hentries, ?_⟩
  · refine ⟨fun h => hentries.mp h.1, fun h => ⟨hentries.mpr h, ?_⟩⟩
    show (tl.changes tr).foldl Change.count {} = {}
    rw [(changes_eq_nil_iff dl dr).mpr h, List.foldl_nil]
  · intro left' right' tl' tr' hl' hr' hreL hreR
    rw [changes_reordered hreL hreR dl dr]
    exact diffHives_reads hl' hr' leftLabel rightLabel

/-! ## Two hives -/

/-- A root key without values and subkeys. -/
def bareCells : Bytes := cellBytes (-80) (nkRecordBytes 0x20 0 0xFFFFFFFF 0 0xFFFFFFFF [])

/-- A root key, its `lh` index, the subkey `A`, its `lh` index, the subkey `B` of `A`, its values
    list, and the value `V`. -/
def nestedCells : Bytes :=
  cellBytes (-80) (nkRecordBytes 0x20 1 112 0 0xFFFFFFFF []) ++
    cellBytes (-16) ([0x6C, 0x68] ++ u16Bytes 1 ++ u32Bytes 128 ++ u32Bytes 65) ++
    cellBytes (-88) (nkRecordBytes 0x20 1 216 0 0xFFFFFFFF [0x41] ++ List.replicate 7 0) ++
    cellBytes (-16) ([0x6C, 0x68] ++ u16Bytes 1 ++ u32Bytes 232 ++ u32Bytes 66) ++
    cellBytes (-88) (nkRecordBytes 0x20 0 0xFFFFFFFF 1 320 [0x42] ++ List.replicate 7 0) ++
    cellBytes (-8) (u32Bytes 328) ++
    cellBytes (-32) (vkRecordBytes 0x80000004 0x2A 4 [0x56] ++ List.replicate 7 0)

/-- A hive of a bare root. -/
def bareHive : Hive := oneBinHive 32 bareCells
/-- A hive with the keys `A` and `A\B` and a value of `B`. -/
def nestedHive : Hive := oneBinHive 32 nestedCells

/-- The trees of the two hives. -/
def bareTree : KeyTree := .node [] [] []
/-- What is read of it. -/
def nestedTree : KeyTree :=
  .node [] [] [.node ['A'] [] [.node ['B'] [⟨['V'], .dword, [0x2A, 0, 0, 0]⟩] []]]

/-- Its root, which lists `A`. -/
def nestedRoot : Key := ⟨nkRecord ⟨0x20⟩ 1 112 0 0xFFFFFFFF [], ⟨32⟩⟩
/-- The key `A`, which lists `B`. -/
def nestedA : Key := ⟨nkRecord ⟨0x20⟩ 1 216 0 0xFFFFFFFF [0x41], ⟨128⟩⟩
/-- The key `B`, which lists the value. -/
def nestedB : Key := ⟨nkRecord ⟨0x20⟩ 0 0xFFFFFFFF 1 320 [0x42], ⟨232⟩⟩
/-- The value. -/
def nestedV : Value :=
  ⟨⟨1, 0x80000004, 0x2A, .dword, ⟨1⟩, [0x56]⟩, ⟨328⟩⟩

/-- The bare image is read as the bare tree. -/
theorem bareHive_readsTree : bareHive.ReadsTree bareTree := by
  have hread : bareHive.reader.readCell ⟨32⟩ =
      .ok (.keyNode (nkRecord ⟨0x20⟩ 0 0xFFFFFFFF 0 0xFFFFFFFF [])) :=
    Hive.readCell_oneBin 0 80 (by decide) rfl (by decide) (by decide) (by decide)
      (by decide)
  exact ⟨⟨nkRecord ⟨0x20⟩ 0 0xFFFFFFFF 0 0xFFFFFFFF [], ⟨32⟩⟩, Hive.rootKey_eq hread rfl,
    .leaf rfl rfl⟩

/-- The cells fit into the bin. -/
theorem length_nestedCells : nestedCells.length = 328 := by decide +kernel

/-- Every cell of `nestedHive` that is read as a typed cell. -/
theorem nestedHive_readCell :
    nestedRoot.AtOffset nestedHive.reader ∧ nestedA.AtOffset nestedHive.reader ∧
    nestedB.AtOffset nestedHive.reader ∧
    nestedHive.reader.readCell ⟨112⟩ = .ok (.index (.hashLeaf [⟨⟨128⟩, 65⟩])) ∧
    nestedHive.reader.readCell ⟨216⟩ = .ok (.index (.hashLeaf [⟨⟨232⟩, 66⟩])) ∧
    nestedHive.reader.readCell nestedV.offset = .ok (.keyValue nestedV.vk) := by
  have hlen := length_nestedCells
  refine ⟨?_, ?_, ?_, ?_, ?_, ?_⟩
  · exact Hive.readCell_oneBin 0 80 (by omega) rfl (by decide) (by omega) (by decide)
      (by decide)
  · exact Hive.readCell_oneBin 96 88 (by omega) rfl (by decide) (by omega) (by decide)
      (by decide)
  · exact Hive.readCell_oneBin 200 88 (by omega) rfl (by decide) (by omega) (by decide)
      (by decide)
  · exact Hive.readCell_oneBin 80 16 (by omega) rfl (by decide) (by omega) (by decide)
      (by decide)
  · exact Hive.readCell_oneBin 184 16 (by omega) rfl (by decide) (by omega) (by decide)
      (by decide)
  · exact Hive.readCell_oneBin 296 32 (by omega) rfl (by decide) (by omega) (by decide)
      (by decide)

/-- The value list of `B` names the one value. -/
theorem nestedB_values : nestedB.values nestedHive.reader = .ok [nestedV] := by
  have hlen := length_nestedCells
  have hlist : nestedHive.reader.readCellRaw ⟨320⟩ =
      .ok (⟨-(8 : Nat)⟩, bytesAt nestedCells 292 4) :=
    Hive.readCellRaw_oneBin (k := 288) (by omega) rfl (by decide) (by omega) (by decide)
  have hoff : nestedV.offset = ⟨leU32 (bytesAt nestedCells 292 4) 0⟩ := by decide
  refine values_of_listed rfl (by simp) rfl hlist (by decide) fun i hi => ?_
  obtain rfl : i = 0 := by simpa using hi
  exact ⟨hoff, nestedHive_readCell.2.2.2.2.2⟩

/-- The image is read as the tree, from the leaf up. -/
theorem nestedHive_readsTree : nestedHive.ReadsTree nestedTree := by
  obtain ⟨hroot, hA, hB, hindexRoot, hindexA, _⟩ := nestedHive_readCell
  have hleafB : Reads nestedHive.reader nestedB
      (.node nestedB.name [⟨['V'], .dword, [0x2A, 0, 0, 0]⟩] []) := by
    have hnone : Exec.Evals (fun n => nestedB.subkeys nestedHive.reader n) (.ok []) :=
      ⟨0, fun n _ => if_pos (Or.inl rfl)⟩
    exact .node nestedB_values (.cons ⟨by decide, rfl, by decide⟩ .nil) hnone rfl
      (fun p hp => absurd hp List.not_mem_nil)
  have hkid : ∀ (key kid : Key) {elements : List LhElement}, key.ListsSubkeys →
      nestedHive.reader.readCell key.node.subkeysListOffset = .ok (.index (.hashLeaf elements)) →
      elements.map (·.keyOffset) = [kid.offset] → kid.AtOffset nestedHive.reader →
      key.values nestedHive.reader = .ok [] → ∀ {t : KeyTree}, Reads nestedHive.reader kid t →
      Reads nestedHive.reader key (.node key.name [] [t]) := by
    intro key kid elements hkey hindex helements hat hvalues t ht
    have hlist : Lists nestedHive.reader key.node.subkeysListOffset [kid.offset] :=
      .leaf hindex (congrArg some helements)
    refine .node hvalues .nil (subkeys_of_listed hkey hlist (.cons ⟨rfl, hat⟩ .nil)) rfl ?_
    intro p hp
    obtain rfl : p = (kid, t) := by simpa using hp
    exact ht
  have hreadA := hkid nestedA nestedB ⟨by decide, rfl⟩ hindexA rfl hB
    (if_pos (Or.inl rfl)) hleafB
  have hreadRoot := hkid nestedRoot nestedA ⟨by decide, rfl⟩ hindexRoot rfl hA
    (if_pos (Or.inl rfl)) hreadA
  exact ⟨nestedRoot, Hive.rootKey_eq hroot rfl, hreadRoot⟩

/-- The bare tree has no two siblings. -/
theorem bareTree_distinct : bareTree.Distinct :=
  .node .nil .nil fun _ hc => absurd hc List.not_mem_nil

/-- Nor has the other one. -/
theorem nestedTree_distinct : nestedTree.Distinct := by
  refine .node (by decide) (by decide) fun a ha => ?_
  obtain rfl := List.mem_singleton.mp ha
  refine .node (by decide) (by decide) fun b hb => ?_
  obtain rfl := List.mem_singleton.mp hb
  exact .node (by decide) (by decide) fun _ hc => absurd hc List.not_mem_nil

/-- The samples differ: the diff of the two hives is not empty, and neither is the comparison of
    their trees. -/
theorem diffHives_empty_iff_same_nested :
    ∃ result, Exec.Evals (fun n => diffHives n bareHive nestedHive [] []) (.ok result) ∧
      (result.entries = [] ∧ result.stats = {} ↔ bareTree.Same nestedTree) ∧
      (result.entries = [] ↔ bareTree.Same nestedTree) ∧
      ∀ (left' right' : Hive) (tl' tr' : KeyTree), left'.ReadsTree tl' → right'.ReadsTree tr' →
        bareTree.Reordered tl' → nestedTree.Reordered tr' →
        Exec.Evals (fun n => diffHives n left' right' [] []) (.ok result) :=
  diffHives_empty_iff_same bareHive_readsTree nestedHive_readsTree bareTree_distinct
    nestedTree_distinct [] []

end Diff

end Winreg
