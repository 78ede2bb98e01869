/-
  CHANGES between two key trees: what the diff computes, without hives.

  1. **Values** — `valueChanges` is the list of value changes between two lists of values: one for
     each pair with other data or another type and one for each value without a counterpart.
  2. **Keys** — `KeyTree.changes` is the list of changes between two trees, each with the names on
     the way to its key; `Change.entry` and `Change.count` turn a change into an entry of the result
     and into its effect on the counters.
  3. **Refinement** — on hives that read as trees, `diffHives` returns the result made of the
     changes between the trees (`diffHives_reads`).  The later modules only look at `changes`.
-/
import Winreg.Core.Tree
import Winreg.Diff.Engine

namespace Winreg

open Rust

/-! ## Values -/

/-- The text of a value. -/
def RegValue.display (v : RegValue) : Str :=
  match v.dataType with
  | .sz | .expandSz => decodeUtf16le v.data
  | .multiSz => List.intercalate " | ".toList (decodeMultiSz v.data)
  | _ => formatRaw v.dataType v.data

/-- What a diff keeps of a value: the name of its type, its text and its data. -/
def RegValue.snapshot (v : RegValue) : ValueSnapshot := ⟨v.dataType.name, v.display, v.data⟩

namespace Diff

/-- What a pair of values, or a value without a counterpart, is recorded as. -/
def valueChange : Aligned RegValue RegValue → List ValueDiff
  | .both l r =>
    if l.data ≠ r.data ∨ l.dataType ≠ r.dataType then
      [⟨l.name, .changed l.snapshot r.snapshot⟩]
    else []
  | .left l => [⟨l.name, .removed l.snapshot⟩]
  | .right r => [⟨r.name, .added r.snapshot⟩]

/-- The changes between the values of two keys. -/
def valueChanges (ls rs : List RegValue) : List ValueDiff :=
  (joinByKey RegValue.foldedName RegValue.foldedName ls rs).flatMap valueChange

/-! ## Keys -/

/-- A change of one key, with the names on the way to it. -/
inductive Change where
  | modified (path : List Str) (name : Str) (details : List ValueDiff)
  | removed (path : List Str)
  | added (path : List Str)
deriving DecidableEq, Repr

/-- The same change seen from the parent. -/
def Change.under (name : Str) : Change → Change
  | .modified path key details => .modified (name :: path) key details
  | .removed path => .removed (name :: path)
  | .added path => .added (name :: path)

/-- The change of a key that has these value changes. -/
def modifiedBy (name : Str) (details : List ValueDiff) : List Change :=
  if details ≠ [] then [.modified [] name details] else []

end Diff

/-- The changes from one tree to another. -/
def KeyTree.changes : KeyTree → KeyTree → List Diff.Change
  | .node name lvals lkids, .node _ rvals rkids =>
    Diff.modifiedBy name (Diff.valueChanges lvals rvals) ++
      (joinByKey foldedName foldedName lkids rkids).attach.flatMap fun
        | ⟨.both l r, _⟩ => (changes l r).map (.under l.name)
        | ⟨.left l, _⟩ => [.removed [l.name]]
        | ⟨.right r, _⟩ => [.added [r.name]]
termination_by l => l
decreasing_by
  rename_i h
  have hmem := List.sizeOf_lt_of_mem ((mem_of_joinByKey h).1 l rfl)
  simp only [node.sizeOf_spec]
  omega

namespace Diff

/-- What a pair of subkeys, or a subkey without a counterpart, is recorded as. -/
def keyChange : Aligned KeyTree KeyTree → List Change
  | .both l r => (l.changes r).map (.under l.name)
  | .left l => [.removed [l.name]]
  | .right r => [.added [r.name]]

/-- The changes between two trees, one layer at a time: those of the values of the two roots, then
    those of the aligned children. -/
theorem changes_node (name rname : Str) (lvals rvals : List RegValue) (lkids rkids : List KeyTree) :
    (KeyTree.node name lvals lkids).changes (.node rname rvals rkids) =
      modifiedBy name (valueChanges lvals rvals) ++
        (joinByKey KeyTree.foldedName KeyTree.foldedName lkids rkids).flatMap keyChange := by
  rw [KeyTree.changes, List.flatMap_subtype (g := keyChange), List.unattach_attach]
  intro x h
  cases x <;> rfl

/-- The text of a path below `current`. -/
def pathText (current : Str) (path : List Str) : Str := path.foldl childPath current

/-- The entry of a change below `current`.  The root has no path; its entry has its name. -/
def Change.entry (current : Str) : Change → DiffEntry
  | .modified path name details =>
    ⟨if pathText current path = [] then name else pathText current path, .keyModified, details⟩
  | .removed path => ⟨pathText current path, .keyRemoved, []⟩
  | .added path => ⟨pathText current path, .keyAdded, []⟩

/-- The entry of the two roots, if their values differ. -/
def rootEntry (name : Str) (details : List ValueDiff) : List DiffEntry :=
  if details ≠ [] then [⟨name, .keyModified, details⟩] else []

/-- The effect of a change on the counters. -/
def Change.count (stats : DiffStats) : Change → DiffStats
  | .modified _ _ details =>
    let stats := details.foldl countValueDiff stats
    { stats with keysModified := stats.keysModified + 1 }
  | .removed _ => { stats with keysRemoved := stats.keysRemoved + 1 }
  | .added _ => { stats with keysAdded := stats.keysAdded + 1 }

/-- Record a change. -/
def Delta.record (current : Str) (delta : Delta) (c : Change) : Delta :=
  ⟨delta.entries ++ [c.entry current], c.count delta.stats⟩

/-- Recording changes one after the other appends their entries and counts each of them once; the
    accumulator is nowhere read. -/
theorem foldl_record (current : Str) (cs : List Change) (delta : Delta) :
    cs.foldl (Delta.record current) delta =
      ⟨delta.entries ++ cs.map (Change.entry current), cs.foldl Change.count delta.stats⟩ := by
  induction cs generalizing delta with
  | nil => simp
  | cons c cs ih => rw [List.foldl_cons, ih]; simp [Delta.record]

/-- Recording a change of a child is recording it below the child's path. -/
theorem record_under (current name : Str) (delta : Delta) (c : Change) :
    delta.record current (c.under name) = delta.record (childPath current name) c := by
  cases c <;> rfl

/-- Recording the changes of a child under its name is recording them at the child's path. -/
theorem foldl_record_under (current name : Str) (cs : List Change) (delta : Delta) :
    (cs.map (Change.under name)).foldl (Delta.record current) delta =
      cs.foldl (Delta.record (childPath current name)) delta := by
  rw [List.foldl_map]
  exact congrArg (fun f => cs.foldl f delta) (funext₂ (record_under current name))

/-- Recording the value changes of a key is recording its change. -/
theorem recordValueDiffs_eq (left : Key) (current : Str) (delta : Delta)
    (details : List ValueDiff) :
    recordValueDiffs left current delta details =
      (modifiedBy left.name details).foldl (Delta.record current) delta := by
  unfold recordValueDiffs modifiedBy
  split <;> rfl

/-! ## Refinement -/

/-- The text of a value depends on what is read of the value only, not on where its data is
    stored. -/
theorem formatValue_reads {r : CellReader} {val : Value} {v : RegValue} (h : ReadsValue r val v) :
    formatValue r val.dataType v.data val = .ok v.display := by
  unfold formatValue RegValue.display Value.asString Value.asMultiString
  rw [h.dataType, h.data]
  cases v.dataType <;> rfl

/-- The snapshot of a value that can be read. -/
theorem valueToSnapshot_reads {r : CellReader} {val : Value} {v : RegValue}
    (h : ReadsValue r val v) : valueToSnapshot r val = .ok v.snapshot := by
  unfold valueToSnapshot
  rw [h.data, Exec.unwrapOr_ok, Exec.ok_bind]
  dsimp only
  rw [formatValue_reads h, Exec.ok_bind, h.dataType]
  rfl

/-- The merge of the values of two keys compares the folded names of the values that are read. -/
theorem valueOrder_reads {r : CellReader} (val : Value) (v : RegValue) (h : ReadsValue r val v) :
    valueOrder val = v.foldedName := congrArg toAsciiUppercase h.name

/-- The merge of the subkeys compares the folded names of the trees that are read. -/
theorem keyOrder_reads {r : CellReader} (key : Key) (t : KeyTree) (h : Reads r key t) :
    keyOrder key = t.foldedName := congrArg toAsciiUppercase h.name_eq

/-- What the comparison does with a pair of values, or with a value without a counterpart. -/
theorem valueHandlers_reads {rl rr : CellReader} {x : Aligned Value Value}
    {y : Aligned RegValue RegValue} (h : Aligned.Rel (ReadsValue rl) (ReadsValue rr) x y)
    (diffs : List ValueDiff) :
    (valueHandlers rl rr).run diffs x = .ok (diffs ++ valueChange y) := by
  cases h with
  | both hl hr =>
    show diffValue rl rr diffs _ _ = _
    unfold diffValue
    simp only [valueChange]
    rw [hl.data, hr.data, Exec.unwrapOr_ok, Exec.unwrapOr_ok, Exec.ok_bind, Exec.ok_bind,
      hl.dataType, hr.dataType, valueToSnapshot_reads hl, valueToSnapshot_reads hr, hl.name]
    split
    · rfl
    · rw [List.append_nil]
  | left hl =>
    show (valueToSnapshot rl _ >>= _) = _
    rw [valueToSnapshot_reads hl, Exec.ok_bind, hl.name]
    rfl
  | right hr =>
    show (valueToSnapshot rr _ >>= _) = _
    rw [valueToSnapshot_reads hr, Exec.ok_bind, hr.name]
    rfl

/-- **Comparing the values of two keys** gives the changes between the values. -/
theorem diffValues_reads {rl rr : CellReader} {left right : Key} {lvals rvals : List Value}
    {ls rs : List RegValue} (hl : left.values rl = .ok lvals) (hr : right.values rr = .ok rvals)
    (hls : List.Forall₂ (ReadsValue rl) lvals ls) (hrs : List.Forall₂ (ReadsValue rr) rvals rs) :
    diffValues rl rr left right = .ok (valueChanges ls rs) := by
  have hrel := joinByKey_rel valueOrder_reads valueOrder_reads hls hrs
  have hstep : ∀ x y, Aligned.Rel (ReadsValue rl) (ReadsValue rr) x y → ∀ diffs,
      Exec.Evals (fun _ => (valueHandlers rl rr).run diffs x) (.ok (diffs ++ valueChange y)) := by
    intro x y hxy diffs
    rw [valueHandlers_reads hxy]
    exact Exec.Evals.const _
  have hfold := Exec.Evals.foldlM hrel hstep []
  unfold diffValues valueChanges
  rw [hl, hr, Exec.ok_bind, Exec.ok_bind, mergeJoin_sorted, List.flatMap_eq_foldl]
  exact (Exec.Evals.const _).unique hfold

/-- A comparison of two keys records the changes between two trees. -/
def Records (rl rr : CellReader) (left right : Key) (tl tr : KeyTree) : Prop :=
  ∀ path delta, Exec.Evals (fun n => diffKeyRecursive rl rr n left right path delta)
    (.ok ((tl.changes tr).foldl (Delta.record path) delta))

/-- Joining subkeys that are compared correctly records the changes below the key. -/
theorem mergeJoinSubkeys_reads {rl rr : CellReader} {kidsL kidsR : List Key}
    {ls rs : List KeyTree}
    (hl : List.Forall₂ (fun l tl => Reads rl l tl ∧
      ∀ {r tr}, Reads rr r tr → Records rl rr l r tl tr) kidsL ls)
    (hr : List.Forall₂ (Reads rr) kidsR rs) (path : Str) (delta : Delta) :
    Exec.Evals (fun n => mergeJoinSubkeys (diffKeyRecursive rl rr n) (sortByKey keyOrder kidsL)
        (sortByKey keyOrder kidsR) path delta)
      (.ok (((joinByKey KeyTree.foldedName KeyTree.foldedName ls rs).flatMap keyChange).foldl
        (Delta.record path) delta)) := by
  have hrel := joinByKey_rel (fun l tl h => keyOrder_reads l tl h.1) keyOrder_reads hl hr
  simp only [mergeJoinSubkeys, mergeJoin_sorted]
  rw [List.foldl_flatMap]
  refine Exec.Evals.foldlM hrel (fun x y hxy delta => ?_) delta
  cases hxy with
  | both hl hr =>
    -- a pair: the recursion, below the name of the left key
    rw [keyChange, foldl_record_under, ← hl.1.name_eq]
    exact hl.2 hr _ delta
  | left hl =>
    rw [keyChange, ← hl.1.name_eq]
    exact Exec.Evals.const _
  | right hr =>
    rw [keyChange, ← hr.name_eq]
    exact Exec.Evals.const _

/-- **Comparing two keys that read as trees** records the changes between the trees. -/
theorem diffKeyRecursive_reads {rl rr : CellReader} {left : Key} {tl : KeyTree}
    (hl : Reads rl left tl) : ∀ {right : Key} {tr : KeyTree}, Reads rr right tr →
      Records rl rr left right tl tr := by
  induction hl with
  | node hvalsL hvaluesL hkidsL hlengthL hchildrenL ih =>
    intro right tr hr path delta
    cases hr with
    | node hvalsR hvaluesR hkidsR hlengthR hchildrenR =>
      refine Exec.Evals.of_succ ?_
      simp only [diffKeyRecursive, diffValues_reads hvalsL hvalsR hvaluesL hvaluesR,
        Exec.ok_bind, recordValueDiffs_eq]
      rw [changes_node, List.foldl_append]
      refine Exec.Evals.bind hkidsL (Exec.Evals.bind hkidsR ?_)
      refine mergeJoinSubkeys_reads ?_ (forall₂_of_zip hlengthR hchildrenR) path _
      exact List.forall₂_iff_zip.mpr
        ⟨hlengthL, fun hp => ⟨hchildrenL _ hp, fun hr => ih _ hp hr⟩⟩

/-- The result made of a list of changes. -/
def resultOf (leftLabel rightLabel : Str) (changes : List Change) : DiffResult :=
  ⟨leftLabel, rightLabel, changes.map (Change.entry []), changes.foldl Change.count {}⟩

/-- **Comparing two hives that read as trees** returns the result made of the changes between the
    trees. -/
theorem diffHives_reads {left right : Hive} {tl tr : KeyTree} (hl : left.ReadsTree tl)
    (hr : right.ReadsTree tr) (leftLabel rightLabel : Str) :
    Exec.Evals (fun n => diffHives n left right leftLabel rightLabel)
      (.ok (resultOf leftLabel rightLabel (tl.changes tr))) := by
  obtain ⟨rootL, hrootL, hreadsL⟩ := hl
  obtain ⟨rootR, hrootR, hreadsR⟩ := hr
  have hrec := diffKeyRecursive_reads hreadsL hreadsR [] ⟨[], {}⟩
  simp only [diffHives, hrootL, hrootR, Exec.ok_bind]
  refine Exec.Evals.bind hrec ?_
  rw [foldl_record]
  exact Exec.Evals.const _

end Diff

end Winreg
