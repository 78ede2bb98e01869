/-
  TALLIES: the six counters of a diff count what its entries report.

  The counters are kept next to the entries, one addition at a time.  In every diff that comes back,
  of whatever hives, each counter is the number of keys or values that the entries report of its
  kind, and only the entries of modified keys have details.

  1. **Kinds** — the six kinds of reports, the counter of each, and the reports of an entry.
  2. **Steps** — each of the three steps that record something keeps the tally.
  3. **Runs** — and so does every run of the comparison (`diffHives_tallied`).
-/
import Winreg.Diff.Engine

namespace Winreg

open Rust

namespace Diff

/-! ## Kinds -/

/-- What is reported: a key or one of its values, added, removed or modified. -/
inductive ReportKind where
  | key (kind : DiffKind)
  | value (kind : DiffKind)
deriving DecidableEq, Repr

/-- The counter of a kind. -/
def counter (stats : DiffStats) : ReportKind → Nat
  | .key .keyAdded => stats.keysAdded
  | .key .keyRemoved => stats.keysRemoved
  | .key .keyModified => stats.keysModified
  | .value .keyAdded => stats.valuesAdded
  | .value .keyRemoved => stats.valuesRemoved
  | .value .keyModified => stats.valuesChanged

/-- The kind of report that a change of a value is. -/
def valueKind (vd : ValueDiff) : DiffKind :=
  match vd.kind with
  | .added _ => .keyAdded
  | .removed _ => .keyRemoved
  | .changed _ _ => .keyModified

/-- The reports of an entry: its key, then its values. -/
def reports (entry : DiffEntry) : List ReportKind :=
  .key entry.kind :: entry.details.map fun vd => .value (valueKind vd)

/-- The counters count the reports, and the entries of modified keys are those with details. -/
structure Tallied (entries : List DiffEntry) (stats : DiffStats) : Prop where
  counter_eq : ∀ kind, counter stats kind = (entries.flatMap reports).count kind
  details : ∀ entry ∈ entries, entry.kind = .keyModified ↔ entry.details ≠ []

/-! ## Steps -/

/-- Counting one change of a value moves its own counter by one and no other. -/
theorem counter_countValueDiff (stats : DiffStats) (vd : ValueDiff) (kind : ReportKind) :
    counter (countValueDiff stats vd) kind =
      counter stats kind + if .value (valueKind vd) = kind then 1 else 0 := by
  obtain ⟨name, change⟩ := vd
  cases change <;> rcases kind with kind | kind <;> cases kind <;> rfl

/-- Counting a list of changes moves each counter by the number of changes of its kind.  By
    induction on the list, for any start: the counters are sums. -/
theorem counter_foldl (kind : ReportKind) : ∀ (diffs : List ValueDiff) (stats : DiffStats),
    counter (diffs.foldl countValueDiff stats) kind =
      counter stats kind + (diffs.map fun vd => ReportKind.value (valueKind vd)).count kind
  | [], _ => rfl
  | vd :: diffs, stats => by
    rw [List.foldl_cons, counter_foldl kind diffs, counter_countValueDiff, List.map_cons,
      List.count_cons]
    simp only [beq_iff_eq]
    omega

/-- A modified key moves the counter of modified keys and no other. -/
theorem counter_keysModified (stats : DiffStats) (kind : ReportKind) :
    counter { stats with keysModified := stats.keysModified + 1 } kind =
      counter stats kind + if .key .keyModified = kind then 1 else 0 := by
  rcases kind with kind | kind <;> cases kind <;> rfl

/-- One more entry. -/
theorem Tallied.push {entries : List DiffEntry} {stats stats' : DiffStats} {entry : DiffEntry}
    (h : Tallied entries stats)
    (hcounter : ∀ kind, counter stats' kind = counter stats kind + (reports entry).count kind)
    (hdetails : entry.kind = .keyModified ↔ entry.details ≠ []) :
    Tallied (entries ++ [entry]) stats' where
  counter_eq kind := by
    rw [hcounter, h.counter_eq, List.flatMap_append, List.count_append, List.flatMap_singleton]
  details other hother := by
    rcases List.mem_append.mp hother with hother | hother
    · exact h.details other hother
    · rw [List.mem_singleton.mp hother]
      exact hdetails

variable {delta : Delta} (h : Tallied delta.entries delta.stats)

include h

/-- Recording a removed subkey keeps the tally: one entry of that kind, and its counter one
    higher. -/
theorem tallied_recordRemoved (currentPath : Str) (key : Key) :
    Tallied (recordRemoved currentPath delta key).entries
      (recordRemoved currentPath delta key).stats := by
  refine h.push (fun kind => ?_) (by simp)
  rcases kind with kind | kind <;> cases kind <;> rfl

/-- Recording an added subkey keeps the tally. -/
theorem tallied_recordAdded (currentPath : Str) (key : Key) :
    Tallied (recordAdded currentPath delta key).entries
      (recordAdded currentPath delta key).stats := by
  refine h.push (fun kind => ?_) (by simp)
  rcases kind with kind | kind <;> cases kind <;> rfl

/-- Recording the changed values of a key keeps the tally: one entry for the key, which carries its
    details, and one count for the key and for each detail. -/
theorem tallied_recordValueDiffs (left : Key) (currentPath : Str) (diffs : List ValueDiff) :
    Tallied (recordValueDiffs left currentPath delta diffs).entries
      (recordValueDiffs left currentPath delta diffs).stats := by
  unfold recordValueDiffs
  -- a key without differences of its own has no entry
  by_cases hdiffs : diffs = []
  · rw [if_neg (by simpa using hdiffs)]
    exact h
  · rw [if_pos hdiffs]
    refine h.push (fun kind => ?_) (by simpa using hdiffs)
    have hfold := counter_foldl kind diffs delta.stats
    have hkey := counter_keysModified (diffs.foldl countValueDiff delta.stats) kind
    dsimp only at hkey ⊢
    rw [hkey, hfold, reports, List.count_cons]
    simp only [beq_iff_eq]
    omega

omit h

/-! ## Runs -/

/-- The invariant of the comparison, for any two keys: whatever has been recorded before, entries
    and counters agree, and they agree still when the comparison of two keys comes back.  By
    induction on the fuel; each of the three ways to record keeps the tally, and the merge only
    chains them. -/
theorem diffKeyRecursive_tallied (rl rr : CellReader) : ∀ (n : Nat) (left right : Key)
    (currentPath : Str) (delta delta' : Delta), Tallied delta.entries delta.stats →
      diffKeyRecursive rl rr n left right currentPath delta = .ok delta' →
        Tallied delta'.entries delta'.stats := by
  intro n
  induction n with
  | zero =>
    intro left right currentPath delta delta' _ hrun
    cases hrun
  | succ n ih =>
    intro left right currentPath delta delta' h hrun
    obtain ⟨diffs, _, hrun⟩ := Exec.bind_eq_ok.mp hrun
    obtain ⟨leftSubkeys, _, hrun⟩ := Exec.bind_eq_ok.mp hrun
    obtain ⟨rightSubkeys, _, hrun⟩ := Exec.bind_eq_ok.mp hrun
    unfold mergeJoinSubkeys at hrun
    -- each step of the join descends, or records one removed or one added key
    rw [mergeJoin_eq] at hrun
    refine Exec.foldlM_inv (fun delta : Delta => Tallied delta.entries delta.stats)
      (fun x _ s t hs hstep => ?_) (tallied_recordValueDiffs h left currentPath diffs) hrun
    cases x with
    | both l r => exact ih l r _ s t hs hstep
    | left l =>
      cases hstep
      exact tallied_recordRemoved hs currentPath l
    | right r =>
      cases hstep
      exact tallied_recordAdded hs currentPath r

/-- The labels of a result are the labels that were given. -/
theorem diffHives_labels {n : Nat} {left right : Hive} {leftLabel rightLabel : Str}
    {result : DiffResult} (h : diffHives n left right leftLabel rightLabel = .ok result) :
    result.leftLabel = leftLabel ∧ result.rightLabel = rightLabel := by
  obtain ⟨leftRoot, _, h⟩ := Exec.bind_eq_ok.mp h
  obtain ⟨rightRoot, _, h⟩ := Exec.bind_eq_ok.mp h
  obtain ⟨delta, _, h⟩ := Exec.bind_eq_ok.mp h
  cases h
  exact ⟨rfl, rfl⟩

/-- **The counters of every diff** count what its entries report.  The comparison starts with
    nothing recorded, which is tallied, and keeps the tally. -/
theorem diffHives_tallied {n : Nat} {left right : Hive} {leftLabel rightLabel : Str}
    {result : DiffResult} (h : diffHives n left right leftLabel rightLabel = .ok result) :
    Tallied result.entries result.stats := by
  obtain ⟨leftRoot, _, h⟩ := Exec.bind_eq_ok.mp h
  obtain ⟨rightRoot, _, h⟩ := Exec.bind_eq_ok.mp h
  obtain ⟨delta, hdelta, h⟩ := Exec.bind_eq_ok.mp h
  cases h
  have hstart : Tallied [] {} :=
    ⟨fun kind => by rcases kind with kind | kind <;> cases kind <;> rfl,
      fun entry hentry => absurd hentry List.not_mem_nil⟩
  exact diffKeyRecursive_tallied _ _ n leftRoot rightRoot [] ⟨[], {}⟩ delta hstart hdelta

end Diff

end Winreg
