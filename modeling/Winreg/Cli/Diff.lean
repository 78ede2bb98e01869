/-
  PRINTING a diff: what `reg4n6 diff` prints.

  The command opens both hives, compares them, and prints the result in one of three ways: as one
  JSON text, as one JSON text for each entry, or as a table of two lines of summary, an empty line,
  and a line for each change.  The texts are those of another package (`Serde`).

  What is counted here are the calls of `println!`.  One call is one line of the terminal unless a
  name or a text in it has a line break, and then it is more.

  1. **Program** — `cmdDiff`, for every format.
  2. **Lines** — the mark in front of a call's text tells what it reports (`lineKind`).
  3. **What is printed** — where a hive cannot be opened or the hives cannot be compared, nothing;
     in a table the numbers of the summary are those of the calls below (`diff_prints`).
  4. **Written hives** — below the summary stand the changes between what was given, and there are
     none exactly where the same was given (`diff_build`).
-/
import Winreg.Cli.Dump
import Winreg.Diff.Coverage
import Winreg.Diff.Tally
import Winreg.TestUtil.Given

namespace Winreg

open Rust Relation Exec TestUtil

namespace Cli

open Diff

/-! ## Program -/

/-- The mark in front of an entry: a plus, a minus or a tilde. -/
def marker : DiffKind → Str
  | .keyAdded => "+".toList
  | .keyRemoved => "-".toList
  | .keyModified => "~".toList

/-- The line of an entry: its mark and its path. -/
def entryLine (entry : DiffEntry) : Str := marker entry.kind ++ " ".toList ++ entry.path

/-- The value with its name and the name of its type. -/
def namedType (vd : ValueDiff) (value : ValueSnapshot) : Str :=
  vd.name ++ " (".toList ++ value.dataType ++ ")".toList

/-- The line of a changed value below its key. -/
def detailLine (vd : ValueDiff) : Str :=
  match vd.kind with
  | .added value => "    + ".toList ++ namedType vd value ++ " = ".toList ++ value.display
  | .removed value => "    - ".toList ++ namedType vd value ++ " = ".toList ++ value.display
  | .changed left right =>
    "    ~ ".toList ++ namedType vd left ++ ": ".toList ++ left.display ++ " -> ".toList ++
      right.display

/-- The line of a key, then those of its values. -/
def entryLines (entry : DiffEntry) : List Str := entryLine entry :: entry.details.map detailLine

/-- The first line of the table. -/
def comparing (leftLabel rightLabel : Str) : Str :=
  "Comparing: ".toList ++ leftLabel ++ " vs ".toList ++ rightLabel

/-- The line with the counts of the result. -/
def summary (stats : DiffStats) : Str :=
  "Changes: ".toList ++ decimal stats.keysAdded ++ " added, ".toList ++
    decimal stats.keysRemoved ++ " removed, ".toList ++ decimal stats.keysModified ++
    " modified keys | ".toList ++ decimal stats.valuesAdded ++ " added, ".toList ++
    decimal stats.valuesRemoved ++ " removed, ".toList ++ decimal stats.valuesChanged ++
    " changed values".toList

/-- The table: two lines about the result, a blank one, and the lines of the entries. -/
def diffTable (result : DiffResult) : List Str :=
  [comparing result.leftLabel result.rightLabel, summary result.stats, []] ++
    result.entries.flatMap entryLines

/-- `--format` -/
inductive OutputFormat where
  | table
  | json
  | jsonl
  | csv
deriving DecidableEq, Repr

/-- The texts of a result and of an entry, which another package makes; an error has a text too. -/
structure Serde where
  toStringPretty : DiffResult → Except Str Str
  toString : DiffEntry → Except Str Str

/-- `println!("{}", text?)` -/
def printText (text : Except Str Str) (printed : List Str) : Exec (Aborted CliError) (List Str) :=
  match text with
  | .ok text => .ok (printed ++ [text])
  | .error e => .err ⟨.text e, printed⟩

/-- `match format { .. }` -/
def printDiff (serde : Serde) (format : OutputFormat) (result : DiffResult) (printed : List Str) :
    Exec (Aborted CliError) (List Str) :=
  match format with
  | .json => printText (serde.toStringPretty result) printed
  | .jsonl =>
    result.entries.foldlM (fun printed entry => printText (serde.toString entry) printed) printed
  -- every other format is the table
  | .table | .csv => .ok (printed ++ diffTable result)

/-- Print the differences of two hives in a format.  Nothing is printed before both files are open
    and the diff is there. -/
def cmdDiff (serde : Serde) (format : OutputFormat) (leftData rightData : Bytes)
    (leftLabel rightLabel : Str) (n : Nat) (printed : List Str) :
    Exec (Aborted CliError) (List Str) := do
  let left ← (Hive.fromBytes leftData).orAbort .hive printed
  let right ← (Hive.fromBytes rightData).orAbort .hive printed
  let result ← (diffHives n left right leftLabel rightLabel).orAbort .hive printed
  printDiff serde format result printed

/-! ## Lines -/

/-- What a mark stands for. -/
def markKind : Char → Option DiffKind
  | '+' => some .keyAdded
  | '-' => some .keyRemoved
  | '~' => some .keyModified
  | _ => none

/-- What a line reports: a value if four blanks stand in front, else a key. -/
def lineKind : Str → Option ReportKind
  | ' ' :: ' ' :: ' ' :: ' ' :: mark :: _ => (markKind mark).map .value
  | mark :: _ => (markKind mark).map .key
  | [] => none

/-- The line of an entry can be told by its mark. -/
theorem lineKind_entryLine (entry : DiffEntry) :
    lineKind (entryLine entry) = some (.key entry.kind) := by
  obtain ⟨path, kind, details⟩ := entry
  cases kind <;> rfl

/-- So can the line of a changed value. -/
theorem lineKind_detailLine (vd : ValueDiff) :
    lineKind (detailLine vd) = some (.value (valueKind vd)) := by
  obtain ⟨name, change⟩ := vd
  cases change <;> rfl

/-- The lines of an entry report what the entry does. -/
theorem map_lineKind_entryLines (entry : DiffEntry) :
    (entryLines entry).map lineKind = (reports entry).map some := by
  rw [entryLines, reports, List.map_cons, List.map_cons, lineKind_entryLine, List.map_map,
    List.map_map]
  exact congrArg _ (List.map_congr_left fun vd _ => lineKind_detailLine vd)

/-- The marks of the lines are the kinds of the reports, in order. -/
theorem map_lineKind_flatMap (entries : List DiffEntry) :
    (entries.flatMap entryLines).map lineKind = (entries.flatMap reports).map some := by
  rw [List.map_flatMap, List.map_flatMap]
  exact List.flatMap_congr fun entry _ => map_lineKind_entryLines entry

/-! ## What is printed -/

/-- Numbers that count lines: of each kind as many as there are, and no other lines. -/
structure Counts (stats : DiffStats) (lines : List Str) : Prop where
  counter_eq : ∀ kind, counter stats kind = (lines.map lineKind).count (some kind)
  known : ∀ line ∈ lines, (lineKind line).isSome

/-- Where the counters agree with the entries they agree with the lines, since each report has one
    line. -/
theorem counts_of_tallied {entries : List DiffEntry} {stats : DiffStats}
    (h : Tallied entries stats) : Counts stats (entries.flatMap entryLines) where
  counter_eq kind := by
    rw [h.counter_eq, map_lineKind_flatMap,
      List.count_map_of_injective _ _ (Option.some_injective _)]
  known line hline := by
    have hmem := List.mem_map_of_mem (f := lineKind) hline
    rw [map_lineKind_flatMap] at hmem
    obtain ⟨kind, _, hkind⟩ := List.mem_map.mp hmem
    rw [← hkind]
    rfl

/-- Where both files open and the diff returns, the command is the printing of its result. -/
theorem cmdDiff_eq {leftData rightData : Bytes} {left right : Hive} {leftLabel rightLabel : Str}
    {n : Nat} {result : DiffResult} (hleft : Hive.fromBytes leftData = .ok left)
    (hright : Hive.fromBytes rightData = .ok right)
    (hresult : diffHives n left right leftLabel rightLabel = .ok result) (serde : Serde)
    (format : OutputFormat) (printed : List Str) :
    cmdDiff serde format leftData rightData leftLabel rightLabel n printed =
      printDiff serde format result printed := by
  rw [cmdDiff, hleft, hright, Exec.ok_orAbort, Exec.ok_bind, Exec.ok_orAbort, Exec.ok_bind,
    hresult, Exec.ok_orAbort, Exec.ok_bind]

/-- A format that is printed as the table. -/
def OutputFormat.IsTable (format : OutputFormat) : Prop := format = .table ∨ format = .csv

/-- A table is printed as a whole: none of its lines can fail. -/
theorem printDiff_table {format : OutputFormat} (htable : format.IsTable) (serde : Serde)
    (result : DiffResult) (printed : List Str) :
    printDiff serde format result printed = .ok (printed ++ diffTable result) := by
  rcases htable with rfl | rfl
  · rfl
  · rfl

/-- The texts of the entries are printed up to the first that the other package does not make. -/
theorem printEntries_eq (serde : Serde) : ∀ (entries : List DiffEntry) (printed : List Str),
    ∃ texts, (List.Forall₂ (fun entry text => serde.toString entry = .ok text)
        (entries.take texts.length) texts) ∧
      ((texts.length = entries.length ∧
        entries.foldlM (fun printed entry => printText (serde.toString entry) printed) printed =
          .ok (printed ++ texts)) ∨
      ∃ entry e, entries[texts.length]? = some entry ∧ serde.toString entry = .error e ∧
        entries.foldlM (fun printed entry => printText (serde.toString entry) printed) printed =
          .err ⟨.text e, printed ++ texts⟩)
  | [], printed => ⟨[], .nil, .inl ⟨rfl, by rw [List.append_nil]; rfl⟩⟩
  | entry :: entries, printed => by
    rw [List.foldlM_cons]
    cases htext : serde.toString entry with
    | error e =>
      refine ⟨[], .nil, .inr ⟨entry, e, rfl, htext, ?_⟩⟩
      rw [List.append_nil]
      rfl
    | ok text =>
      obtain ⟨texts, hmade, hrest⟩ := printEntries_eq serde entries (printed ++ [text])
      have hnext : printText (.ok text) printed = .ok (printed ++ [text]) := rfl
      refine ⟨text :: texts, .cons htext hmade, ?_⟩
      rw [hnext, Exec.ok_bind, List.length_cons, List.length_cons]
      rw [List.append_assoc, List.singleton_append] at hrest
      exact hrest.imp (fun h => ⟨congrArg (· + 1) h.1, h.2⟩) id

/-- What is printed in each format, for a result: `complete` is whether the command ends. -/
inductive DiffPrints (serde : Serde) (result : DiffResult) : OutputFormat → Output → Prop where
  | json {text : Str} (h : serde.toStringPretty result = .ok text) :
      DiffPrints serde result .json (.say [text])
  | jsonFails {e : Str} (h : serde.toStringPretty result = .error e) :
      DiffPrints serde result .json .failed
  | jsonl {texts : List Str}
      (h : List.Forall₂ (fun entry text => serde.toString entry = .ok text) result.entries texts) :
      DiffPrints serde result .jsonl (.say texts)
  | jsonlFails {texts : List Str} {entry : DiffEntry} {e : Str}
      (h : List.Forall₂ (fun entry text => serde.toString entry = .ok text)
        (result.entries.take texts.length) texts)
      (hentry : result.entries[texts.length]? = some entry)
      (hfails : serde.toString entry = .error e) :
      DiffPrints serde result .jsonl ⟨texts, false⟩
  | table {format : OutputFormat} (htable : format.IsTable) :
      DiffPrints serde result format (.say (diffTable result))

/-- What a format prints, and whether it comes to an end, is told by `DiffPrints`; with jsonl the
    printing can stop between two entries. -/
theorem printDiff_leaves (serde : Serde) (format : OutputFormat) (result : DiffResult)
    (printed : List Str) : ∃ o, DiffPrints serde result format o ∧
      Leaves (printed ++ o.lines) o.complete (printDiff serde format result printed) := by
  cases format with
  | table => exact ⟨_, .table (.inl rfl), .ended⟩
  | csv => exact ⟨_, .table (.inr rfl), .ended⟩
  | json =>
    cases htext : serde.toStringPretty result with
    | ok text =>
      refine ⟨_, .json htext, ?_⟩
      rw [printDiff, htext]
      exact .ended
    | error e =>
      refine ⟨_, .jsonFails htext, ?_⟩
      rw [printDiff, htext, show Output.failed.lines = [] from rfl, List.append_nil]
      exact .aborted _
  | jsonl =>
    obtain ⟨texts, hmade, ⟨hlength, hrun⟩ | ⟨entry, e, hentry, hfails, hrun⟩⟩ :=
      printEntries_eq serde result.entries printed
    · rw [hlength, List.take_length] at hmade
      refine ⟨_, .jsonl hmade, ?_⟩
      rw [printDiff, hrun]
      exact .ended
    · refine ⟨_, .jsonlFails hmade hentry hfails, ?_⟩
      rw [printDiff, hrun]
      exact .aborted _

/-- Of the formats only the one with a text for each entry can fail after something was printed. -/
theorem DiffPrints.lines_of_failed {serde : Serde} {result : DiffResult} {format : OutputFormat}
    {o : Output} (h : DiffPrints serde result format o) (hfails : o.complete = false)
    (hformat : format ≠ .jsonl) : o.lines = [] := by
  cases h with
  | json _ => cases hfails
  | jsonFails _ => rfl
  | jsonl _ => cases hfails
  | jsonlFails _ _ _ => exact absurd rfl hformat
  | table _ => cases hfails

/-- **What a diff prints.**  A command that fails has printed nothing, unless it was printing one
    text for each entry; these stop before the first that is not made.  A command that ends has
    printed its result in the given format.  In a table the numbers of the summary count the calls
    of `println!` below, by their marks. -/
theorem diff_prints (serde : Serde) (format : OutputFormat) (leftData rightData : Bytes)
    (leftLabel rightLabel : Str) (n : Nat) (printed : List Str) :
    (∀ e, cmdDiff serde format leftData rightData leftLabel rightLabel n printed = .err e →
      (format ≠ .jsonl → e.printed = printed) ∧ (e.printed = printed ∨
      ∃ left right result o, Hive.fromBytes leftData = .ok left ∧
        Hive.fromBytes rightData = .ok right ∧
        diffHives n left right leftLabel rightLabel = .ok result ∧
        DiffPrints serde result format o ∧ o.complete = false ∧ e.printed = printed ++ o.lines)) ∧
    ∀ out, cmdDiff serde format leftData rightData leftLabel rightLabel n printed = .ok out →
      ∃ left right result o, Hive.fromBytes leftData = .ok left ∧
        Hive.fromBytes rightData = .ok right ∧
        diffHives n left right leftLabel rightLabel = .ok result ∧
        DiffPrints serde result format o ∧ o.complete = true ∧ out = printed ++ o.lines ∧
        (format.IsTable → out = printed ++
          ([comparing leftLabel rightLabel, summary result.stats, []] ++
            result.entries.flatMap entryLines)) ∧
        Counts result.stats (result.entries.flatMap entryLines) := by
  unfold cmdDiff
  -- a failure, and an end
  constructor
  · intro e h
    rcases Exec.bind_orAbort_eq_err h with hprinted | ⟨left, hleft, h⟩
    · exact ⟨fun _ => hprinted, .inl hprinted⟩
    rcases Exec.bind_orAbort_eq_err h with hprinted | ⟨right, hright, h⟩
    · exact ⟨fun _ => hprinted, .inl hprinted⟩
    rcases Exec.bind_orAbort_eq_err h with hprinted | ⟨result, hresult, h⟩
    · exact ⟨fun _ => hprinted, .inl hprinted⟩
    obtain ⟨o, ho, hleaves⟩ := printDiff_leaves serde format result printed
    rw [h] at hleaves
    obtain ⟨lines, complete⟩ := o
    cases hleaves with
    | aborted e =>
      refine ⟨fun hformat => ?_,
        .inr ⟨left, right, result, _, hleft, hright, hresult, ho, rfl, rfl⟩⟩
      show printed ++ lines = printed
      rw [show lines = [] from ho.lines_of_failed rfl hformat, List.append_nil]
  · intro out h
    obtain ⟨left, hleft, h⟩ := Exec.bind_orAbort_eq_ok h
    obtain ⟨right, hright, h⟩ := Exec.bind_orAbort_eq_ok h
    obtain ⟨result, hresult, h⟩ := Exec.bind_orAbort_eq_ok h
    obtain ⟨o, ho, hleaves⟩ := printDiff_leaves serde format result printed
    rw [h] at hleaves
    obtain ⟨lines, complete⟩ := o
    cases hleaves with
    | ended =>
      refine ⟨left, right, result, _, hleft, hright, hresult, ho, rfl, rfl, fun htable => ?_,
        counts_of_tallied (diffHives_tallied hresult)⟩
      obtain ⟨hleftLabel, hrightLabel⟩ := diffHives_labels hresult
      rw [printDiff_table htable] at h
      rw [← Exec.ok.inj h, diffTable, hleftLabel, hrightLabel]

/-- The one change of the samples is the added key `A`. -/
theorem changes_nested : bareTree.changes nestedTree = [.added [['A']]] := by
  unfold bareTree nestedTree
  rw [changes_node]
  simp [valueChanges, joinByKey, sortByKey, modifiedBy, keyChange, KeyTree.name]

/-- The other package, where it is not called. -/
def noSerde : Serde := ⟨fun _ => .error [], fun _ => .error []⟩

/-- A key with a key below it is new. -/
theorem diff_prints_nested : ∃ n, ∃ result : DiffResult,
    cmdDiff noSerde .table (oneBinImage 32 bareCells) (oneBinImage 32 Diff.nestedCells) "old".toList
        "new".toList n [] =
      .ok (["Comparing: old vs new", "Changes: 1 added, 0 removed, 0 modified keys | 0 added, " ++
        "0 removed, 0 changed values", "", "+ A"].map String.toList) ∧
      Counts result.stats (result.entries.flatMap entryLines) := by
  have hleft : Hive.fromBytes (oneBinImage 32 bareCells) = .ok bareHive :=
    Hive.fromBytes_oneBinImage (by decide)
  have hright : Hive.fromBytes (oneBinImage 32 Diff.nestedCells) = .ok Diff.nestedHive :=
    Hive.fromBytes_oneBinImage (by rw [Diff.length_nestedCells]; decide)
  obtain ⟨n, hrun⟩ := diffHives_reads bareHive_readsTree nestedHive_readsTree "old".toList
    "new".toList
  rw [changes_nested] at hrun
  have hcmd := cmdDiff_eq hleft hright (hrun n (Nat.le_refl n)) noSerde .table []
  rw [printDiff_table (.inl rfl), List.nil_append] at hcmd
  obtain ⟨_, _, result, _, _, _, _, _, _, _, _, hcounts⟩ :=
    (diff_prints noSerde .table _ _ _ _ n []).2 _ hcmd
  refine ⟨n, result, hcmd.trans (congrArg Exec.ok ?_), hcounts⟩
  decide

/-! ## Written hives -/

/-- No line is printed for the entries exactly when there are none: each has a line of its own. -/
theorem flatMap_entryLines_eq_nil {entries : List DiffEntry} :
    entries.flatMap entryLines = [] ↔ entries = [] := by
  constructor
  · intro h
    cases entries with
    | nil => rfl
    | cons entry entries => cases h
  · rintro rfl
    rfl

variable {b b' : TestHiveBuilder}

/-- **A diff of written files**, as a table, prints the changes between the trees that were given,
    with their numbers, and no change exactly where the same was given, but for case and order. -/
theorem diff_build (serde : Serde) {format : OutputFormat} (htable : format.IsTable)
    (h : b.Valid) (h' : b'.Valid) (hdistinct : b.Distinct) (hdistinct' : b'.Distinct) {n : Nat}
    (hn : b.depth < n) (hn' : b'.depth < n)
    (hsize : b.planOf.totalFileSize < 2 ^ 31) (hsize' : b'.planOf.totalFileSize < 2 ^ 31)
    (leftLabel rightLabel : Str) :
    ∃ image image' stats lines, (b.build n : Exec HiveError Bytes) = .ok image ∧
      (b'.build n : Exec HiveError Bytes) = .ok image' ∧
      Prints (cmdDiff serde format image image' leftLabel rightLabel)
        (.say ([comparing leftLabel rightLabel, summary stats, []] ++ lines)) ∧
      lines = (b.tree.changes b'.tree).flatMap (fun change => entryLines (change.entry [])) ∧
      Counts stats lines ∧
      (lines = [] ↔ ∀ names values, b.Gives names values ↔ b'.Gives names values) := by
  obtain ⟨image, left, hbuild, hleft, htree⟩ := build_tree h hn hsize
  obtain ⟨image', right, hbuild', hright, htree'⟩ := build_tree h' hn' hsize'
  obtain ⟨N, hrun⟩ := diffHives_reads htree htree' leftLabel rightLabel
  have hlines : (resultOf leftLabel rightLabel (b.tree.changes b'.tree)).entries.flatMap
      entryLines = (b.tree.changes b'.tree).flatMap fun change => entryLines (change.entry []) :=
    List.flatMap_map _ _ _
  refine ⟨image, image', _, _, hbuild, hbuild', fun printed => ?_, hlines,
    counts_of_tallied (diffHives_tallied (hrun N le_rfl)), ?_⟩
  · refine ⟨_, ⟨N, fun n hn => ?_⟩, .ended⟩
    exact (cmdDiff_eq hleft hright (hrun n hn) serde format printed).trans
      (printDiff_table htable serde _ printed)
  · have hnil : (resultOf leftLabel rightLabel (b.tree.changes b'.tree)).entries = [] ↔
        b.tree.changes b'.tree = [] := List.map_eq_nil_iff
    exact flatMap_entryLines_eq_nil.trans <| hnil.trans <|
      (changes_eq_nil_iff hdistinct.tree hdistinct'.tree).trans (same_tree_iff hdistinct hdistinct')

/-- A builder without keys is valid. -/
theorem new_valid : TestHiveBuilder.new.Valid where
  components := by decide
  valueNames := by decide
  children _ := Nat.zero_le _
  data := by decide

/-- Against the empty builder only the topmost key is reported, since an added key is not descended
    into. -/
theorem changes_new_values :
    TestHiveBuilder.new.tree.changes valuesBuilder.tree = [.added ["A".toList]] := by
  have hnew : TestHiveBuilder.new.tree = .node "CMI-root".toList [] [] := rfl
  obtain ⟨t, htree, hname⟩ : ∃ t : Winreg.KeyTree,
      valuesBuilder.tree = .node "CMI-root".toList [] [t] ∧ t.name = "A".toList := ⟨_, rfl, rfl⟩
  rw [hnew, htree, changes_node]
  simp [valueChanges, joinByKey, sortByKey, modifiedBy, keyChange, hname]

set_option maxRecDepth 20000 in
/-- The empty builder against the sample, as csv: the table is printed all the same. -/
theorem diff_build_values : ∃ image image',
    (TestHiveBuilder.new.build 3 : Exec HiveError Bytes) = .ok image ∧
      (valuesBuilder.build 3 : Exec HiveError Bytes) = .ok image' ∧
      Prints (cmdDiff noSerde .csv image image' "old".toList "new".toList)
        (.say (["Comparing: old vs new", "Changes: 1 added, 0 removed, 0 modified keys | " ++
          "0 added, 0 removed, 0 changed values", "", "+ A"].map String.toList)) := by
  obtain ⟨image, image', stats, lines, hbuild, hbuild', hprints, hlines, hcounts, _⟩ :=
    diff_build noSerde (.inr rfl) new_valid valuesBuilder_valid ⟨by decide, by decide⟩
      ⟨by decide, by decide⟩ (n := 3) (by decide) (by decide) (by decide) (by decide)
      "old".toList "new".toList
  rw [changes_new_values] at hlines
  subst hlines
  refine ⟨image, image', hbuild, hbuild', Eq.mp (congrArg (Prints _) ?_) hprints⟩
  obtain ⟨keysAdded, keysRemoved, keysModified, valuesAdded, valuesRemoved, valuesChanged⟩ := stats
  obtain rfl : keysAdded = 1 := hcounts.counter_eq (.key .keyAdded)
  obtain rfl : keysRemoved = 0 := hcounts.counter_eq (.key .keyRemoved)
  obtain rfl : keysModified = 0 := hcounts.counter_eq (.key .keyModified)
  obtain rfl : valuesAdded = 0 := hcounts.counter_eq (.value .keyAdded)
  obtain rfl : valuesRemoved = 0 := hcounts.counter_eq (.value .keyRemoved)
  obtain rfl : valuesChanged = 0 := hcounts.counter_eq (.value .keyModified)
  decide

end Cli

end Winreg
