/-
  DUMPING a registry tree: the lines that `reg4n6 dump` prints.

  The dump prints a key, its values and then its subkeys, each two blanks further to the right, down
  to a maximal depth or, where that is zero, as far as there are keys.  A listing that fails ends
  the program; data that cannot be read do not.

  1. **Lines** — the line of a key, the line of a value with a preview of its data.
  2. **Program** — `cmdDump`.
  3. **What is printed** — the visited keys in pre-order, up to the first failing listing
     (`dump_prints`).
-/
import Winreg.Base.Utf16
import Winreg.Core.Visits
import Winreg.TestUtil.Shown

namespace Winreg

open Rust Relation Exec TestUtil

namespace Cli

/-- What ends a command: an error of the hive, or a text. -/
inductive CliError where
  | hive (e : HiveError)
  | text (s : Str)
deriving DecidableEq

/-! ## Lines -/

/-- `"  ".repeat(depth)` -/
def indentOf (depth : Nat) : Str := List.replicate (2 * depth) ' '

/-- `format!("{raw:02X?}")` -/
def debugHex (raw : Bytes) : Str :=
  "[".toList ++ ", ".toList.intercalate (raw.map fun b => hexUpper 2 b.toNat) ++ "]".toList

/-- The preview of data that are not shown as a string or a number. -/
def rawPreview (raw : Bytes) : Str :=
  if raw.length ≤ 16 then debugHex raw
  else "[".toList ++ decimal raw.length ++ " bytes]".toList

/-- The line of a key, indented by its depth. -/
def keyLine (depth : Nat) (name : Str) : Str :=
  indentOf depth ++ "[".toList ++ name ++ "]".toList

/-- The line of a value, one step further in than its key. -/
def valueLine (depth : Nat) (name : Str) (dataType : ValueType) (dataPreview : Str) : Str :=
  let displayName := if name = [] then "(Default)".toList else name
  indentOf depth ++ "  ".toList ++ displayName ++ " (".toList ++ dataType.name ++ ") = ".toList ++
    dataPreview

/-! ## Program -/

section Program

variable (r : CellReader)

/-- The preview of a value's data, by its type: text, number, or the first bytes. -/
def dataPreview (val : Value) : Exec HiveError Str :=
  match val.dataType with
  | .sz | .expandSz => (val.asString r).unwrapOr "<error>".toList
  | .dword => (val.asU32 r).okOr "<error>".toList fun v => .ok ("0x".toList ++ hexUpper 8 v.toNat)
  | .qword => (val.asU64 r).okOr "<error>".toList fun v => .ok ("0x".toList ++ hexUpper 16 v.toNat)
  | _ => do
    let raw ← (val.rawData r).unwrapOr []
    .ok (rawPreview raw)

/-- The line of a value is printed. -/
def dumpValue (depth : Nat) (printed : List Str) (val : Value) :
    Exec (Aborted CliError) (List Str) := do
  let preview ← (dataPreview r val).orAbort .hive printed
  .ok (printed ++ [valueLine depth val.name val.dataType preview])

/-- Print a key with its values, then its subkeys, down to the depth limit (0 for none).  The
    printed lines are passed through, so that a failure leaves with the lines before it. -/
def dumpKey (maxDepth : Nat) : Nat → Nat → Key → List Str → Exec (Aborted CliError) (List Str)
  | 0, _, _, _ => .timeout
  | n + 1, depth, key, printed =>
    -- a maximal depth of zero is no limit
    if maxDepth > 0 ∧ depth ≥ maxDepth then .ok printed
    else do
      let printed := printed ++ [keyLine depth key.name]
      let values ← (key.values r).orAbort .hive printed
      let printed ← values.foldlM (dumpValue r depth) printed
      let subkeys ← (key.subkeys r n).orAbort .hive printed
      subkeys.foldlM (fun printed subkey => dumpKey maxDepth n (depth + 1) subkey printed) printed

end Program

/-- The key at a path, or the root. -/
def startKey (hive : Hive) (subpath : Option Str) (n : Nat) : Exec CliError Key :=
  match subpath with
  | some p => do
    match ← (hive.openKey n p).mapErr .hive with
    | some key => .ok key
    | none => .err (.text ("Key not found: ".toList ++ p))
  | none => hive.rootKey.mapErr .hive

/-- Print the keys from the root or from a path on. -/
def cmdDump (data : Bytes) (subpath : Option Str) (maxDepth n : Nat) (printed : List Str) :
    Exec (Aborted CliError) (List Str) := do
  let hive ← (Hive.fromBytes data).orAbort .hive printed
  let key ← (startKey hive subpath n).orAbort id printed
  dumpKey hive.reader maxDepth n 0 key printed

/-! ## What is printed -/

/-- The preview of a shown value. -/
def preview (v : ShownValue) : Str :=
  match v.dataType with
  | .sz | .expandSz => v.text.getD "<error>".toList
  | .dword => v.number.elim "<error>".toList fun n => "0x".toList ++ hexUpper 8 n.toNat
  | .qword => v.number64.elim "<error>".toList fun n => "0x".toList ++ hexUpper 16 n.toNat
  | _ => rawPreview (v.data.getD [])

/-- What is printed for a key: its line, the lines of its values, and nothing for its subkeys, which
    have to be there. -/
def keyOutput (reg : Registry) (p : Nat × reg.Node) : Output :=
  (Output.say [keyLine p.1 (reg.name p.2)]).andThen
    (((reg.values p.2).elim Output.failed fun values =>
      Output.say (values.map fun v => valueLine p.1 v.name v.dataType (preview v))).andThen
    ((reg.subkeys p.2).elim Output.failed fun _ => Output.say []))

section Shows

variable {hive : Hive} {reg : Registry} {rel : Key → reg.Node → Prop}

/-- The preview depends on what is read of the value only. -/
theorem dataPreview_eq {r : CellReader} {val : Value} {v : ShownValue} (h : ShowsValue r val v) :
    dataPreview r val = .ok (preview v) := by
  have hraw : (val.rawData r).unwrapOr [] = .ok (v.data.getD []) := h.data.unwrapOr []
  unfold dataPreview preview
  rw [h.dataType]
  cases v.dataType with
  | sz => exact h.asString.unwrapOr _
  | expandSz => exact h.asString.unwrapOr _
  | dword => exact h.asU32.mapOr _ _
  | qword => exact h.asU64.mapOr _ _
  | _ => rw [hraw]; rfl

/-- The values of a key are printed, each in its line. -/
theorem dumpValues_prints {r : CellReader} (depth : Nat) {vals : List Value}
    {values : List ShownValue} (h : List.Forall₂ (ShowsValue r) vals values) :
    Prints (fun _ printed => vals.foldlM (dumpValue r depth) printed)
      (.say (values.map fun v => valueLine depth v.name v.dataType (preview v))) := by
  rw [List.map_eq_flatMap, ← Output.all_say]
  refine Prints.foldlM h fun val v hv => ?_
  refine (Prints.say _).congr fun _ printed => ?_
  rw [dumpValue, dataPreview_eq hv, hv.name, hv.dataType]
  rfl

/-- A key beyond the limit. -/
theorem dumpKey_beyond {r : CellReader} {limit depth : Nat} (hdepth : limit ≤ depth)
    (hpos : 0 < limit) (key : Key) :
    Prints (fun n => dumpKey r limit n depth key) (.say []) := by
  refine .of_succ ((Prints.say []).congr fun n printed => ?_)
  rw [dumpKey, if_pos ⟨hpos, hdepth⟩, List.append_nil]

variable (shows_ : hive.Shows reg rel)

include shows_

/-- A key above the limit: its own lines, and what the loop over its subkeys prints. -/
theorem dumpKey_step {limit depth : Nat} {key : Key} {a : reg.Node} (hkey : rel key a)
    (hlimit : limit = 0 ∨ depth < limit) {below : Output}
    (hbelow : ∀ kids, List.Forall₂ rel kids (reg.subkeyList a) →
      Prints (fun n printed => kids.foldlM (fun printed subkey =>
        dumpKey hive.reader limit n (depth + 1) subkey printed) printed) below) :
    Prints (fun n => dumpKey hive.reader limit n depth key)
      ((keyOutput reg (depth, a)).andThen below) := by
  have hsubkeys : Prints (fun n printed => (key.subkeys hive.reader n).orAbort CliError.hive printed
      >>= fun kids => kids.foldlM (fun printed subkey =>
        dumpKey hive.reader limit n (depth + 1) subkey printed) printed)
      ((reg.subkeys a).elim Output.failed fun _ => below) := by
    refine Prints.read (shows_.subkeys hkey).here _ fun kids nodes hkids => hbelow kids ?_
    rw [Registry.subkeyList, hkids.2]
    exact hkids.1
  have hvalues : Prints (fun n printed => (key.values hive.reader).orAbort CliError.hive printed
      >>= fun vals => vals.foldlM (dumpValue hive.reader depth) printed >>= fun printed =>
        (key.subkeys hive.reader n).orAbort CliError.hive printed >>= fun kids =>
          kids.foldlM (fun printed subkey =>
            dumpKey hive.reader limit n (depth + 1) subkey printed) printed)
      ((reg.values a).elim Output.failed fun values =>
        (Output.say (values.map fun v => valueLine depth v.name v.dataType (preview v))).andThen
          ((reg.subkeys a).elim Output.failed fun _ => below)) :=
    Prints.read (shows_.values hkey).from _ fun vals values hvals =>
      (dumpValues_prints depth hvals).andThen hsubkeys
  have hbody := (Prints.say [keyLine depth key.name]).andThen hvalues
  -- nothing of the subkeys is printed if the values cannot be listed, and the other way round
  have houtput : (keyOutput reg (depth, a)).andThen below =
      (Output.say [keyLine depth key.name]).andThen ((reg.values a).elim Output.failed fun values =>
        (Output.say (values.map fun v => valueLine depth v.name v.dataType (preview v))).andThen
          ((reg.subkeys a).elim Output.failed fun _ => below)) := by
    rw [keyOutput, shows_.name hkey]
    simp only [Output.andThen_assoc, Output.elim_andThen, Output.nil_andThen]
  rw [houtput]
  refine .of_succ (hbody.congr fun n printed => ?_)
  rw [dumpKey, if_neg (by omega)]
  rfl

/-- **A key and what is below it**, as far as the walk goes. -/
theorem dumpKey_prints {limit depth : Nat} {a : reg.Node} {t : Rose (Nat × reg.Node)}
    (ht : reg.Visited limit depth a t) : ∀ {key : Key}, rel key a →
      Prints (fun n => dumpKey hive.reader limit n depth key)
        (.all (t.preorder.map (keyOutput reg))) := by
  induction ht with
  | @last depth a h =>
    intro key hkey
    rw [Rose.preorder, List.flatMap_nil, List.map_singleton, Output.all_cons]
    refine dumpKey_step shows_ hkey (.inr (by omega)) fun kids _ => ?_
    -- the calls for the subkeys come back at once
    have hnothing := Prints.foldlM (List.forall₂_same.mpr fun kid (_ : kid ∈ kids) => rfl)
      fun kid _ _ => dumpKey_beyond (r := hive.reader) (Nat.le_of_eq h.symm) (by omega) kid
    rwa [Output.all_say, List.flatMap_eq_nil_iff.mpr fun _ _ => rfl] at hnothing
  | @onward depth a children h hlength _ ih =>
    intro key hkey
    rw [Rose.preorder, List.map_cons, Output.all_cons, List.map_flatMap, Output.all_flatMap]
    refine dumpKey_step shows_ hkey (by omega) fun kids hkids => ?_
    refine Prints.foldlM (forall₂_zip_trans hkids hlength) ?_
    rintro kid child ⟨b, hb, hmem⟩
    exact ih (b, child) hmem hb

/-- The dump starts at the key that is shown at the path, or at the root. -/
theorem startKey_keeps (subpath : Option Str) :
    KeepsFrom (fun key a => rel key a ∧ hive.InReach key) (startKey hive subpath)
      (subpath.elim reg.root reg.openKey) := by
  cases subpath with
  | none =>
    have hroot := shows_.root
    show KeepsFrom _ (fun _ => hive.rootKey.mapErr CliError.hive) reg.root
    generalize hopen : hive.rootKey = x, reg.root = o at hroot
    cases hroot with
    | @value root a ha => exact (Keeps.value ⟨ha, root, hopen, .refl⟩).from
    | error e => exact (Keeps.error _).from
  | some p =>
    obtain ⟨x, ⟨N, hN⟩, hfinds⟩ := shows_.openKey p
    show KeepsFrom _ (startKey hive (some p)) (reg.openKey p)
    have hstart : ∀ {y}, (x.mapErr CliError.hive >>= fun
        | some key => .ok key
        | none => .err (.text ("Key not found: ".toList ++ p))) = y →
        Evals (startKey hive (some p)) y := fun hy => ⟨N, fun n hn => by
      rw [startKey, show hive.openKey n p = x from hN n hn]
      exact hy⟩
    generalize reg.openKey p = o at hfinds
    cases hfinds with
    | @found key a ha => exact ⟨_, hstart rfl, .value ⟨ha, openKey_eq_some (hN N le_rfl)⟩⟩
    | missing => exact ⟨_, hstart rfl, .error _⟩
    | error e => exact ⟨_, hstart rfl, .error _⟩

/-- Nothing is printed where the dump has no start. -/
theorem cmdDump_missing {data : Bytes} (hopen : Hive.fromBytes data = .ok hive)
    {subpath : Option Str} (hstart : subpath.elim reg.root reg.openKey = none) (maxDepth : Nat) :
    Prints (cmdDump data subpath maxDepth) .failed := by
  have hkeeps := startKey_keeps shows_ subpath
  rw [hstart] at hkeeps
  have hread := Prints.read (h := fun _ => .failed) hkeeps.here id
    (f := fun n key => dumpKey hive.reader maxDepth n 0 key) fun _ _ hkey => by cases hkey.2
  refine hread.congr fun n printed => ?_
  rw [cmdDump, hopen]
  rfl

/-- From its start the dump prints what it visits. -/
theorem cmdDump_visited {data : Bytes} (hopen : Hive.fromBytes data = .ok hive)
    {subpath : Option Str} {a : reg.Node} (hstart : subpath.elim reg.root reg.openKey = some a)
    {maxDepth : Nat} {t : Rose (Nat × reg.Node)} (ht : reg.Visited maxDepth 0 a t) :
    Prints (cmdDump data subpath maxDepth) (.all (t.preorder.map (keyOutput reg))) := by
  have hkeeps := startKey_keeps shows_ subpath
  rw [hstart] at hkeeps
  have hread := Prints.read (h := fun _ => .all (t.preorder.map (keyOutput reg))) hkeeps.here id
    (f := fun n key => dumpKey hive.reader maxDepth n 0 key) fun key b hkey => by
      obtain ⟨⟨hrel, _⟩, hsame⟩ := hkey
      obtain rfl := Option.some.inj hsame
      exact dumpKey_prints shows_ ht hrel
  refine hread.congr fun n printed => ?_
  rw [cmdDump, hopen]
  rfl

/-- **What a dump prints**: the keys from the start down to the maximal depth, in pre-order, up to
    the first one of which the values or subkeys cannot be listed.  Each part of the output is an
    `Output`, lines and whether they come to an end, and outputs compose as the calls do; so the
    recursion over keys is one over the tree of what is visited. -/
theorem dump_prints {data : Bytes} (hopen : Hive.fromBytes data = .ok hive)
    (subpath : Option Str) {maxDepth : Nat} (hfinite : maxDepth = 0 → hive.NoKeyCycle) :
    match subpath.elim reg.root reg.openKey with
    | some a => ∃ t, reg.Visited maxDepth 0 a t ∧
        Prints (cmdDump data subpath maxDepth) (.all (t.preorder.map (keyOutput reg)))
    | none => Prints (cmdDump data subpath maxDepth) .failed := by
  cases hstart : subpath.elim reg.root reg.openKey with
  | none => exact cmdDump_missing shows_ hopen hstart maxDepth
  | some a =>
    obtain ⟨t, ht⟩ : ∃ t, reg.Visited maxDepth 0 a t := by
      by_cases hlimit : maxDepth = 0
      · obtain ⟨x, _, hkeeps⟩ := startKey_keeps shows_ subpath
        rw [hstart] at hkeeps
        cases hkeeps with
        | @value key _ hkey =>
          obtain ⟨hrel, root, hroot, hreach⟩ := hkey
          have hacyclic : NoCycleFrom (Kids hive.reader) key := fun w hw =>
            hfinite hlimit root hroot w (hreach.trans hw)
          rw [hlimit]
          exact shows_.exists_visited (noCycleFrom_iff_acc.mp hacyclic) hrel 0
      · exact reg.exists_visited_limited (maxDepth - 1) a (by omega)
    exact ⟨t, ht, cmdDump_visited shows_ hopen hstart ht⟩

end Shows

/-- A key with a text, a number and some bytes, and a key below it. -/
def valuesBuilder : TestHiveBuilder where
  keys := ["A\\B".toList]
  values := [⟨"A".toList, "v".toList, 1, utf16leBytes "x".toList⟩, ⟨"A".toList, [], 4, u32Bytes 6⟩,
    ⟨"A".toList, "raw".toList, 3, [0x01, 0xAB]⟩]
  keyFiletime := 0

set_option maxRecDepth 20000 in
/-- The sample can be written: short names, few children, small data. -/
theorem valuesBuilder_valid : valuesBuilder.Valid where
  components := by decide
  valueNames := by decide
  children p := by
    have hlen : (valuesBuilder.childNames p).length ≤ valuesBuilder.closure.length :=
      List.length_filterMap_le _ _
    exact hlen.trans (by decide)
  data := by decide

set_option maxRecDepth 20000 in
/-- From the key `A`, one level deep: the key and its three values, without the subkey. -/
theorem dump_prints_values : ∃ image, (valuesBuilder.build 3 : Exec HiveError Bytes) = .ok image ∧
    Prints (cmdDump image (some "a".toList) 1) (.say (["[A]", "  v (REG_SZ) = x",
      "  (Default) (REG_DWORD) = 0x00000006", "  raw (REG_BINARY) = [01, AB]"].map
        String.toList)) := by
  obtain ⟨image, hive, hbuild, hopen, hshows⟩ :=
    build_shows valuesBuilder_valid (n := 3) (by decide) (by decide)
  have hdump := dump_prints hshows hopen (some "a".toList) (show 1 = 0 → _ from fun h => by cases h)
  have hstart : valuesBuilder.registry.openKey "a".toList = some (valuesBuilder.nodeAt "A".toList) :=
    by decide
  rw [Option.elim_some, hstart] at hdump
  obtain ⟨t, ht, hprints⟩ := hdump
  obtain rfl := ht.unique _ (.last rfl)
  refine ⟨image, hbuild, Eq.mp (congrArg (Prints _) ?_) hprints⟩
  rw [Rose.preorder]
  decide

/-! ## Built files -/

section Built

variable {b : TestHiveBuilder}

/-- The keys of a builder from a path on, at most `n` levels down, with their depths. -/
def builtTree (b : TestHiveBuilder) : Nat → Path → Rose (Nat × b.registry.Node)
  | 0, p => .node (p.length, p) []
  | n + 1, p => .node (p.length, p) ((b.childNames p).map fun c => builtTree b n (p ++ [c]))

/-- The unrolled tree of the builder's paths is what a traversal without a limit visits.  By
    induction on a bound for the depth that is left below the path. -/
theorem visited_builtTree : ∀ (n : Nat) (p : Path),
    (∀ q ∈ b.closure, q.length ≤ p.length + n) →
      b.registry.Visited 0 p.length p (builtTree b n p)
  | 0, p, h => by
    have hleaf : b.registry.subkeyList p = [] := by
      show (b.childNames p).map _ = []
      rw [childNames_of_deepest h]
      rfl
    refine .onward (.inl rfl) (congrArg List.length hleaf) fun q hq => ?_
    rw [hleaf] at hq
    cases hq
  | n + 1, p, h => by
    have hkids : List.Forall₂ (b.registry.Visited 0 (p.length + 1)) (b.registry.subkeyList p)
        ((b.childNames p).map fun c => builtTree b n (p ++ [c])) := by
      show List.Forall₂ _ ((b.childNames p).map fun c => p ++ [c]) _
      rw [List.forall₂_map_left_iff, List.forall₂_map_right_iff, List.forall₂_same]
      intro c _
      have hlength : (p ++ [c]).length = p.length + 1 := List.length_append
      have hkid := visited_builtTree n (p ++ [c]) fun q hq => by
        have := h q hq
        omega
      rwa [hlength] at hkid
    obtain ⟨hlength, hzip⟩ := List.forall₂_iff_zip.mp hkids
    exact .onward (.inl rfl) hlength fun q hq => hzip hq

/-- From the root, the depth of the builder bounds all paths. -/
theorem visited_built (b : TestHiveBuilder) :
    b.registry.Visited 0 0 [] (builtTree b b.depth []) :=
  visited_builtTree b.depth [] fun q hq => by
    rw [List.length_nil, Nat.zero_add]
    exact length_le_depth hq

/-- The pre-order of the unrolled tree is the pre-order of the paths, each with its length as its
    depth. -/
theorem preorder_builtTree : ∀ (n : Nat) (p : Path),
    (builtTree b n p).preorder = (p :: preorder b n p).map fun q => (q.length, q)
  | 0, p => by
    rw [builtTree, Rose.preorder, preorder]
    rfl
  | n + 1, p => by
    rw [builtTree, Rose.preorder, preorder, List.map_cons, List.flatMap_map, List.map_flatMap]
    exact congrArg _ (List.flatMap_congr fun c _ => preorder_builtTree n (p ++ [c]))

/-- What is printed for a key that was given. -/
def builtLines (b : TestHiveBuilder) (p : Path) : List Str :=
  keyLine p.length (latin1 (keyName p)) :: (b.valuesAt p).map fun v =>
    valueLine p.length v.name (.fromRaw v.dataType) (preview v.shown)

/-- The lines of a key of the builder are those of the values given for it. -/
theorem keyOutput_built (p : Path) :
    keyOutput b.registry (p.length, p) = .say (builtLines b p) := by
  show (Output.say [_]).andThen ((Output.say (((b.valuesAt p).map TreeValue.shown).map _)).andThen
    (Output.say [])) = _
  rw [Output.andThen_nil, List.map_map]
  rfl

/-- **The dump of a built file** prints every key and every value that was given, once, depth first.
    The builder's paths unroll to a finite tree in which nothing fails, so the dump is its
    pre-order. -/
theorem dump_build (h : b.Valid) {n : Nat} (hn : b.depth < n)
    (hsize : b.planOf.totalFileSize < 2 ^ 31) :
    ∃ image, (b.build n : Exec HiveError Bytes) = .ok image ∧
      Prints (cmdDump image none 0) (.say (([] :: order b).flatMap (builtLines b))) := by
  obtain ⟨image, hive, hbuild, hopen, hshows⟩ := build_shows h hn hsize
  refine ⟨image, hbuild, ?_⟩
  have hlines : (builtTree b b.depth []).preorder.map (keyOutput b.registry) =
      ([] :: order b).map fun p => .say (builtLines b p) :=
    (congrArg (List.map _) (preorder_builtTree b.depth [])).trans <|
      List.map_map.trans (List.map_congr_left fun p _ => keyOutput_built p)
  have hprints : Prints (cmdDump image none 0) _ :=
    cmdDump_visited hshows hopen rfl (visited_built b)
  rwa [hlines, Output.all_say] at hprints

set_option maxRecDepth 20000 in
/-- The sample as a whole, from the root down. -/
theorem dump_build_values : ∃ image, (valuesBuilder.build 3 : Exec HiveError Bytes) = .ok image ∧
    Prints (cmdDump image none 0) (.say (["[CMI-root]", "  [A]", "    v (REG_SZ) = x",
      "    (Default) (REG_DWORD) = 0x00000006", "    raw (REG_BINARY) = [01, AB]",
      "    [B]"].map String.toList)) := by
  obtain ⟨image, hbuild, hprints⟩ := dump_build valuesBuilder_valid (n := 3) (by decide) (by decide)
  refine ⟨image, hbuild, Eq.mp (congrArg (Prints _) ?_) hprints⟩
  decide

end Built

end Cli

end Winreg
