/-
  SEARCHING a registry: the lines that `reg4n6 search` prints, and the counts of `reg4n6 info`.

  Both go over the keys of the hive from the breadth-first iterator and stop at its first error.  A
  search has up to three patterns, for the names of keys, the names of values and the data of
  values; it ignores ASCII case.

  1. **Programs** — `cmdSearch` and `cmdInfo`.
  2. **What is printed** — a search prints what it finds in the visited keys, in level order, up to
     the first failing listing (`search_prints`).
  3. **Counting** — the info counts the visited keys and adds up the numbers of values that they
     declare, both in 64 bits: a release build prints the sums modulo 2^64, a debug build aborts
     where they do not fit (`info_prints`).
  4. **Built files** — a search finds what was given, once (`search_build`).
-/
import Winreg.Artifacts.Findings
import Winreg.Artifacts.UserHives
import Winreg.Cli.Dump

namespace Winreg

open Rust Relation Exec TestUtil

namespace Cli

/-! ## Programs -/

/-- The pattern occurs in the text, but for ASCII case. -/
def matchesPattern (pattern : Option Str) (s : Str) : Bool :=
  pattern.any (· <:+: toAsciiUppercase s)

/-- The line of a value that matches. -/
def matchLine (key name : Str) (dataType : ValueType) (text : Str) : Str :=
  "VALUE: ".toList ++ key ++ "\\".toList ++ name ++ " (".toList ++ dataType.name ++ ") = ".toList ++
    text

section Search

variable (keyPattern valPattern dataPattern : Option Str)

/-- The lines of a key that match by its name. -/
def keyMatch (name : Str) : List Str :=
  if matchesPattern keyPattern name then ["KEY: ".toList ++ name] else []

/-- The data of a value match; data that are not read do not. -/
def dataMatches (r : CellReader) (val : Value) : Exec HiveError Bool :=
  match dataPattern with
  | some pattern => (val.asString r).okOr false fun s => .ok (pattern <:+: toAsciiUppercase s)
  | none => .ok false

/-- One pass of the loop over the values of a key. -/
def searchValue (r : CellReader) (key : Str) (val : Value) : Exec HiveError (List Str) := do
  let matched := matchesPattern valPattern val.name
  let dataMatched ← dataMatches dataPattern r val
  if matched || dataMatched then do
    let text ← (val.asString r).unwrapOr "<binary>".toList
    .ok [matchLine key val.name val.dataType text]
  else .ok []

/-- The values of a key, if there is a pattern for them. -/
def searchValues (r : CellReader) (printed : List Str) (key : Key) :
    Exec (Aborted CliError) (List Str) :=
  -- without a pattern for them the values are not even listed
  if valPattern.isSome || dataPattern.isSome then do
    let values ← (key.values r).orAbort .hive printed
    values.foldlM (fun printed val => do
      let lines ← (searchValue valPattern dataPattern r key.name val).orAbort .hive printed
      .ok (printed ++ lines)) printed
  else .ok printed

/-- The body of the loop over the keys. -/
def searchKey (r : CellReader) (printed : List Str) (key : Key) :
    Exec (Aborted CliError) (List Str) :=
  searchValues valPattern dataPattern r (printed ++ keyMatch keyPattern key.name) key

end Search

/-- `let key = item?;` and the body of the loop. -/
def onItem {σ : Type} (printed : σ → List Str) (visit : σ → Key → Exec (Aborted CliError) σ) (s : σ) :
    IterItem → Exec (Aborted CliError) σ
  | .ok key => visit s key
  | .error e => .err ⟨.hive e, printed s⟩

/-- `for item in hive.iter_bfs()? { .. }` -/
def forKeys {σ : Type} (hive : Hive) (printed : σ → List Str)
    (visit : σ → Key → Exec (Aborted CliError) σ) (n : Nat) (s : σ) : Exec (Aborted CliError) σ := do
  let root ← hive.rootKey.orAbort .hive (printed s)
  Exec.loop (itemPass .hive printed (onItem printed visit) (BfsIter.next hive.reader n)) n ([root], s)

/-- Print the matches of up to three patterns, key by key in breadth-first order. -/
def cmdSearch (data : Bytes) (keyName valueName valueData : Option Str) (n : Nat)
    (printed : List Str) : Exec (Aborted CliError) (List Str) := do
  let hive ← (Hive.fromBytes data).orAbort .hive printed
  let keyPattern := keyName.map toAsciiUppercase
  let valPattern := valueName.map toAsciiUppercase
  let dataPattern := valueData.map toAsciiUppercase
  forKeys hive id (searchKey keyPattern valPattern dataPattern hive.reader) n printed

/-- The version as it is printed. -/
def versionStr : RegfVersion → Str
  | .v1_0 => "1.0".toList
  | .v1_3 => "1.3".toList
  | .v1_4 => "1.4".toList
  | .v1_5 => "1.5".toList
  | .v1_6 => "1.6".toList

/-- The lines about the hive as a whole. -/
def infoLines (path : Str) (hive : Hive) (hiveType : HiveType) : List Str :=
  ["File:           ".toList ++ path,
   "Hive type:      ".toList ++ Catalog.typeName hiveType,
   "Version:        ".toList ++ versionStr hive.version,
   "Clean:          ".toList ++ (if hive.isClean then "yes".toList else "NO (dirty)".toList),
   "Bins:           ".toList ++ decimal hive.bins.length,
   "Data size:      ".toList ++ decimal hive.header.hiveBinsDataSize.toNat ++ " bytes".toList,
   "Internal name:  ".toList ++ decodeUtf16le hive.header.fileName]

/-- The two lines with the counts. -/
def countLines (keyCount valueCount : UInt64) : List Str :=
  ["Keys:           ".toList ++ decimal keyCount.toNat,
   "Values:         ".toList ++ decimal valueCount.toNat]

/-- One pass of the loop that counts keys and values: `key_count += 1`, and `value_count` with the
    number that the key declares, whatever its list of values holds. -/
def countKey (profile : Profile) (counts : UInt64 × UInt64) (key : Key) :
    Exec (Aborted CliError) (UInt64 × UInt64) := do
  let keyCount ← profile.addU64 counts.1 1
  let valueCount ← profile.addU64 counts.2 key.node.valueCount.toUInt64
  .ok (keyCount, valueCount)

/-- Print what the header says, then count keys and values; the counts are printed when all keys
    have been visited. -/
def cmdInfo (profile : Profile) (path : Str) (data : Bytes) (n : Nat) (printed : List Str) :
    Exec (Aborted CliError) (List Str) := do
  let hive ← (Hive.fromBytes data).orAbort .hive printed
  let hiveType ← (hive.detectHiveType n).orAbort .hive printed
  let printed := printed ++ infoLines path hive hiveType
  let counts ← forKeys hive (fun _ => printed) (countKey profile) n (0, 0)
  .ok (printed ++ countLines counts.1 counts.2)

/-! ## What is printed -/

section Search

variable (keyPattern valPattern dataPattern : Option Str)

/-- A search finds the value. -/
def valueMatches (v : ShownValue) : Bool :=
  matchesPattern valPattern v.name || v.text.any (matchesPattern dataPattern)

/-- The lines of the values that are found. -/
def valueMatchLines (key : Str) (values : List ShownValue) : List Str :=
  (values.filter (valueMatches valPattern dataPattern)).map fun v =>
    matchLine key v.name v.dataType (v.text.getD "<binary>".toList)

/-- What is printed for the values of a key, which have to be there if they matter. -/
def valuesOutput (reg : Registry) (a : reg.Node) : Output :=
  if valPattern.isSome || dataPattern.isSome then
    (reg.values a).elim .failed fun values =>
      .say (valueMatchLines valPattern dataPattern (reg.name a) values)
  else .say []

/-- What is printed for a key, of which the subkeys have to be there. -/
def searchOutput (reg : Registry) (p : Nat × reg.Node) : Output :=
  (reg.subkeys p.2).elim .failed fun _ =>
    (Output.say (keyMatch keyPattern (reg.name p.2))).andThen
      (valuesOutput valPattern dataPattern reg p.2)

end Search

section Shows

variable {hive : Hive} {reg : Registry} {rel : Key → reg.Node → Prop}

/-- Whether a value matches depends on what is read of it only; its data is read only where the data
    pattern asks for it. -/
theorem searchValue_eq (valPattern dataPattern : Option Str) {r : CellReader} (key : Str)
    {val : Value} {v : ShownValue} (h : ShowsValue r val v) :
    searchValue valPattern dataPattern r key val =
      .ok (valueMatchLines valPattern dataPattern key [v]) := by
  have htext : (val.asString r).unwrapOr "<binary>".toList =
      .ok (v.text.getD "<binary>".toList) := h.asString.unwrapOr _
  have hdata : dataMatches dataPattern r val = .ok (v.text.any (matchesPattern dataPattern)) := by
    cases dataPattern with
    | none => cases v.text <;> rfl
    | some pattern =>
      refine (h.asString.mapOr _ _).trans ?_
      cases v.text <;> rfl
  unfold searchValue
  rw [hdata, Exec.ok_bind, htext, h.name, h.dataType]
  show (if valueMatches valPattern dataPattern v then _ else _) = _
  unfold valueMatchLines
  cases hmatch : valueMatches valPattern dataPattern v with
  | false => rw [List.filter_cons_of_neg (by rw [hmatch]; decide)]; rfl
  | true => rw [List.filter_cons_of_pos hmatch]; rfl

/-- Lines that are found value by value. -/
theorem flatMap_valueMatchLines (valPattern dataPattern : Option Str) (key : Str) :
    ∀ values : List ShownValue,
      (values.flatMap fun v => valueMatchLines valPattern dataPattern key [v]) =
        valueMatchLines valPattern dataPattern key values
  | [] => rfl
  | v :: values => by
    rw [List.flatMap_cons, flatMap_valueMatchLines valPattern dataPattern key values]
    unfold valueMatchLines
    rw [← List.map_append, ← List.filter_append, List.singleton_append]

variable (shows_ : hive.Shows reg rel)

include shows_

/-- What is printed for one key: its own match, then those of its values, where a failing listing
    stops behind the key's own line. -/
theorem searchKey_prints (keyPattern valPattern dataPattern : Option Str) {key : Key}
    {a : reg.Node} (hkey : rel key a) :
    Prints (fun _ printed => searchKey keyPattern valPattern dataPattern hive.reader printed key)
      ((Output.say (keyMatch keyPattern (reg.name a))).andThen
        (valuesOutput valPattern dataPattern reg a)) := by
  have hvalues : Prints (fun _ printed =>
      searchValues valPattern dataPattern hive.reader printed key)
      (valuesOutput valPattern dataPattern reg a) := by
    unfold searchValues valuesOutput
    rw [← shows_.name hkey]
    split
    · refine Prints.read (shows_.values hkey).from _ fun vals values hvals => ?_
      rw [← flatMap_valueMatchLines, ← Output.all_say]
      refine Prints.foldlM hvals fun val v hv => (Prints.say _).congr fun n printed => ?_
      rw [searchValue_eq valPattern dataPattern key.name hv]
      rfl
    · refine (Prints.say []).congr fun n printed => ?_
      rw [List.append_nil]
  rw [← shows_.name hkey]
  exact (Prints.say _).andThen hvalues

/-- A loop over the keys is the fold over what the iterator yields for the visited keys. -/
theorem forKeys_items {a : reg.Node} (hroot : reg.root = some a) {t : Rose (Nat × reg.Node)}
    (ht : reg.Visited 0 0 a t) : ∃ items, List.Forall₂ (reg.Yielded rel) items t.levelOrder ∧
      ∀ {σ : Type} (printed : σ → List Str) (visit : σ → Key → Exec (Aborted CliError) σ) (s : σ),
        Evals (fun n => forKeys hive printed visit n s) (items.foldlM (onItem printed visit) s) := by
  have hstart := shows_.root
  rw [hroot] at hstart
  generalize hopen : hive.rootKey = x at hstart
  cases hstart with
  | @value root _ ha =>
    obtain ⟨items, hyields, hitems⟩ := shows_.yields_visited ha ht
    refine ⟨items, hitems, fun printed visit s => ?_⟩
    obtain ⟨N, hN⟩ : ∃ N, ∀ m n, N ≤ m → N ≤ n →
        Exec.loop (itemPass CliError.hive printed (onItem printed visit) (BfsIter.next hive.reader m))
          n ([root], s) = items.foldlM (onItem printed visit) s := forItems_yields hyields s
    refine ⟨N, fun n hn => ?_⟩
    show forKeys hive printed visit n s = _
    rw [forKeys, hopen]
    exact hN n n hn hn

/-- **A loop over the keys** prints what its body prints for the visited keys, up to the first error
    of the iterator. -/
theorem forKeys_prints {visit : List Str → Key → Exec (Aborted CliError) (List Str)}
    {output : reg.Node → Output}
    (hvisit : ∀ key a, rel key a → Prints (fun _ printed => visit printed key) (output a))
    {a : reg.Node} (hroot : reg.root = some a) {t : Rose (Nat × reg.Node)}
    (ht : reg.Visited 0 0 a t) :
    Prints (fun n printed => forKeys hive id visit n printed)
      (.all (t.levelOrder.map fun p => (reg.subkeys p.2).elim .failed fun _ => output p.2)) := by
  obtain ⟨items, hitems, hloop⟩ := forKeys_items shows_ hroot ht
  have hfold : Prints (fun _ printed => items.foldlM (onItem id visit) printed)
      (.all (t.levelOrder.map fun p => (reg.subkeys p.2).elim .failed fun _ => output p.2)) := by
    refine Prints.foldlM hitems ?_
    rintro item p hitem
    cases hitem with
    | @key k _ hk hsubkeys =>
      obtain ⟨kids, hkids⟩ := Option.ne_none_iff_exists'.mp hsubkeys
      rw [hkids]
      exact hvisit k p.2 hk
    | @error e _ hsubkeys =>
      rw [hsubkeys]
      exact Prints.fail (CliError.hive e)
  intro printed
  obtain ⟨x, hx, hleaves⟩ := hfold printed
  obtain rfl := hx.unique (.const _)
  exact ⟨_, hloop id visit printed, hleaves⟩

/-- Commands that go over the keys fail where the root is not there. -/
theorem forKeys_missing (visit : List Str → Key → Exec (Aborted CliError) (List Str))
    (hroot : reg.root = none) : Prints (fun n printed => forKeys hive id visit n printed) .failed := by
  have hstart := shows_.root
  rw [hroot] at hstart
  generalize hopen : hive.rootKey = x at hstart
  cases hstart with
  | error e =>
    refine (Prints.fail (CliError.hive e)).congr fun n printed => ?_
    rw [forKeys, hopen]
    rfl

omit shows_ in
/-- On a file that opens, the command is the loop over the keys with the folded patterns. -/
theorem cmdSearch_eq {data : Bytes} (hopen : Hive.fromBytes data = .ok hive)
    (keyName valueName valueData : Option Str) (n : Nat) (printed : List Str) :
    cmdSearch data keyName valueName valueData n printed =
      forKeys hive id (searchKey (keyName.map toAsciiUppercase) (valueName.map toAsciiUppercase)
        (valueData.map toAsciiUppercase) hive.reader) n printed := by
  rw [cmdSearch, hopen]
  rfl

/-- A search prints what it finds in the visited keys. -/
theorem cmdSearch_visited {data : Bytes} (hopen : Hive.fromBytes data = .ok hive)
    {a : reg.Node} (hroot : reg.root = some a) {t : Rose (Nat × reg.Node)}
    (ht : reg.Visited 0 0 a t) (keyName valueName valueData : Option Str) :
    Prints (cmdSearch data keyName valueName valueData)
      (.all (t.levelOrder.map (searchOutput (keyName.map toAsciiUppercase)
        (valueName.map toAsciiUppercase) (valueData.map toAsciiUppercase) reg))) :=
  (forKeys_prints shows_ (fun _ _ hkey => searchKey_prints shows_ _ _ _ hkey) hroot ht).congr
    (cmdSearch_eq hopen keyName valueName valueData)

/-- **What a search prints**: what it finds in the keys of the hive, in level order, up to the
    first one of which the subkeys or, if they matter, the values cannot be listed.  The iterator
    yields a key, or an error in its place; the loop goes through these items, and stops at the
    first error. -/
theorem search_prints {data : Bytes} (hopen : Hive.fromBytes data = .ok hive)
    (hcycle : hive.NoKeyCycle) (keyName valueName valueData : Option Str) :
    match reg.root with
    | some a => ∃ t, reg.Visited 0 0 a t ∧
        Prints (cmdSearch data keyName valueName valueData)
          (.all (t.levelOrder.map (searchOutput (keyName.map toAsciiUppercase)
            (valueName.map toAsciiUppercase) (valueData.map toAsciiUppercase) reg)))
    | none => Prints (cmdSearch data keyName valueName valueData) .failed := by
  cases hroot : reg.root with
  | none =>
    exact (forKeys_missing shows_ _ hroot).congr (cmdSearch_eq hopen keyName valueName valueData)
  | some a =>
    obtain ⟨t, ht⟩ := shows_.exists_visited_root hcycle hroot
    exact ⟨t, ht, cmdSearch_visited shows_ hopen hroot ht keyName valueName valueData⟩

end Shows

set_option maxRecDepth 20000 in
/-- The keys of the sample, level by level. -/
theorem levelOrder_values : (builtTree valuesBuilder valuesBuilder.depth []).levelOrder =
    [(0, ([] : Path)), (1, ["A".toList]), (2, ["A".toList, "B".toList])] := by
  have htree : builtTree valuesBuilder valuesBuilder.depth [] =
      .node (0, ([] : Path)) [.node (1, ["A".toList]) [.node (2, ["A".toList, "B".toList]) []]] := rfl
  rw [htree]
  simp [Rose.levelOrder, Rose.height, Rose.level, Rose.value, Rose.children, List.range_succ]
  rfl

set_option maxRecDepth 20000 in
/-- One value by its data, and one key by its name, in level order. -/
theorem search_prints_values : ∃ image,
    (valuesBuilder.build 3 : Exec HiveError Bytes) = .ok image ∧
      Prints (cmdSearch image (some "b".toList) none (some "X".toList))
        (.say (["VALUE: A\\v (REG_SZ) = x", "KEY: B"].map String.toList)) := by
  obtain ⟨image, hive, hbuild, hopen, hshows⟩ :=
    build_shows valuesBuilder_valid (n := 3) (by decide) (by decide)
  have hcycle := hshows.noKeyCycle rfl (visited_built valuesBuilder)
  obtain ⟨t, ht, hprints⟩ : ∃ t, _ ∧ _ :=
    search_prints hshows hopen hcycle (some "b".toList) none (some "X".toList)
  obtain rfl := ht.unique _ (visited_built valuesBuilder)
  refine ⟨image, hbuild, Eq.mp (congrArg (Prints _) ?_) hprints⟩
  rw [levelOrder_values]
  decide

/-! ## Counting -/

section Counts

variable {hive : Hive} {reg : Registry} {rel : Key → reg.Node → Prop}

/-- A pass over an entry adds one value or none. -/
theorem readValueEntry_cases {r : CellReader} {body : Bytes} {i : Nat} {vals : List Value}
    {p : Exec.Pass (List Value) (List Value)} (h : Key.readValueEntry r body i vals = .ok p) :
    p = .leave vals ∨ p = .again vals ∨ ∃ val, p = .again (vals ++ [val]) := by
  unfold Key.readValueEntry at h
  dsimp only at h
  split at h
  · exact .inl (Exec.ok.inj h).symm
  · obtain ⟨cell, _, hcell⟩ := Exec.bind_eq_ok.mp h
    cases cell with
    | keyValue vk => exact .inr (.inr ⟨_, (Exec.ok.inj hcell).symm⟩)
    | _ => exact .inr (.inl (Exec.ok.inj hcell).symm)

/-- A key lists at most as many values as it declares: unreadable ones are left out. -/
theorem length_values_le {r : CellReader} {key : Key} {vals : List Value}
    (h : key.values r = .ok vals) : vals.length ≤ key.node.valueCount.toNat := by
  unfold Key.values at h
  split at h
  · obtain rfl := Exec.ok.inj h
    exact Nat.zero_le _
  · obtain ⟨⟨_, body⟩, _, h⟩ := Exec.bind_eq_ok.mp h
    have hle := forRange_le List.length (fun i s t hpass => ?_) (fun i s t hpass => ?_) _ _ _ _ h
    · rwa [List.length_nil, Nat.zero_add] at hle
    · rcases readValueEntry_cases hpass with h | h | ⟨val, h⟩
      · cases h
      · cases h
        exact Nat.le_succ _
      · cases h
        rw [List.length_append, List.length_singleton]
    · rcases readValueEntry_cases hpass with h | h | ⟨val, h⟩
      · cases h
        exact Nat.le_succ _
      · cases h
      · cases h

/-- The number of values that some visited keys declare. -/
def declared (ps : List (Nat × Key)) : Nat := (ps.map fun p => p.2.node.valueCount.toNat).sum

/-- Both counters have room for some more keys and their values; only a debug build asks. -/
def Fits (profile : Profile) (counts : UInt64 × UInt64) (ps : List (Nat × Key)) : Prop :=
  profile = .debug →
    counts.1.toNat + ps.length < 2 ^ 64 ∧ counts.2.toNat + declared ps < 2 ^ 64

instance (profile : Profile) (counts : UInt64 × UInt64) (ps : List (Nat × Key)) :
    Decidable (Fits profile counts ps) :=
  inferInstanceAs (Decidable (profile = .debug → _ ∧ _))

/-- The counters after some more keys. -/
def countedWith (counts : UInt64 × UInt64) (ps : List (Nat × Key)) : UInt64 × UInt64 :=
  (counts.1 + .ofNat ps.length, counts.2 + .ofNat (declared ps))

/-- The first key's count is added to that of the others. -/
theorem declared_cons (p : Nat × Key) (ps : List (Nat × Key)) :
    declared (p :: ps) = p.2.node.valueCount.toNat + declared ps := List.sum_cons

/-- The counters go on from where the first key has left them. -/
theorem countedWith_cons (counts : UInt64 × UInt64) (p : Nat × Key) (ps : List (Nat × Key)) :
    countedWith counts (p :: ps) = countedWith (countedWith counts [p]) ps := by
  have hkeys : UInt64.ofNat (p :: ps).length = .ofNat [p].length + .ofNat ps.length := by
    rw [← UInt64.ofNat_add, List.length_cons, List.length_singleton, Nat.add_comm]
  have hvalues : UInt64.ofNat (declared (p :: ps)) = .ofNat (declared [p]) + .ofNat (declared ps) := by
    rw [← UInt64.ofNat_add, declared_cons, declared_cons]
    rfl
  rw [countedWith, hkeys, hvalues, ← UInt64.add_assoc, ← UInt64.add_assoc]
  rfl

/-- There is room for a key and those behind it if there is for the key, and then for the others. -/
theorem fits_cons {profile : Profile} {counts : UInt64 × UInt64} {p : Nat × Key}
    {ps : List (Nat × Key)} :
    Fits profile counts (p :: ps) ↔
      Fits profile counts [p] ∧ Fits profile (countedWith counts [p]) ps := by
  have hsum : declared [p] = p.2.node.valueCount.toNat := declared_cons p []
  -- a debug build that has counted the first key has counted it without overflow
  have hcounted : Fits profile counts [p] → profile = .debug →
      (countedWith counts [p]).1.toNat = counts.1.toNat + 1 ∧
        (countedWith counts [p]).2.toNat = counts.2.toNat + declared [p] := by
    intro hone hdebug
    have hfits := hone hdebug
    rw [List.length_singleton] at hfits
    have hvalue : (UInt64.ofNat (declared [p])).toNat = declared [p] :=
      UInt64.toNat_ofNat_of_lt' (show declared [p] < 2 ^ 64 by omega)
    constructor
    · show (counts.1 + 1).toNat = _
      rw [UInt64.toNat_add, UInt64.toNat_one, Nat.mod_eq_of_lt hfits.1]
    · show (counts.2 + .ofNat (declared [p])).toNat = _
      rw [UInt64.toNat_add, hvalue, Nat.mod_eq_of_lt hfits.2]
  constructor
  · intro h
    have hone : Fits profile counts [p] := fun hdebug => by
      have hall := h hdebug
      rw [declared_cons, List.length_cons] at hall
      rw [hsum, List.length_singleton]
      omega
    refine ⟨hone, fun hdebug => ?_⟩
    have hall := h hdebug
    have hstep := hcounted hone hdebug
    rw [declared_cons, List.length_cons] at hall
    omega
  · rintro ⟨hone, hrest⟩ hdebug
    have hafter := hrest hdebug
    have hstep := hcounted hone hdebug
    rw [declared_cons, List.length_cons]
    omega

/-- One pass counts the key, or aborts where the counters have no room for it. -/
theorem countKey_eq (profile : Profile) (counts : UInt64 × UInt64) (p : Nat × Key) :
    countKey profile counts p.2 =
      if Fits profile counts [p] then .ok (countedWith counts [p]) else .panic := by
  have hsum : declared [p] = p.2.node.valueCount.toNat := declared_cons p []
  have hone : (1 : UInt64).toNat = 1 := rfl
  have hcount : p.2.node.valueCount.toUInt64.toNat = declared [p] := by
    rw [hsum, UInt32.toNat_toUInt64]
  have hword : UInt64.ofNat (declared [p]) = p.2.node.valueCount.toUInt64 := by
    rw [hsum, UInt64.ofNat_uInt32ToNat]
  unfold countKey
  split
  · rename_i hfits
    rw [Profile.addU64_eq_ok fun hdebug => by rw [hone]; exact (hfits hdebug).1, Exec.ok_bind,
      Profile.addU64_eq_ok fun hdebug => by rw [hcount]; exact (hfits hdebug).2, Exec.ok_bind,
      countedWith, hword]
    rfl
  · rename_i hfull
    obtain ⟨rfl, hroom⟩ := Classical.not_imp.mp hfull
    by_cases hkeys : counts.1.toNat + 1 < 2 ^ 64
    · have hvalues : ¬ counts.2.toNat + declared [p] < 2 ^ 64 := fun h => hroom ⟨hkeys, h⟩
      rw [Profile.addU64_eq_ok fun _ => by rw [hone]; exact hkeys, Exec.ok_bind,
        Profile.addU64_eq_panic (by rw [hcount]; exact hvalues)]
      rfl
    · rw [Profile.addU64_eq_panic (by rw [hone]; exact hkeys)]
      rfl

/-- A key declares no fewer values than can be listed. -/
theorem valueList_length_le (shows_ : hive.Shows reg rel) {k : Key} {a : reg.Node} (hk : rel k a) :
    (reg.valueList a).length ≤ k.node.valueCount.toNat := by
  have hvalues := shows_.values hk
  unfold Registry.valueList
  generalize hlist : k.values hive.reader = x, reg.values a = o at hvalues
  cases hvalues with
  | @value vals values h =>
    rw [Option.getD_some, ← h.length_eq]
    exact length_values_le hlist
  | error e => exact Nat.zero_le _

/-- The visited keys up to the first of which the subkeys cannot be listed. -/
noncomputable def listedKeys (hive : Hive) (ps : List (Nat × Key)) : List (Nat × Key) :=
  ps.takeWhile fun p => (hive.registry.subkeys p.2).isSome

/-- All of them, where all can be listed. -/
theorem listedKeys_eq_self {ps : List (Nat × Key)}
    (h : ∀ p ∈ ps, hive.registry.subkeys p.2 ≠ none) : listedKeys hive ps = ps :=
  List.takeWhile_eq_self_iff.mpr fun p hp => Option.ne_none_iff_isSome.mp (h p hp)

/-- For a key whose subkeys are listed the iterator yields the key. -/
theorem yielded_listed {item : IterItem} {p : Nat × hive.registry.Node}
    (h : hive.registry.Yielded hive.IsShown item p) (hlisted : hive.registry.subkeys p.2 ≠ none) :
    item = .ok p.2 := by
  obtain ⟨depth, a⟩ := p
  cases h with
  | error hnone => exact absurd hnone hlisted
  | key hk _ =>
    cases hk
    rfl

/-- For any other one it yields an error. -/
theorem yielded_unlisted {item : IterItem} {p : Nat × hive.registry.Node}
    (h : hive.registry.Yielded hive.IsShown item p) (hnone : hive.registry.subkeys p.2 = none) :
    ∃ e, item = .error e := by
  obtain ⟨depth, a⟩ := p
  cases h with
  | error _ => exact ⟨_, rfl⟩
  | key _ hsome => exact absurd hnone hsome

section Loop

variable {items : List IterItem} {ps : List (Nat × Key)}
  (h : List.Forall₂ (hive.registry.Yielded hive.IsShown) items ps) (profile : Profile)
  (printed : List Str)

include h

/-- Counting keys of which the subkeys are listed: the induction is on the keys, and what is kept is
    that the counters are what the keys so far have added to them. -/
theorem countKeys : (∀ p ∈ ps, hive.registry.subkeys p.2 ≠ none) → ∀ counts : UInt64 × UInt64,
    items.foldlM (onItem (fun _ => printed) (countKey profile)) counts =
      if Fits profile counts ps then .ok (countedWith counts ps) else .panic := by
  induction h with
  | nil =>
    intro _ counts
    have hnone : countedWith counts [] = counts :=
      Prod.ext (UInt64.add_zero counts.1) (UInt64.add_zero counts.2)
    have hfits : Fits profile counts [] := fun _ =>
      ⟨UInt64.toNat_lt_size counts.1, UInt64.toNat_lt_size counts.2⟩
    rw [if_pos hfits, hnone]
    rfl
  | @cons item p items ps hitem _ ih =>
    intro hlisted counts
    obtain rfl : item = .ok p.2 := yielded_listed hitem (hlisted p List.mem_cons_self)
    rw [List.foldlM_cons, onItem, countKey_eq profile counts p, countedWith_cons counts p ps]
    by_cases hfits : Fits profile counts [p]
    · rw [if_pos hfits, Exec.ok_bind, ih fun q hq => hlisted q (List.mem_cons_of_mem _ hq)]
      exact if_congr (fits_cons.trans (and_iff_right hfits)).symm rfl rfl
    · rw [if_neg hfits, if_neg fun hall => hfits (fits_cons.mp hall).1]
      rfl

/-- **The loop that counts** goes over the keys up to the first of which the subkeys cannot be
    listed.  It aborts where the counters have no room for these; else it ends with the sums, or at
    the error in place of that key. -/
theorem countKeys_outcome :
    (Fits profile (0, 0) (listedKeys hive ps) →
      ((∀ p ∈ ps, hive.registry.subkeys p.2 ≠ none) →
        items.foldlM (onItem (fun _ => printed) (countKey profile)) (0, 0) =
          .ok (.ofNat ps.length, .ofNat (declared ps))) ∧
      ((∃ p ∈ ps, hive.registry.subkeys p.2 = none) → ∃ e,
        items.foldlM (onItem (fun _ => printed) (countKey profile)) (0, 0) =
          .err ⟨e, printed⟩)) ∧
    (¬ Fits profile (0, 0) (listedKeys hive ps) →
      items.foldlM (onItem (fun _ => printed) (countKey profile)) (0, 0) = .panic) := by
  -- the keys up to the first failing listing, and from it on
  have hsplit : listedKeys hive ps ++
      ps.dropWhile (fun p => (hive.registry.subkeys p.2).isSome) = ps :=
    List.takeWhile_append_dropWhile
  have hlisted : ∀ p ∈ listedKeys hive ps, hive.registry.subkeys p.2 ≠ none := fun p hp =>
    Option.ne_none_iff_isSome.mpr (List.mem_takeWhile_imp (p := fun p : Nat × Key =>
      (hive.registry.subkeys p.2).isSome) hp)
  have hitems := h
  rw [← hsplit] at hitems
  have hbefore : (items.take (listedKeys hive ps).length).foldlM
      (onItem (fun _ => printed) (countKey profile)) (0, 0) =
        if Fits profile (0, 0) (listedKeys hive ps) then
          .ok (countedWith (0, 0) (listedKeys hive ps)) else .panic :=
    countKeys (List.forall₂_take_append _ _ _ hitems) profile printed hlisted (0, 0)
  have hbehind : List.Forall₂ (hive.registry.Yielded hive.IsShown)
      (items.drop (listedKeys hive ps).length)
      (@List.dropWhile (Nat × Key) (fun p => (hive.registry.subkeys p.2).isSome) ps) :=
    List.forall₂_drop_append _ _ _ hitems
  have hrun : items.foldlM (onItem (fun _ => printed) (countKey profile)) (0, 0) =
      (if Fits profile (0, 0) (listedKeys hive ps) then
        .ok (countedWith (0, 0) (listedKeys hive ps)) else .panic) >>=
        fun counts => (items.drop (listedKeys hive ps).length).foldlM
          (onItem (fun _ => printed) (countKey profile)) counts := by
    rw [← hbefore, ← List.foldlM_append, List.take_append_drop]
  refine ⟨fun hfits => ⟨fun hall => ?_, fun hfails => ?_⟩, fun hfull => ?_⟩
  · rw [countKeys h profile printed hall, if_pos (listedKeys_eq_self hall ▸ hfits)]
    exact congrArg Exec.ok (Prod.ext (UInt64.zero_add _) (UInt64.zero_add _))
  · rw [hrun, if_pos hfits, Exec.ok_bind]
    generalize items.drop (listedKeys hive ps).length = rest at hbehind
    generalize hdropped : ps.dropWhile (fun p => (hive.registry.subkeys p.2).isSome) = dropped
      at hbehind
    cases hbehind with
    -- nothing is left, so every key was listed
    | nil =>
      obtain ⟨p, hp, hnone⟩ := hfails
      have hall := List.dropWhile_eq_nil_iff.mp hdropped p hp
      rw [hnone] at hall
      cases hall
    | @cons item p rest dropped hitem _ =>
      -- the first key that is left is the one that was not listed, and its item is an error
      have hstop : (hive.registry.subkeys p.2).isSome = false := by
        have hhead := List.head_dropWhile_not (fun p : Nat × Key =>
          (hive.registry.subkeys p.2).isSome) (by rw [hdropped]; exact List.cons_ne_nil _ _)
        simp only [hdropped, List.head_cons] at hhead
        exact hhead
      obtain ⟨e, rfl⟩ := yielded_unlisted hitem
        (Option.isNone_iff_eq_none.mp (Option.isSome_eq_false_iff.mp hstop))
      exact ⟨.hive e, rfl⟩
  · rw [hrun, if_neg hfull]
    rfl

end Loop

/-- The command on a hive that opens: the lines about the hive, then the loop. -/
theorem cmdInfo_eq {hive : Hive} (shows_ : hive.Shows hive.registry hive.IsShown) {data : Bytes}
    (hopen : Hive.fromBytes data = .ok hive) (profile : Profile) (path : Str) (printed : List Str) :
    ∃ N, ∀ n, N ≤ n → cmdInfo profile path data n printed =
      (forKeys hive (fun _ => printed ++ infoLines path hive hive.registry.hiveType)
        (countKey profile) n (0, 0) >>= fun counts =>
          .ok (printed ++ infoLines path hive hive.registry.hiveType ++
            countLines counts.1 counts.2)) := by
  obtain ⟨N, hN⟩ := detectHiveType_evals shows_
  refine ⟨N, fun n hn => ?_⟩
  have htype : hive.detectHiveType n = .ok hive.registry.hiveType := hN n hn
  rw [cmdInfo, hopen]
  show ((hive.detectHiveType n).orAbort CliError.hive printed >>= _) = _
  rw [htype]
  rfl

/-- **What the info prints** on a hive whose reads return.  The lines about the hive come first, also
    where the root cannot be read.  The loop goes over the keys in level order up to the first of
    which the subkeys cannot be listed.  Where it meets none, the number of all keys is printed and
    the sum of the numbers of values that they declare, both modulo 2^64, and this sum is no smaller
    than the number of values that can be listed; where it meets one, the command fails behind the
    lines about the hive.  A debug build whose counters overflow on the way aborts. -/
theorem info_prints (profile : Profile) {hive : Hive} {data : Bytes}
    (hopen : Hive.fromBytes data = .ok hive) (hreads : hive.ReadsReturn)
    (hcycle : hive.NoKeyCycle) (path : Str) :
    (∀ e, hive.rootKey = .err e →
      Prints (cmdInfo profile path data) ⟨infoLines path hive hive.registry.hiveType, false⟩) ∧
    ∀ root, hive.rootKey = .ok root → ∃ t : Rose (Nat × Key), hive.registry.Visited 0 0 root t ∧
      (t.levelOrder.map fun p => (hive.registry.valueList p.2).length).sum ≤
        declared t.levelOrder ∧
      (Fits profile (0, 0) (listedKeys hive t.levelOrder) →
        ((∀ p ∈ t.levelOrder, hive.registry.subkeys p.2 ≠ none) →
          Prints (cmdInfo profile path data) (.say (infoLines path hive hive.registry.hiveType ++
            countLines (.ofNat t.levelOrder.length) (.ofNat (declared t.levelOrder))))) ∧
        ((∃ p ∈ t.levelOrder, hive.registry.subkeys p.2 = none) →
          Prints (cmdInfo profile path data)
            ⟨infoLines path hive hive.registry.hiveType, false⟩)) ∧
      (¬ Fits profile (0, 0) (listedKeys hive t.levelOrder) → ∀ printed,
        Evals (fun n => cmdInfo profile path data n printed) .panic) := by
  have shows_ := hreads.shows_registry
  have hcmd := cmdInfo_eq shows_ hopen profile path
  refine ⟨fun e herr printed => ?_, fun root hroot => ?_⟩
  · -- without a root the loop over the keys fails before the first one
    obtain ⟨N, hN⟩ := hcmd printed
    refine ⟨_, ⟨N, fun n hn => ?_⟩, .aborted (.hive e)⟩
    show cmdInfo profile path data n printed = _
    rw [hN n hn, forKeys, herr]
    rfl
  · have hstart := Hive.registry_root hroot
    obtain ⟨t, ht⟩ := shows_.exists_visited_root hcycle hstart
    obtain ⟨items, hitems, hloop⟩ := forKeys_items shows_ hstart ht
    -- the command is the fold over the yielded items, whatever that comes to
    have hruns : ∀ printed x, items.foldlM (onItem (fun _ => printed ++
        infoLines path hive hive.registry.hiveType) (countKey profile)) (0, 0) = x →
        Evals (fun n => cmdInfo profile path data n printed) (x >>= fun counts =>
          .ok (printed ++ infoLines path hive hive.registry.hiveType ++
            countLines counts.1 counts.2)) := by
      rintro printed _ rfl
      obtain ⟨M, hM⟩ := hcmd printed
      obtain ⟨N, hN⟩ := hloop (fun _ => printed ++ infoLines path hive hive.registry.hiveType)
        (countKey profile) (0, 0)
      refine ⟨max M N, fun n hn => ?_⟩
      have hcount : forKeys hive (fun _ => printed ++ infoLines path hive hive.registry.hiveType)
          (countKey profile) n (0, 0) = _ := hN n (by omega)
      show cmdInfo profile path data n printed = _
      rw [hM n (by omega), hcount]
    refine ⟨t, ht, ?_, fun hfits => ⟨fun hall printed => ?_, fun hfails printed => ?_⟩,
      fun hfull printed => ?_⟩
    · -- a listing leaves values out, so it is never longer than what the key declares
      refine List.sum_le_sum fun p hp => ?_
      obtain ⟨_, _, hrel⟩ := shows_.visited_registry ht (.mk ⟨root, hroot, .refl⟩)
      obtain ⟨⟨_, k⟩, _, hk⟩ := forall₂_right hrel.levelOrder hp
      have hle := valueList_length_le shows_ hk
      cases hk
      exact hle
    · have hrun := hruns printed _ (((countKeys_outcome hitems profile _).1 hfits).1 hall)
      refine ⟨_, hrun, ?_⟩
      rw [Exec.ok_bind, List.append_assoc]
      exact .ended
    · obtain ⟨e, herr⟩ := ((countKeys_outcome hitems profile
        (printed ++ infoLines path hive hive.registry.hiveType)).1 hfits).2 hfails
      exact ⟨_, hruns printed _ herr, .aborted e⟩
    · exact hruns printed _ ((countKeys_outcome hitems profile _).2 hfull)

end Counts

/-- The key of a path of the builder is settled by the path. -/
theorem isBuilt_eq {b : TestHiveBuilder} {k : Key} {p : Path} (h : b.IsBuilt k p) :
    k = b.keyAt p := by
  cases h
  rfl

set_option maxRecDepth 20000 in
/-- The sample has three keys, and one of them declares its three values. -/
theorem info_prints_values : ∃ image hive,
    (valuesBuilder.build 3 : Exec HiveError Bytes) = .ok image ∧ Hive.fromBytes image = .ok hive ∧
      Prints (cmdInfo .debug "hive".toList image)
        (.say (infoLines "hive".toList hive .unknown ++ countLines 3 3)) := by
  obtain ⟨image, hive, hbuild, hopen, hshows⟩ :=
    build_shows valuesBuilder_valid (n := 3) (by decide) (by decide)
  have hcycle := hshows.noKeyCycle rfl (visited_built valuesBuilder)
  have htype : hive.registry.hiveType = .unknown := by
    have hsame := (detectHiveType_evals hshows.readsReturn.shows_registry).unique
      (detectHiveType_evals hshows)
    exact (Exec.ok.inj hsame).trans (by decide)
  obtain ⟨root, hroot, hbuilt⟩ : ∃ root, hive.rootKey = .ok root ∧ valuesBuilder.IsBuilt root [] := by
    have hstart := hshows.root
    generalize hive.rootKey = x at hstart
    cases hstart with
    | value hbuilt => exact ⟨_, rfl, hbuilt⟩
  obtain ⟨t, ht, _, hcounts, _⟩ :=
    (info_prints .debug hopen hshows.readsReturn hcycle "hive".toList).2 root hroot
  -- the keys that are visited are those of the paths, and each declares the values of its path
  obtain ⟨t', ht', hrel⟩ := hshows.visited_registry (visited_built valuesBuilder) hbuilt
  obtain rfl := ht.unique _ ht'
  have hkeys := hrel.levelOrder
  rw [levelOrder_values] at hkeys
  have hlisted : ∀ q ∈ t.levelOrder, hive.registry.subkeys q.2 ≠ none := by
    intro q hq
    obtain ⟨p, _, hp⟩ := forall₂_left hkeys hq
    exact hshows.registry_subkeys hp (Option.some_ne_none _)
  have hdeclared : t.levelOrder.length = 3 ∧ declared t.levelOrder = 3 := by
    have hnodes : t.levelOrder.map Prod.snd = [valuesBuilder.keyAt [],
        valuesBuilder.keyAt ["A".toList], valuesBuilder.keyAt ["A".toList, "B".toList]] := by
      have hsame : List.Forall₂ Eq (t.levelOrder.map Prod.snd)
          ([(0, ([] : Path)), (1, ["A".toList]), (2, ["A".toList, "B".toList])].map
            fun p => valuesBuilder.keyAt p.2) := by
        rw [List.forall₂_map_left_iff, List.forall₂_map_right_iff]
        exact hkeys.imp fun q p hp => isBuilt_eq hp
      rwa [List.forall₂_eq_eq_eq] at hsame
    have hsum : declared t.levelOrder =
        ((t.levelOrder.map Prod.snd).map fun k => k.node.valueCount.toNat).sum := by
      rw [List.map_map]
      rfl
    rw [hsum, hnodes]
    exact ⟨hkeys.length_eq, by decide⟩
  have hfits : Fits .debug (0, 0) (listedKeys hive t.levelOrder) := by
    rw [listedKeys_eq_self hlisted]
    intro _
    rw [hdeclared.1, hdeclared.2]
    decide
  have hprints := (hcounts hfits).1 hlisted
  rw [hdeclared.1, hdeclared.2, htype] at hprints
  exact ⟨image, hive, hbuild, hopen, hprints⟩

/-! ## Built files -/

section Built

variable {b : TestHiveBuilder} (keyPattern valPattern dataPattern : Option Str)

/-- What is found in a key that was given. -/
def builtMatches (b : TestHiveBuilder) (p : Path) : List Str :=
  keyMatch keyPattern (latin1 (keyName p)) ++
    if valPattern.isSome || dataPattern.isSome then
      valueMatchLines valPattern dataPattern (latin1 (keyName p)) ((b.valuesAt p).map TreeValue.shown)
    else []

/-- The matches in a key of the builder are those in what was given for it. -/
theorem searchOutput_built (q : Nat × b.registry.Node) :
    searchOutput keyPattern valPattern dataPattern b.registry q =
      .say (builtMatches keyPattern valPattern dataPattern b q.2) := by
  show (Output.say _).andThen (valuesOutput valPattern dataPattern b.registry q.2) = _
  unfold valuesOutput builtMatches
  split
  · rfl
  · rfl

/-- The visited keys are those that were given, and the root. -/
theorem levelOrder_builtTree (b : TestHiveBuilder) :
    (builtTree b b.depth []).levelOrder.Perm (([] :: b.closure).map fun q => (q.length, q)) := by
  have horder : (order b).Perm b.closure :=
    (List.perm_ext_iff_of_nodup (nodup_order b) (nodup_closure b)).mpr fun _ => mem_order
  have hkeys := (builtTree b b.depth []).levelOrder_perm_preorder
  rw [preorder_builtTree] at hkeys
  exact hkeys.trans ((horder.cons []).map _)

/-- **A search of a built file** prints what there is to find in the keys that were given, once.
    The iterator goes by levels and the paths were given in any order, so the lines agree up to
    their order. -/
theorem search_build (h : b.Valid) {n : Nat} (hn : b.depth < n)
    (hsize : b.planOf.totalFileSize < 2 ^ 31) (keyName valueName valueData : Option Str) :
    ∃ image lines, (b.build n : Exec HiveError Bytes) = .ok image ∧
      Prints (cmdSearch image keyName valueName valueData) (.say lines) ∧
      lines.Perm (([] :: b.closure).flatMap (builtMatches (keyName.map toAsciiUppercase)
        (valueName.map toAsciiUppercase) (valueData.map toAsciiUppercase) b)) := by
  obtain ⟨image, hive, hbuild, hopen, hshows⟩ := build_shows h hn hsize
  have hprints := cmdSearch_visited hshows hopen rfl (visited_built b) keyName valueName valueData
  have hlines := List.map_congr_left fun q (_ : q ∈ (builtTree b b.depth []).levelOrder) =>
    searchOutput_built (keyName.map toAsciiUppercase) (valueName.map toAsciiUppercase)
      (valueData.map toAsciiUppercase) q
  rw [hlines, Output.all_say] at hprints
  exact ⟨image, _, hbuild, hprints,
    ((levelOrder_builtTree b).flatMap_right _).trans (.of_eq (List.flatMap_map _ _ _))⟩

set_option maxRecDepth 20000 in
/-- The sample again: the same two lines, from what was given. -/
theorem search_build_values : ∃ image lines,
    (valuesBuilder.build 3 : Exec HiveError Bytes) = .ok image ∧
      Prints (cmdSearch image (some "b".toList) none (some "X".toList)) (.say lines) ∧
      lines.Perm (["VALUE: A\\v (REG_SZ) = x", "KEY: B"].map String.toList) := by
  obtain ⟨image, lines, hbuild, hprints, hlines⟩ := search_build valuesBuilder_valid (n := 3)
    (by decide) (by decide) (some "b".toList) none (some "X".toList)
  refine ⟨image, lines, hbuild, hprints, hlines.trans (.of_eq ?_)⟩
  decide

end Built

end Cli

end Winreg
