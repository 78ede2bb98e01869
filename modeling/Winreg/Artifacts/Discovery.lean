/-
  WHAT DISCOVERY FINDS below an evidence root.

  1. **Places** — where the scanner looks, in its order: `places`.
  2. **Sources** — what it reports of a place, when the hives show registries: `sourceAt`.
  3. **Discovery** — the sources are those of the places, each once, sorted by type and time
     (`discoverHives_sorted`).
  4. **Users** — the hives of users among the sources, and what a scan of these finds, from the
     evidence root to the hits of each user (`scanUsers_discovered`).
  5. **Profiles** — a user is named after the directory of the profile unless the evidence root
     goes through a directory called `Users` itself (`profileName_iff`).
-/
import Winreg.Artifacts.UserHives
import Winreg.Artifacts.UserScan

namespace Winreg

open Rust Relation Exec

namespace Catalog

open UnixPath TestUtil

/-! ## Places -/

/-- A place where the scanner looks. -/
inductive Place where
  | hive (path : Str) (origin : SourceOrigin)
  | log (path : Str) (logNum : Nat)
deriving DecidableEq, Repr

section Places

variable (fs : FileSystem)

/-- The directory of the system's hives. -/
def configDir (evidenceRoot : Str) : Str :=
  ["Windows".toList, "System32".toList, "config".toList].foldl join evidenceRoot

/-- A hive of the system and its two logs. -/
def configPlaces (dir name : Str) : List Place :=
  [.hive (join dir name) .live, .log (join dir (name ++ ".LOG1".toList)) 1,
    .log (join dir (name ++ ".LOG2".toList)) 2]

/-- The places of the copies: the files of the directory, whatever their names are. -/
def regBackPlaces (dir : Str) : List Place :=
  (((fs.readDir dir).getD []).filter fun entry => fs.isFile (join dir entry)).map fun entry =>
    .hive (join dir entry) .regBack

/-- The places of the users' hives: two in each directory below `Users`. -/
def profilePlaces (usersDir : Str) : List Place :=
  (((fs.readDir usersDir).getD []).filter fun entry => fs.isDir (join usersDir entry)).flatMap
    fun entry => (profileHivePaths (join usersDir entry)).map (.hive · .live)

/-- The places in a directory, if it is one. -/
def placesIn (dir : Str) (places : List Place) : List Place := if fs.isDir dir then places else []

/-- All places, in the order of the scanner. -/
def places (evidenceRoot : Str) : List Place :=
  placesIn fs (configDir evidenceRoot) (configHives.flatMap (configPlaces (configDir evidenceRoot)))
    ++ placesIn fs (join (configDir evidenceRoot) "RegBack".toList)
      (regBackPlaces fs (join (configDir evidenceRoot) "RegBack".toList))
    ++ placesIn fs (usersDir evidenceRoot) (profilePlaces fs (usersDir evidenceRoot))

end Places

/-! ## Sources -/

/-- What the file of a hive shows. -/
structure ShownFile where
  registry : Registry
  isClean : Bool

/-- Opening a file: no hive, or one that shows a registry. -/
inductive ShowsFile : Exec HiveError (Option Hive) → Option ShownFile → Prop where
  | none : ShowsFile (.ok none) none
  | some {hive : Hive} {file : ShownFile} {rel : Key → file.registry.Node → Prop}
      (h : hive.Shows file.registry rel) (hclean : hive.isClean = file.isClean) :
      ShowsFile (.ok (some hive)) (some file)

/-- The hives of a file system show registries. -/
def FileSystem.Shows (fs : FileSystem) (files : Str → Option ShownFile) : Prop :=
  ∀ path, ShowsFile (openHive fs path) (files path)

/-- Opening a file as a hive never fails as a whole: a file that is no hive is passed over. -/
theorem openHive_returns (fs : FileSystem) (path : Str) :
    openHive fs path = .ok none ∨ ∃ hive, openHive fs path = .ok (some hive) := by
  unfold openHive
  cases fs.read path with
  | none => exact Or.inl rfl
  | some data =>
    dsimp only
    rcases Hive.fromBytes_returns data with ⟨hive, hopen⟩ | ⟨e, hopen⟩
    · rw [hopen]
      exact Or.inr ⟨hive, rfl⟩
    · rw [hopen]
      exact Or.inl rfl

/-- The hives of a file system show registries exactly where the reads of each return. -/
theorem FileSystem.shows_iff (fs : FileSystem) : (∃ files, fs.Shows files) ↔
    ∀ path hive, openHive fs path = .ok (some hive) → hive.ReadsReturn := by
  constructor
  · rintro ⟨files, hfs⟩ path hive hopen
    have hfile := hfs path
    rw [hopen] at hfile
    generalize files path = o at hfile
    cases hfile with
    | some hshows _ => exact hshows.readsReturn
  · intro h
    have hfile : ∀ path, ∃ file, ShowsFile (openHive fs path) file := by
      intro path
      rcases openHive_returns fs path with hnone | ⟨hive, hsome⟩
      · exact ⟨none, hnone ▸ .none⟩
      · exact ⟨some ⟨hive.registry, hive.isClean⟩,
          hsome ▸ .some (h path hive hsome).shows_registry rfl⟩
    choose files hfiles using hfile
    exact ⟨files, hfiles⟩

section Sources

variable {Timestamp : Type} (jiff : Jiff Timestamp) (fs : FileSystem)
  (files : Str → Option ShownFile)

/-- A transaction log that is large enough and has the signature. -/
def isLog (path : Str) : Bool :=
  fs.isFile path && decide (512 ≤ fs.size path) && (fs.read path).any fun data =>
    decide (4 ≤ data.length) && bytesAt data 0 4 == [0x72, 0x65, 0x67, 0x66]

/-- The source at a place, if there is one. -/
def sourceAt : Place → Option (HiveSource Timestamp)
  | .hive path origin =>
    if fs.isFile path && decide (4096 ≤ fs.size path) then
      (files path).map fun file =>
        ⟨path, file.registry.hiveType, origin,
          file.registry.root.bind (file.registry.lastWritten jiff), fs.size path, file.isClean⟩
    else none
  | .log path logNum =>
    if isLog fs path then
      some ⟨path, .unknown, .transactionLog logNum, none, fs.size path, false⟩
    else none

/-- Look at a place. -/
def probe (n : Nat) (sources : List (HiveSource Timestamp)) :
    Place → Exec HiveError (List (HiveSource Timestamp))
  | .hive path origin => tryProbeHive jiff fs n path origin sources
  | .log path logNum => .ok (tryProbeLog fs path logNum sources)

variable {fs files}

/-- A log adds its source, or nothing. -/
theorem tryProbeLog_eq (path : Str) (logNum : Nat) (sources : List (HiveSource Timestamp)) :
    tryProbeLog fs path logNum sources =
      sources ++ (sourceAt jiff fs files (.log path logNum)).toList := by
  unfold sourceAt tryProbeLog isLog
  by_cases hfile : fs.isFile path = true
  · by_cases hsize : 512 ≤ fs.size path
    · have hlarge := Nat.not_lt.mpr hsize
      cases hread : fs.read path with
      | none => simp [hfile, hlarge, hread]
      | some data =>
        by_cases hlen : 4 ≤ data.length
        · have hlong := Nat.not_lt.mpr hlen
          by_cases hmagic : bytesAt data 0 4 = [0x72, 0x65, 0x67, 0x66]
          · simp [hfile, hsize, hlarge, hread, hlen, hlong, hmagic]
          · simp [hfile, hlarge, hread, hmagic]
        · simp [hfile, hlarge, hread, hlen, Nat.lt_of_not_le hlen]
    · simp [hfile, hsize, Nat.lt_of_not_le hsize]
  · simp [hfile]

/-- A hive adds its source, or nothing; its type and time are those of the registry that it
    shows. -/
theorem tryProbeHive_evals (hfs : fs.Shows files) (path : Str) (origin : SourceOrigin)
    (sources : List (HiveSource Timestamp)) :
    Evals (fun n => tryProbeHive jiff fs n path origin sources)
      (.ok (sources ++ (sourceAt jiff fs files (.hive path origin)).toList)) := by
  unfold sourceAt tryProbeHive
  by_cases hfile : fs.isFile path = true
  · by_cases hsize : 4096 ≤ fs.size path
    · have hopens := hfs path
      simp only [hfile, hsize, Nat.not_lt.mpr hsize, Bool.not_true, Bool.false_eq_true, if_false,
        decide_true, Bool.and_self, if_true]
      generalize openHive fs path = x, files path = o at hopens
      cases hopens with
      | none =>
        rw [Option.map_none, Option.toList_none, List.append_nil]
        exact .const _
      | @some hive file rel hshows hclean =>
        refine Evals.bind (.const _) (Evals.bind (detectHiveType_evals hshows) ?_)
        have hstart := hshows.root
        rw [hclean, Option.map_some]
        generalize hive.rootKey = x, file.registry.root = o at hstart
        cases hstart with
        | error e => exact .const _
        | @value root a ha =>
          rw [Option.bind_some, ← hshows.lastWritten jiff ha]
          exact .const _
    · simp only [hfile, hsize, Nat.lt_of_not_le hsize, Bool.not_true, Bool.false_eq_true, if_false,
        decide_false, Bool.and_false, if_true, Option.toList_none, List.append_nil]
      exact .const _
  · simp only [hfile, Bool.not_false, Bool.false_and, Bool.false_eq_true, if_false, if_true,
      Option.toList_none, List.append_nil]
    exact .const _

/-- Each place adds what it gives, behind the sources before it. -/
theorem probe_evals (hfs : fs.Shows files) (place : Place) (sources : List (HiveSource Timestamp)) :
    Evals (fun n => probe jiff fs n sources place)
      (.ok (sources ++ (sourceAt jiff fs files place).toList)) := by
  cases place with
  | log path logNum =>
    rw [← tryProbeLog_eq]
    exact .const _
  | hive path origin => exact tryProbeHive_evals jiff hfs path origin sources

/-- Looking at places adds their sources. -/
theorem probes_evals (hfs : fs.Shows files) (places : List Place)
    (sources : List (HiveSource Timestamp)) :
    Evals (fun n => places.foldlM (probe jiff fs n) sources)
      (.ok (sources ++ places.filterMap (sourceAt jiff fs files))) := by
  have hsame : List.Forall₂ Eq places places := List.forall₂_same.mpr fun _ _ => rfl
  rw [List.filterMap_eq_flatMap_toList]
  refine Evals.appends hsame ?_ sources
  rintro place _ rfl sources
  exact probe_evals jiff hfs place sources

/-- The places of the system's hives are probed in order. -/
theorem discoverConfig_evals (hfs : fs.Shows files) (dir : Str)
    (sources : List (HiveSource Timestamp)) :
    Evals (fun n => discoverConfig jiff fs n dir sources)
      (.ok (sources ++ (placesIn fs dir (configHives.flatMap (configPlaces dir))).filterMap
        (sourceAt jiff fs files))) := by
  unfold discoverConfig placesIn
  by_cases hdir : fs.isDir dir = true
  · simp only [hdir, Bool.not_true, Bool.false_eq_true, if_false, if_true]
    rw [List.filterMap_flatMap]
    have hsame : List.Forall₂ Eq configHives configHives := List.forall₂_same.mpr fun _ _ => rfl
    refine Evals.appends hsame ?_ sources
    rintro name _ rfl sources
    exact probes_evals jiff hfs (configPlaces dir name) sources
  · simp only [hdir, Bool.not_false, Bool.false_eq_true, if_true, if_false, List.filterMap_nil,
      List.append_nil]
    exact .const _

/-- So are those of the copies. -/
theorem discoverRegBack_evals (hfs : fs.Shows files) (dir : Str)
    (sources : List (HiveSource Timestamp)) :
    Evals (fun n => discoverRegBack jiff fs n dir sources)
      (.ok (sources ++ (placesIn fs dir (regBackPlaces fs dir)).filterMap
        (sourceAt jiff fs files))) := by
  unfold discoverRegBack placesIn
  by_cases hdir : fs.isDir dir = true
  · simp only [hdir, Bool.not_true, Bool.false_eq_true, if_false, if_true]
    have hrun := probes_evals jiff hfs (regBackPlaces fs dir) sources
    rw [regBackPlaces] at hrun
    refine hrun.congr fun n => ?_
    rw [List.foldlM_map, List.foldlM_filter]
    rfl
  · simp only [hdir, Bool.not_false, Bool.false_eq_true, if_true, if_false, List.filterMap_nil,
      List.append_nil]
    exact .const _

/-- And those of the users. -/
theorem discoverProfiles_evals (hfs : fs.Shows files) (evidenceRoot : Str)
    (sources : List (HiveSource Timestamp)) :
    Evals (fun n => discoverProfiles jiff fs n evidenceRoot sources)
      (.ok (sources ++ (placesIn fs (usersDir evidenceRoot)
        (profilePlaces fs (usersDir evidenceRoot))).filterMap (sourceAt jiff fs files))) := by
  unfold discoverProfiles placesIn
  by_cases hdir : fs.isDir (usersDir evidenceRoot) = true
  · simp only [hdir, Bool.not_true, Bool.false_eq_true, if_false, if_true]
    rw [profilePlaces, List.filterMap_flatMap]
    generalize (fs.readDir (usersDir evidenceRoot)).getD [] = entries
    have hsame : List.Forall₂ Eq (entries.filter fun entry =>
        fs.isDir (join (usersDir evidenceRoot) entry)) _ := List.forall₂_same.mpr fun _ _ => rfl
    -- each profile directory adds what its hive files show, in the order of the listing
    have hrun := Evals.appends hsame
      (f := fun n sources entry => (profileHivePaths (join (usersDir evidenceRoot) entry)).foldlM
        (fun sources path => tryProbeHive jiff fs n path .live sources) sources)
      (g := fun entry => ((profileHivePaths (join (usersDir evidenceRoot) entry)).map
        (Place.hive · .live)).filterMap (sourceAt jiff fs files))
      (by
        rintro entry _ rfl sources
        refine (probes_evals jiff hfs _ sources).congr fun n => ?_
        rw [List.foldlM_map]
        rfl) sources
    refine hrun.congr fun n => ?_
    -- the source skips an entry that is not a directory inside of the loop
    rw [List.foldlM_filter]
    refine congrArg (fun step => List.foldlM step sources entries) ?_
    funext sources entry
    by_cases hentry : fs.isDir (join (usersDir evidenceRoot) entry) = true
    · simp only [hentry, Bool.not_true, Bool.false_eq_true, if_false, if_true]
    · simp only [hentry, Bool.not_false, Bool.false_eq_true, if_false, if_true]
      rfl
  · simp only [hdir, Bool.not_false, Bool.false_eq_true, if_true, if_false, List.filterMap_nil,
      List.append_nil]
    exact .const _

end Sources

/-! ## Discovery -/

section Discovery

variable {Timestamp : Type} (jiff : Jiff Timestamp) {fs : FileSystem}
  {files : Str → Option ShownFile}

/-- The sources below an evidence root, in the order of the places. -/
def sourcesAt (fs : FileSystem) (files : Str → Option ShownFile) (evidenceRoot : Str) :
    List (HiveSource Timestamp) :=
  (places fs evidenceRoot).filterMap (sourceAt jiff fs files)

/-- The whole scan is the sorted list of the sources at the places. -/
theorem discoverHives_evals [LE Timestamp] [DecidableLE Timestamp] (hfs : fs.Shows files)
    (evidenceRoot : Str) : Evals (fun n => discoverHives jiff fs n evidenceRoot)
      (.ok ((sourcesAt jiff fs files evidenceRoot).mergeSort sourceLe)) := by
  unfold discoverHives sourcesAt places
  rw [List.filterMap_append, List.filterMap_append]
  refine Evals.bind (discoverConfig_evals jiff hfs _ []) ?_
  refine Evals.bind (discoverRegBack_evals jiff hfs _ _) ?_
  exact Evals.bind (discoverProfiles_evals jiff hfs evidenceRoot _) (.const _)

/-! ### The order of sources -/

section Order

variable [LinearOrder Timestamp] {a b c : HiveSource Timestamp}

/-- A missing time goes first. -/
def TimeLe : Option Timestamp → Option Timestamp → Prop
  | none, _ => True
  | some _, none => False
  | some s, some t => s ≤ t

/-- The order of the sources: by the name of the type, then by time. -/
theorem sourceLe_iff : sourceLe a b = true ↔ typeName a.hiveType < typeName b.hiveType ∨
    typeName a.hiveType = typeName b.hiveType ∧ TimeLe a.timestamp b.timestamp := by
  unfold sourceLe
  by_cases htype : typeName a.hiveType = typeName b.hiveType
  · rw [if_pos htype, htype]
    cases a.timestamp <;> cases b.timestamp <;> simp [TimeLe]
  · rw [if_neg htype]
    simp [htype]

/-- The order of times with a missing one in front is transitive. -/
theorem TimeLe.trans {s t u : Option Timestamp} (hst : TimeLe s t) (htu : TimeLe t u) :
    TimeLe s u := by
  cases s with
  | none => trivial
  | some s =>
    cases t with
    | none => cases hst
    | some t =>
      cases u with
      | none => cases htu
      | some u => exact le_trans hst htu

/-- And total. -/
theorem timeLe_total (s t : Option Timestamp) : TimeLe s t ∨ TimeLe t s := by
  cases s with
  | none => exact Or.inl trivial
  | some s =>
    cases t with
    | none => exact Or.inr trivial
    | some t => exact le_total s t

/-- So the order of sources is transitive, first by type and then by time. -/
theorem sourceLe_trans (hab : sourceLe a b = true) (hbc : sourceLe b c = true) :
    sourceLe a c = true := by
  rw [sourceLe_iff] at hab hbc ⊢
  rcases hab with hab | ⟨hab, htime⟩
  · rcases hbc with hbc | ⟨hbc, _⟩
    · exact Or.inl (lt_trans hab hbc)
    · exact Or.inl (hbc ▸ hab)
  · rcases hbc with hbc | ⟨hbc, htime'⟩
    · exact Or.inl (hab ▸ hbc)
    · exact Or.inr ⟨hab.trans hbc, htime.trans htime'⟩

/-- And total, which sorting needs. -/
theorem sourceLe_total (a b : HiveSource Timestamp) : (sourceLe a b || sourceLe b a) = true := by
  rw [Bool.or_eq_true, sourceLe_iff, sourceLe_iff]
  rcases lt_trichotomy (typeName a.hiveType) (typeName b.hiveType) with h | h | h
  · exact Or.inl (Or.inl h)
  · rcases timeLe_total a.timestamp b.timestamp with htime | htime
    · exact Or.inl (Or.inr ⟨h, htime⟩)
    · exact Or.inr (Or.inr ⟨h.symm, htime⟩)
  · exact Or.inr (Or.inl h)

end Order

/-- **What discovery finds**: the sources of the places, each once, sorted by type and time; those
    that are already in order stay so.  The probes add sources at the end, place by place, and
    sorting is stable since the order is total and transitive. -/
theorem discoverHives_sorted [LinearOrder Timestamp] (hfs : fs.Shows files) (evidenceRoot : Str) :
    ∃ sources : List (HiveSource Timestamp),
      Evals (fun n => discoverHives jiff fs n evidenceRoot) (.ok sources) ∧
      sources.Perm (sourcesAt jiff fs files evidenceRoot) ∧
      sources.Pairwise (fun a b => sourceLe a b = true) ∧
      ∀ part : List (HiveSource Timestamp), part.Sublist (sourcesAt jiff fs files evidenceRoot) →
        part.Pairwise (fun a b => sourceLe a b = true) → part.Sublist sources := by
  have htrans : ∀ a b c : HiveSource Timestamp, sourceLe a b = true → sourceLe b c = true →
      sourceLe a c = true := fun _ _ _ => sourceLe_trans
  exact ⟨_, discoverHives_evals jiff hfs evidenceRoot, List.mergeSort_perm _ _,
    List.pairwise_mergeSort htrans sourceLe_total _,
    fun _ hsub hpart => List.sublist_mergeSort htrans sourceLe_total hpart hsub⟩

end Discovery

/-- The hive of the one user. -/
def alicePath : Str := "/e/Users/alice/NTUSER.DAT".toList

/-- A log of the system's hive. -/
def logPath : Str := "/e/Windows/System32/config/SYSTEM.LOG1".toList

/-- The first sector of a log: it starts like a hive, and is too short for one. -/
def logData : Bytes := BaseBlock.magic ++ List.replicate 508 0

/-- The hive of one user and a log of the system below an evidence root. -/
def aliceFiles (image : Bytes) : FileSystem where
  isDir path := path = "/e/Users".toList ∨ path = "/e/Users/alice".toList ∨
    path = "/e/Windows/System32/config".toList
  isFile path := path = alicePath ∨ path = logPath
  readDir path := if path = "/e/Users".toList then some ["alice".toList] else none
  size path := if path = alicePath then image.length else if path = logPath then 512 else 0
  read path := if path = alicePath then some image
    else if path = logPath then some logData else none

/-- What the files show: the one hive. -/
def aliceShown (hive : Hive) (path : Str) : Option ShownFile :=
  if path = alicePath then some ⟨logonBuilder.registry, hive.isClean⟩ else none

/-- A sector is too short for a hive. -/
theorem openHive_logData {fs : FileSystem} {path : Str} (h : fs.read path = some logData) :
    openHive fs path = .ok none := by
  have hshort : logData.length < BaseBlock.size := by decide +kernel
  rw [openHive, h]
  dsimp only
  rw [Hive.fromBytes, if_pos hshort]
  rfl

/-- The user's hive opens, and no other file does. -/
theorem aliceFiles_show {image : Bytes} {hive : Hive} (hopen : Hive.fromBytes image = .ok hive)
    (hshows : hive.Shows logonBuilder.registry logonBuilder.IsBuilt) :
    (aliceFiles image).Shows (aliceShown hive) := by
  intro path
  by_cases hpath : path = alicePath
  · have hbytes : (aliceFiles image).read path = some image := if_pos hpath
    have hread : openHive (aliceFiles image) path = .ok (some hive) := by
      rw [openHive, hbytes]
      dsimp only
      rw [hopen]
      rfl
    rw [hread, aliceShown, if_pos hpath]
    exact .some hshows rfl
  · have hread : openHive (aliceFiles image) path = .ok none := by
      by_cases hlog : path = logPath
      · exact openHive_logData ((if_neg hpath).trans (if_pos hlog))
      · have hbytes : (aliceFiles image).read path = none := (if_neg hpath).trans (if_neg hlog)
        rw [openHive, hbytes]
    rw [hread, aliceShown, if_neg hpath]
    exact .none

/-- The source of the log. -/
def logSource : HiveSource Int where
  path := logPath
  hiveType := .unknown
  origin := .transactionLog 1
  timestamp := none
  size := 512
  isClean := false

/-- The source of the user's hive. -/
def aliceSource (image : Bytes) (hive : Hive) : HiveSource Int where
  path := alicePath
  hiveType := .ntUser
  origin := .live
  timestamp := none
  size := image.length
  isClean := hive.isClean

def configAlice : Str := "/e/Windows/System32/config".toList

set_option maxRecDepth 20000 in
/-- The places below the root of the sample. -/
theorem places_alice (image : Bytes) : places (aliceFiles image) "/e".toList =
    configHives.flatMap (configPlaces configAlice) ++ [.hive alicePath .live,
      .hive "/e/Users/alice/AppData/Local/Microsoft/Windows/UsrClass.dat".toList .live] := by
  rfl

set_option maxRecDepth 20000 in
/-- Of the places of the system only one log is there. -/
theorem configSources_alice (image : Bytes) (hive : Hive) :
    (configHives.flatMap (configPlaces configAlice)).filterMap
      (sourceAt (⟨some, fun _ => none⟩ : Jiff Int) (aliceFiles image) (aliceShown hive)) =
        [logSource] := by
  rfl

/-- The scanner looks at the log, among the places of the system, and then at the user's hive. -/
theorem sourcesAt_alice {image : Bytes} {hive : Hive} (hopen : Hive.fromBytes image = .ok hive) :
    sourcesAt (⟨some, fun _ => none⟩ : Jiff Int) (aliceFiles image) (aliceShown hive) "/e".toList =
      [logSource, aliceSource image hive] := by
  have hsize : 4096 ≤ image.length := (Hive.fromBytes_eq_ok hopen).1
  have htype : logonBuilder.registry.hiveType = .ntUser := by decide
  have htime : logonBuilder.registry.root.bind
      (logonBuilder.registry.lastWritten (⟨some, fun _ => none⟩ : Jiff Int)) = none := by decide
  have hfirst : sourceAt (⟨some, fun _ => none⟩ : Jiff Int) (aliceFiles image) (aliceShown hive)
      (.hive alicePath .live) = some (aliceSource image hive) := by
    show (if (true && decide (4096 ≤ image.length)) = true then
      some (⟨alicePath, logonBuilder.registry.hiveType, .live, _, image.length, hive.isClean⟩ :
        HiveSource Int) else none) = _
    rw [if_pos (by simpa using hsize), htype, htime]
    rfl
  rw [sourcesAt, places_alice, List.filterMap_append, configSources_alice,
    List.filterMap_cons_some hfirst]
  rfl

/-- The type of the user's hive comes before that of a log. -/
theorem sorted_alice (image : Bytes) (hive : Hive) :
    [logSource, aliceSource image hive].Perm [aliceSource image hive, logSource] ∧
      [aliceSource image hive, logSource].Pairwise (fun a b => sourceLe a b = true) ∧
      ¬ sourceLe logSource (aliceSource image hive) = true := by
  refine ⟨.swap _ _ _, List.pairwise_pair.mpr ?_, ?_⟩
  · rfl
  · exact Bool.false_ne_true

/-- Hence the two sources have one sorted order. -/
theorem eq_sorted_alice {image : Bytes} {hive : Hive} {sources : List (HiveSource Int)}
    (hperm : sources.Perm [logSource, aliceSource image hive])
    (hsorted : sources.Pairwise fun a b => sourceLe a b = true) :
    sources = [aliceSource image hive, logSource] := by
  obtain ⟨hswap, hpair, hnot⟩ := sorted_alice image hive
  refine (hperm.trans hswap).eq_of_pairwise (fun a b ha hb hab hba => ?_) hsorted hpair
  have hmem := (hperm.mem_iff).mp ha
  simp only [List.mem_cons, List.not_mem_nil, or_false] at hmem hb
  rcases hmem with rfl | rfl <;> rcases hb with rfl | rfl
  · exact absurd hab hnot
  · rfl
  · rfl
  · exact absurd hba hnot

/-- The log is found first and sorted last, since its type has the later name. -/
theorem discoverHives_sorted_alice : ∃ image hive,
    (logonBuilder.build 4 : Exec HiveError Bytes) = .ok image ∧ Hive.fromBytes image = .ok hive ∧
      Evals (fun n => discoverHives (⟨some, fun _ => none⟩ : Jiff Int) (aliceFiles image) n
        "/e".toList) (.ok [aliceSource image hive, logSource]) := by
  obtain ⟨image, hive, hbuild, hopen, hshows⟩ :=
    build_shows logonBuilder_valid (n := 4) (by decide) (by decide)
  obtain ⟨sources, hrun, hperm, hsorted, _⟩ :=
    discoverHives_sorted (⟨some, fun _ => none⟩ : Jiff Int) (aliceFiles_show hopen hshows) "/e".toList
  rw [sourcesAt_alice hopen] at hperm
  rw [eq_sorted_alice hperm hsorted] at hrun
  exact ⟨image, hive, hbuild, hopen, hrun⟩

/-! ## Users -/

section Users

variable {Timestamp : Type} (jiff : Jiff Timestamp) {fs : FileSystem}
  {files : Str → Option ShownFile}

/-- A hive that belongs to a user. -/
def HiveSource.isUsers (source : HiveSource Timestamp) : Bool :=
  source.hiveType = .ntUser ∨ source.hiveType = .usrClass

/-- The user that a source belongs to, and what the hive shows. -/
def shownUser (files : Str → Option ShownFile) (source : HiveSource Timestamp) :
    Option ShownUser :=
  (files source.path).map fun file => ⟨⟨profileNameFromPath source.path, none⟩, file.registry⟩

/-- The users of the sources. -/
def usersOf (files : Str → Option ShownFile) (sources : List (HiveSource Timestamp)) :
    List ShownUser :=
  (sources.filter HiveSource.isUsers).filterMap (shownUser files)

/-- The hive of a source is opened again, if it belongs to a user. -/
def openUserHive (fs : FileSystem) (out : List UserHive) (source : HiveSource Timestamp) :
    Exec HiveError (List UserHive) :=
  if source.hiveType = .ntUser ∨ source.hiveType = .usrClass then do
    match ← openHive fs source.path with
    | none => .ok out
    | some hive => .ok (out ++ [⟨⟨profileNameFromPath source.path, none⟩, hive⟩])
  else .ok out

/-- Discovering the hives of users is opening those among the sources, one after the other. -/
theorem discoverUserHives_eq [LE Timestamp] [DecidableLE Timestamp] (n : Nat)
    (evidenceRoot : Str) : discoverUserHives jiff fs n evidenceRoot =
      discoverHives jiff fs n evidenceRoot >>= fun sources =>
        sources.foldlM (openUserHive fs) [] := rfl

/-- A hive that belongs to a user is opened again, and shows what the user has. -/
theorem openUserHive_shows (hfs : fs.Shows files) {catalog : List ArtifactDescriptor}
    (source : HiveSource Timestamp) (out : List UserHive)
    (hpaths : ∀ u ∈ usersOf files [source], UserPathsReturn u.registry catalog) :
    ∃ added, openUserHive fs out source = .ok (out ++ added) ∧
      List.Forall₂ (ShowsUser catalog) added (usersOf files [source]) := by
  unfold openUserHive
  by_cases huser : source.hiveType = .ntUser ∨ source.hiveType = .usrClass
  · have hlist : usersOf files [source] = (shownUser files source).toList := by
      rw [usersOf, List.filter_cons_of_pos (by simpa [HiveSource.isUsers] using huser),
        List.filter_nil, List.filterMap_eq_flatMap_toList, List.flatMap_singleton]
    rw [if_pos huser]
    rw [hlist, shownUser] at hpaths ⊢
    have hopens := hfs source.path
    generalize openHive fs source.path = x, files source.path = o at hopens hpaths
    cases hopens with
    | none => exact ⟨[], congrArg Exec.ok (List.append_nil out).symm, .nil⟩
    | @some hive file rel hshows _ =>
      exact ⟨_, rfl, .cons ⟨rfl, ⟨rel, hshows⟩, hpaths _ List.mem_cons_self⟩ .nil⟩
  · have hlist : usersOf files [source] = [] := by
      rw [usersOf, List.filter_cons_of_neg (by simpa [HiveSource.isUsers] using huser),
        List.filter_nil, List.filterMap_nil]
    rw [if_neg huser, hlist]
    exact ⟨[], congrArg Exec.ok (List.append_nil out).symm, .nil⟩

/-- The opened hives show the registries of the users among the sources, in their order.  By
    induction on the sources, for any hives that are open before. -/
theorem openUserHives_show (hfs : fs.Shows files) {catalog : List ArtifactDescriptor}
    (sources : List (HiveSource Timestamp)) : ∀ out : List UserHive,
    (∀ u ∈ usersOf files sources, UserPathsReturn u.registry catalog) →
    ∃ added, sources.foldlM (openUserHive fs) out = .ok (out ++ added) ∧
      List.Forall₂ (ShowsUser catalog) added (usersOf files sources) := by
  induction sources with
  | nil => exact fun out _ => ⟨[], congrArg Exec.ok (List.append_nil out).symm, .nil⟩
  | cons source sources ih =>
    intro out hpaths
    have hsplit : usersOf files (source :: sources) =
        usersOf files [source] ++ usersOf files sources := by
      rw [usersOf, usersOf, usersOf, ← List.filterMap_append, ← List.filter_append,
        List.singleton_append]
    rw [hsplit] at hpaths ⊢
    obtain ⟨first, hfirst, hshown⟩ := openUserHive_shows hfs source out fun u hu =>
      hpaths u (List.mem_append_left _ hu)
    obtain ⟨rest, hrest, hshown'⟩ := ih (out ++ first) fun u hu =>
      hpaths u (List.mem_append_right _ hu)
    refine ⟨first ++ rest, ?_, List.rel_append hshown hshown'⟩
    rw [List.foldlM_cons, hfirst, Exec.ok_bind, hrest, List.append_assoc]

/-- The hives of users among the sources. -/
theorem discoverUserHives_evals [LE Timestamp] [DecidableLE Timestamp] (hfs : fs.Shows files)
    (evidenceRoot : Str) {catalog : List ArtifactDescriptor}
    (hpaths : ∀ u ∈ usersOf files ((sourcesAt jiff fs files evidenceRoot).mergeSort sourceLe),
      UserPathsReturn u.registry catalog) :
    ∃ userHives, Evals (fun n => discoverUserHives jiff fs n evidenceRoot) (.ok userHives) ∧
      List.Forall₂ (ShowsUser catalog) userHives
        (usersOf files ((sourcesAt jiff fs files evidenceRoot).mergeSort sourceLe)) := by
  obtain ⟨userHives, hrun, hshown⟩ := openUserHives_show hfs _ [] hpaths
  refine ⟨userHives, ?_, hshown⟩
  have hopen := (discoverHives_evals jiff hfs evidenceRoot).bind
    (g := fun _ sources => sources.foldlM (openUserHive fs) [])
    ((Evals.const _).congr fun _ => hrun)
  exact hopen.congr fun n => discoverUserHives_eq jiff n evidenceRoot

/-- **From the evidence root to the hits of each user**: the hives of users that are discovered are
    scanned to the hits of their registries, in the order of the sources, and the user of a hit is
    told from the path of its source. -/
theorem scanUsers_discovered [LE Timestamp] [DecidableLE Timestamp] (hfs : fs.Shows files)
    (evidenceRoot : Str) {catalog : List ArtifactDescriptor} {sources : List (HiveSource Timestamp)}
    (hsources : sources = (sourcesAt jiff fs files evidenceRoot).mergeSort sourceLe)
    (hpaths : ∀ u ∈ usersOf files sources, UserPathsReturn u.registry catalog) :
    ∃ userHives hits, Evals (fun n => discoverUserHives jiff fs n evidenceRoot) (.ok userHives) ∧
      Evals (fun n => scanUsers jiff catalog n userHives) (.ok hits) ∧
      hits = (usersOf files sources).flatMap (fun u =>
        userHits u.registry jiff catalog u.identity) ∧
      ∀ hit ∈ hits, ∃ source ∈ sourcesAt jiff fs files evidenceRoot, source.isUsers ∧
        (∃ file, files source.path = some file ∧
          hit ∈ userHits file.registry jiff catalog ⟨profileNameFromPath source.path, none⟩) ∧
        hit.user = (profileNameFromPath source.path).map fun profile => ⟨some profile, none⟩ := by
  subst hsources
  obtain ⟨userHives, hdiscover, hshown⟩ := discoverUserHives_evals jiff hfs evidenceRoot hpaths
  refine ⟨userHives, _, hdiscover, scanUsers_evals jiff hshown, rfl, fun hit hhit => ?_⟩
  obtain ⟨u, hu, hhit⟩ := List.mem_flatMap.mp hhit
  obtain ⟨source, hsource, hshows⟩ := List.mem_filterMap.mp hu
  obtain ⟨hsource, huser⟩ := List.mem_filter.mp hsource
  obtain ⟨file, hfile, rfl⟩ := Option.map_eq_some_iff.mp hshows
  refine ⟨source, List.mem_mergeSort.mp hsource, huser, ⟨file, hfile, hhit⟩, ?_⟩
  rw [user_of_mem_userHits hhit, known]
  cases profileNameFromPath source.path <;> rfl

end Users

/-- The hive belongs to `alice`, the log to nobody. -/
theorem usersOf_alice (image : Bytes) (hive : Hive) :
    usersOf (aliceShown hive) [aliceSource image hive, logSource] =
      [⟨⟨some "alice".toList, none⟩, logonBuilder.registry⟩] := by
  have hprofile : profileNameFromPath alicePath = some "alice".toList := by decide
  show [(⟨⟨profileNameFromPath alicePath, none⟩, logonBuilder.registry⟩ : ShownUser)] = _
  rw [hprofile]

/-- The sorted sources of the sample. -/
theorem sources_alice {image : Bytes} {hive : Hive} (hopen : Hive.fromBytes image = .ok hive) :
    [aliceSource image hive, logSource] =
      (sourcesAt (⟨some, fun _ => none⟩ : Jiff Int) (aliceFiles image) (aliceShown hive)
        "/e".toList).mergeSort sourceLe := by
  have htrans : ∀ a b c : HiveSource Int, sourceLe a b = true → sourceLe b c = true →
      sourceLe a c = true := fun _ _ _ => sourceLe_trans
  rw [sourcesAt_alice hopen]
  exact (eq_sorted_alice (List.mergeSort_perm _ _)
    (List.pairwise_mergeSort htrans sourceLe_total _)).symm

/-- The one path that is asked for is cut between characters. -/
theorem pathsReturn_alice (image : Bytes) (hive : Hive) :
    ∀ u ∈ usersOf (aliceShown hive) [aliceSource image hive, logSource],
      UserPathsReturn u.registry [logonDescriptor] := by
  rw [usersOf_alice]
  intro u hu
  rw [List.mem_singleton.mp hu]
  exact logon_pathsReturn

/-- From the evidence root to the one hit of `alice`. -/
theorem scanUsers_discovered_alice : ∃ image userHives,
    (logonBuilder.build 4 : Exec HiveError Bytes) = .ok image ∧
      Evals (fun n => discoverUserHives (⟨some, fun _ => none⟩ : Jiff Int) (aliceFiles image) n
        "/e".toList) (.ok userHives) ∧
      Evals (fun n => scanUsers (⟨some, fun _ => none⟩ : Jiff Int) [logonDescriptor] n userHives)
        (.ok [logonHit ⟨some "alice".toList, none⟩]) := by
  obtain ⟨image, hive, hbuild, hopen, hshows⟩ :=
    build_shows logonBuilder_valid (n := 4) (by decide) (by decide)
  obtain ⟨userHives, hits, hdiscover, hscan, hhits, _⟩ :=
    scanUsers_discovered (⟨some, fun _ => none⟩ : Jiff Int) (aliceFiles_show hopen hshows)
      "/e".toList (sources_alice hopen) (pathsReturn_alice image hive)
  rw [usersOf_alice, List.flatMap_singleton, userHits_logon] at hhits
  exact ⟨image, userHives, hbuild, hdiscover, hhits ▸ hscan⟩

/-! ## Profiles -/

/-- **Whose hive it is**: the user of a discovered hive is told from the path of its source, and for
    a hive in the directory of a profile it is that profile exactly when no directory above is taken
    for that of the users. -/
theorem profileName_iff {Timestamp : Type} [LE Timestamp] [DecidableLE Timestamp]
    (jiff : Jiff Timestamp) (fs : FileSystem) (n : Nat) (evidenceRoot profile : Str)
    (hprofile : IsFileName profile) :
    (∀ hives, discoverUserHives jiff fs n evidenceRoot = .ok hives →
      ∃ sources, discoverHives jiff fs n evidenceRoot = .ok sources ∧
        ∀ uh ∈ hives, ∃ source ∈ sources, openHive fs source.path = .ok (some uh.hive) ∧
          uh.identity = ⟨profileNameFromPath source.path, none⟩) ∧
    ∀ path ∈ profileHivePaths (join (usersDir evidenceRoot) profile),
      (profileNameFromPath path = some profile ↔
        ProfileIsFirst (UnixPath.components evidenceRoot) profile) := by
  refine ⟨fun hives h => mem_discoverUserHives h, fun path hpath => ?_⟩
  obtain ⟨rest, hcomponents⟩ := components_profileHivePath hprofile hpath
  rw [show profileNameFromPath path = afterUsers (UnixPath.components path) from rfl, hcomponents]
  exact afterUsers_eq_iff _

/-- One hive is discovered, that of `alice`, and the root does not go through a `Users`. -/
theorem profileName_iff_alice : ∃ image n uh,
    (logonBuilder.build 4 : Exec HiveError Bytes) = .ok image ∧
      discoverUserHives (⟨some, fun _ => none⟩ : Jiff Int) (aliceFiles image) n "/e".toList =
        .ok [uh] ∧
      (∃ sources, discoverHives (⟨some, fun _ => none⟩ : Jiff Int) (aliceFiles image) n
          "/e".toList = .ok sources ∧
        ∃ source ∈ sources, openHive (aliceFiles image) source.path = .ok (some uh.hive) ∧
          uh.identity = ⟨profileNameFromPath source.path, none⟩) ∧
      ∀ path ∈ profileHivePaths (join (usersDir "/e".toList) "alice".toList),
        (profileNameFromPath path = some "alice".toList ↔
          ProfileIsFirst (UnixPath.components "/e".toList) "alice".toList) := by
  obtain ⟨image, hive, hbuild, hopen, hshows⟩ :=
    build_shows logonBuilder_valid (n := 4) (by decide) (by decide)
  have hpaths := pathsReturn_alice image hive
  rw [sources_alice hopen] at hpaths
  obtain ⟨userHives, ⟨n, hrun⟩, hshown⟩ := discoverUserHives_evals
    (⟨some, fun _ => none⟩ : Jiff Int) (aliceFiles_show hopen hshows) "/e".toList hpaths
  rw [← sources_alice hopen, usersOf_alice] at hshown
  obtain ⟨uh, rest, _, hrest, rfl⟩ := List.forall₂_cons_right_iff.mp hshown
  obtain rfl := List.forall₂_nil_right_iff.mp hrest
  have hrun := hrun n le_rfl
  obtain ⟨hfrom, hprofile⟩ := profileName_iff (⟨some, fun _ => none⟩ : Jiff Int)
    (aliceFiles image) n "/e".toList "alice".toList (isFileName_of _ (by decide))
  obtain ⟨sources, hsources, hall⟩ := hfrom _ hrun
  exact ⟨image, n, uh, hbuild, hrun, ⟨sources, hsources, hall uh (List.mem_singleton_self uh)⟩,
    hprofile⟩

/-- **A case directory below `Users` is taken for the profile**: `alice`'s hive in an image mounted
    at `/mnt/Users/case42` is attributed to `case42`. -/
theorem profileName_caseDirectory : IsFileName "alice".toList ∧
    "/mnt/Users/case42/Users/alice/NTUSER.DAT".toList ∈
      profileHivePaths (join (usersDir "/mnt/Users/case42".toList) "alice".toList) ∧
    profileNameFromPath "/mnt/Users/case42/Users/alice/NTUSER.DAT".toList =
      some "case42".toList ∧
    profileNameFromPath "/mnt/Users/case42/Users/alice/NTUSER.DAT".toList ≠
      some "alice".toList := by
  refine ⟨isFileName_of _ (by decide), by decide, by decide, by decide⟩

end Catalog

end Winreg
