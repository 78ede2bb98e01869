/-
  USERS' HIVES below an evidence root.

  The scanner looks for hives at the places where Windows keeps them; the hives of users are
  `NTUSER.DAT` and `UsrClass.dat` in the directories below `Users`.  Whose hive it is, is told from
  its whole path: the component after the first one called `Users`.

  1. **The scanner** — `discoverHives` and `discoverUserHives`, for any file system.
  2. **Profiles** — a discovered hive's user is told from the path of its source
     (`mem_discoverUserHives`); the component that is taken is the profile unless the root goes
     through a directory called `Users` itself (`afterUsers_eq_iff`).
-/
import Winreg.Artifacts.CatalogScan
import Winreg.Base.UnixPath

namespace Winreg

open Rust

namespace Catalog

open UnixPath

/-! ## The scanner -/

/-- A file system: what it says about a path. -/
structure FileSystem where
  isDir : Str → Bool
  isFile : Str → Bool
  /-- The names in a directory, as far as they can be read. -/
  readDir : Str → Option (List Str)
  /-- The size of a file; zero if there is no telling. -/
  size : Str → Nat
  read : Str → Option Bytes

/-- Provenance of a discovered hive. -/
inductive SourceOrigin where
  | live
  | regBack
  | transactionLog (logNum : Nat)
deriving DecidableEq, Repr

/-- A discovered registry hive file. -/
structure HiveSource (Timestamp : Type) where
  path : Str
  hiveType : HiveType
  origin : SourceOrigin
  timestamp : Option Timestamp
  size : Nat
  isClean : Bool

/-- How a hive type is displayed. -/
def typeName : HiveType → Str
  | .system => "SYSTEM".toList
  | .software => "SOFTWARE".toList
  | .ntUser => "NTUSER.DAT".toList
  | .usrClass => "UsrClass.dat".toList
  | .sam => "SAM".toList
  | .security => "SECURITY".toList
  | .amcache => "Amcache.hve".toList
  | .bcd => "BCD".toList
  | .default => "DEFAULT".toList
  | .components => "COMPONENTS".toList
  | .unknown => "Unknown".toList

/-- `Hive::from_path(path).ok()`. -/
def openHive (fs : FileSystem) (path : Str) : Exec HiveError (Option Hive) :=
  match fs.read path with
  | none => .ok none
  | some data => do
    match ← (Hive.fromBytes data).attempt with
    | .ok hive => .ok (some hive)
    | .error _ => .ok none

/-- Well-known hive filenames. -/
def configHives : List Str :=
  ["SYSTEM".toList, "SOFTWARE".toList, "SAM".toList, "SECURITY".toList, "DEFAULT".toList]

section Discover

variable {Timestamp : Type} (jiff : Jiff Timestamp) (fs : FileSystem) (n : Nat)

/-- Try to open a file as a hive and add it to the sources. -/
def tryProbeHive (path : Str) (origin : SourceOrigin) (sources : List (HiveSource Timestamp)) :
    Exec HiveError (List (HiveSource Timestamp)) :=
  if !fs.isFile path then .ok sources
  else if fs.size path < 4096 then .ok sources
  else do
    match ← openHive fs path with
    | none => .ok sources
    | some hive => do
      let hiveType ← hive.detectHiveType n
      let root ← hive.rootKey.attempt
      let timestamp := root.toOption.bind fun k => k.lastWritten jiff
      .ok (sources ++ [⟨path, hiveType, origin, timestamp, fs.size path, hive.isClean⟩])

/-- Try to probe a transaction log file. -/
def tryProbeLog (path : Str) (logNum : Nat) (sources : List (HiveSource Timestamp)) :
    List (HiveSource Timestamp) :=
  if !fs.isFile path then sources
  else if fs.size path < 512 then sources
  else
    match fs.read path with
    | none => sources
    | some data =>
      if data.length < 4 || bytesAt data 0 4 ≠ [0x72, 0x65, 0x67, 0x66] then sources
      else sources ++ [⟨path, .unknown, .transactionLog logNum, none, fs.size path, false⟩]

/-- The two hives of a profile directory. -/
def profileHivePaths (profile : Str) : List Str :=
  [join profile "NTUSER.DAT".toList,
   ["AppData".toList, "Local".toList, "Microsoft".toList, "Windows".toList,
    "UsrClass.dat".toList].foldl join profile]

/-- The directory with the profiles. -/
def usersDir (evidenceRoot : Str) : Str := join evidenceRoot "Users".toList

/-- The hives below the directory of the users. -/
def discoverProfiles (evidenceRoot : Str) (sources : List (HiveSource Timestamp)) :
    Exec HiveError (List (HiveSource Timestamp)) :=
  if !fs.isDir (usersDir evidenceRoot) then .ok sources
  else
    ((fs.readDir (usersDir evidenceRoot)).getD []).foldlM (fun sources entry =>
      let profile := join (usersDir evidenceRoot) entry
      if !fs.isDir profile then .ok sources
      else
        (profileHivePaths profile).foldlM (fun sources path =>
          tryProbeHive jiff fs n path .live sources) sources) sources

/-- The hives of the system, with their logs. -/
def discoverConfig (configDir : Str) (sources : List (HiveSource Timestamp)) :
    Exec HiveError (List (HiveSource Timestamp)) :=
  if !fs.isDir configDir then .ok sources
  else
    configHives.foldlM (fun sources name => do
      let sources ← tryProbeHive jiff fs n (join configDir name) .live sources
      let sources := tryProbeLog fs (join configDir (name ++ ".LOG1".toList)) 1 sources
      .ok (tryProbeLog fs (join configDir (name ++ ".LOG2".toList)) 2 sources)) sources

/-- The copies of the system's hives. -/
def discoverRegBack (regbackDir : Str) (sources : List (HiveSource Timestamp)) :
    Exec HiveError (List (HiveSource Timestamp)) :=
  if !fs.isDir regbackDir then .ok sources
  else
    ((fs.readDir regbackDir).getD []).foldlM (fun sources entry =>
      let path := join regbackDir entry
      if fs.isFile path then tryProbeHive jiff fs n path .regBack sources
      else .ok sources) sources

/-- The order of sources: by type, then by time, a missing one first. -/
def sourceLe [LE Timestamp] [DecidableLE Timestamp] (a b : HiveSource Timestamp) : Bool :=
  if typeName a.hiveType = typeName b.hiveType then
    match a.timestamp, b.timestamp with
    | none, _ => true
    | some _, none => false
    | some s, some t => s ≤ t
  else typeName a.hiveType < typeName b.hiveType

/-- Scan an evidence root for hive files. -/
def discoverHives [LE Timestamp] [DecidableLE Timestamp] (evidenceRoot : Str) :
    Exec HiveError (List (HiveSource Timestamp)) := do
  let configDir := ["Windows".toList, "System32".toList, "config".toList].foldl join evidenceRoot
  let sources ← discoverConfig jiff fs n configDir []
  let sources ← discoverRegBack jiff fs n (join configDir "RegBack".toList) sources
  let sources ← discoverProfiles jiff fs n evidenceRoot sources
  .ok (sources.mergeSort sourceLe)

/-- The component of a path is the directory of the users. -/
def isUsers (component : Str) : Bool := eqIgnoreAsciiCase component "Users".toList

/-- Derive the profile name from a `…/Users/<name>/…` path. -/
def profileNameFromPath (path : Str) : Option Str :=
  match (components path).findIdx? isUsers with
  | none => none
  | some idx => (components path)[idx + 1]?

/-- Discover every user's hive and open it. -/
def discoverUserHives [LE Timestamp] [DecidableLE Timestamp] (evidenceRoot : Str) :
    Exec HiveError (List UserHive) := do
  let sources ← discoverHives jiff fs n evidenceRoot
  sources.foldlM (fun out source =>
    if source.hiveType = .ntUser ∨ source.hiveType = .usrClass then do
      match ← openHive fs source.path with
      | none => .ok out
      | some hive => .ok (out ++ [⟨⟨profileNameFromPath source.path, none⟩, hive⟩])
    else .ok out) []

end Discover

/-! ## Profiles -/

/-- The component after the first one called `Users`. -/
def afterUsers (cs : List Str) : Option Str :=
  match cs.findIdx? isUsers with
  | none => none
  | some idx => cs[idx + 1]?

/-- The component behind the first `Users`, component by component. -/
theorem afterUsers_cons (c : Str) (cs : List Str) :
    afterUsers (c :: cs) = if isUsers c then cs.head? else afterUsers cs := by
  unfold afterUsers
  rw [List.findIdx?_cons]
  by_cases hc : isUsers c = true
  · rw [if_pos hc, if_pos hc]
    cases cs <;> rfl
  · rw [if_neg hc, if_neg hc]
    cases cs.findIdx? isUsers with
    | none => rfl
    | some idx => simp

/-- The component after `Users` is the profile: no earlier component is called `Users`, or the
    profile comes after the first one that is. -/
def ProfileIsFirst (root : List Str) (profile : Str) : Prop :=
  ∀ before users after, root = before ++ users :: after → (∀ c ∈ before, isUsers c = false) →
    isUsers users = true → (after ++ ["Users".toList]).head? = some profile

/-- The profile is found below a root exactly when no component of the root is `Users`, or the
    first one that is leads to a directory of the same name.  By induction on the components of
    the root. -/
theorem afterUsers_eq_iff {profile : Str} {rest : List Str} : ∀ root : List Str,
    afterUsers (root ++ "Users".toList :: profile :: rest) = some profile ↔
      ProfileIsFirst root profile
  | [] => by
    refine iff_of_true ?_ fun before users after h => by simp at h
    rw [List.nil_append, afterUsers_cons, if_pos (by decide)]
    rfl
  | c :: root => by
    rw [List.cons_append, afterUsers_cons]
    by_cases hc : isUsers c = true
    · have hhead : (root ++ "Users".toList :: profile :: rest).head? =
          (root ++ ["Users".toList]).head? := by
        cases root <;> rfl
      rw [if_pos hc, hhead]
      constructor
      · intro h before users after hroot hbefore husers
        cases before with
        | nil =>
          obtain ⟨rfl, rfl⟩ := List.cons.inj hroot
          exact h
        | cons b before =>
          obtain ⟨rfl, _⟩ := List.cons.inj hroot
          rw [hbefore _ List.mem_cons_self] at hc
          cases hc
      · exact fun h => h [] c root rfl (fun b hb => absurd hb List.not_mem_nil) hc
    · -- this component is passed over on both sides
      rw [if_neg hc, afterUsers_eq_iff root]
      constructor
      · intro h before users after hroot hbefore husers
        cases before with
        | nil =>
          obtain ⟨rfl, _⟩ := List.cons.inj hroot
          exact absurd husers hc
        | cons b before =>
          exact h before users after (List.cons.inj hroot).2
            (fun c hc => hbefore c (List.mem_cons_of_mem _ hc)) husers
      · intro h before users after hroot hbefore husers
        refine h (c :: before) users after (by rw [hroot, List.cons_append]) ?_ husers
        intro b hb
        rcases List.mem_cons.mp hb with rfl | hb
        · simpa using hc
        · exact hbefore b hb

/-- What a name needs to be a component of its own. -/
theorem isFileName_of (name : Str) (h : name ≠ [] ∧ '/' ∉ name ∧ name ≠ ['.']) : IsFileName name :=
  ⟨h.1, h.2.1, h.2.2⟩

/-- The components of a hive's path: those of the root, `Users`, the profile, and more. -/
theorem components_profileHivePath {root profile path : Str} (hprofile : IsFileName profile)
    (hpath : path ∈ profileHivePaths (join (usersDir root) profile)) :
    ∃ rest, components path = components root ++ "Users".toList :: profile :: rest := by
  have hdir : components (join (usersDir root) profile) =
      components root ++ ["Users".toList, profile] := by
    rw [components_join hprofile, usersDir, components_join (isFileName_of _ (by decide)),
      List.append_assoc]
    rfl
  rcases List.mem_cons.mp hpath with rfl | hpath
  · refine ⟨["NTUSER.DAT".toList], ?_⟩
    rw [components_join (isFileName_of _ (by decide)), hdir, List.append_assoc]
    rfl
  · obtain rfl := List.mem_singleton.mp hpath
    refine ⟨["AppData".toList, "Local".toList, "Microsoft".toList, "Windows".toList,
      "UsrClass.dat".toList], ?_⟩
    simp only [List.foldl_cons, List.foldl_nil]
    rw [components_join (isFileName_of _ (by decide)), components_join (isFileName_of _ (by decide)),
      components_join (isFileName_of _ (by decide)), components_join (isFileName_of _ (by decide)),
      components_join (isFileName_of _ (by decide)), hdir]
    simp

section Discovered

variable {Timestamp : Type} [LE Timestamp] [DecidableLE Timestamp] {jiff : Jiff Timestamp}
  {fs : FileSystem} {n : Nat} {evidenceRoot : Str}

/-- A discovered hive is one of the sources, and its user is told from the path of the source. -/
theorem mem_discoverUserHives {hives : List UserHive}
    (h : discoverUserHives jiff fs n evidenceRoot = .ok hives) :
    ∃ sources, discoverHives jiff fs n evidenceRoot = .ok sources ∧
      ∀ uh ∈ hives, ∃ source ∈ sources, openHive fs source.path = .ok (some uh.hive) ∧
        uh.identity = ⟨profileNameFromPath source.path, none⟩ := by
  unfold discoverUserHives at h
  obtain ⟨sources, hsources, hrun⟩ := Exec.bind_eq_ok.mp h
  refine ⟨sources, hsources, ?_⟩
  refine Exec.foldlM_inv (fun out : List UserHive => ∀ uh ∈ out, ∃ source ∈ sources,
    openHive fs source.path = .ok (some uh.hive) ∧
    uh.identity = ⟨profileNameFromPath source.path, none⟩)
    (fun source hsource out out' hout hstep => ?_) (fun uh huh => absurd huh List.not_mem_nil) hrun
  split at hstep
  · obtain ⟨opened, hopened, hstep⟩ := Exec.bind_eq_ok.mp hstep
    cases opened with
    | none =>
      cases hstep
      exact hout
    | some hive =>
      cases hstep
      intro uh huh
      rcases List.mem_append.mp huh with huh | huh
      · exact hout uh huh
      · rw [List.mem_singleton.mp huh]
        exact ⟨source, hsource, hopened, rfl⟩
  · cases hstep
    exact hout

end Discovered

end Catalog

end Winreg
