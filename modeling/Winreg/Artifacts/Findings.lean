/-
  FINDINGS: what the extractors make of a hive depends on what the hive shows, and on nothing else.

  Every extractor opens keys by path, lists values and subkeys, and passes over what it cannot read.
  Hence on a hive that shows a registry each of them returns, without an error, what can be said of
  the registry alone: the kinds of index cells, the places of the cells, big data and the errors
  play no part.

  1. **Types** — the type of a hive is the type of its registry.
  2. **Run keys, typed URLs, the cache** — the remaining extractors, on what is shown.
  3. **Findings** — all extractors together: a hive has the findings of the registry that it shows
     (`extracts_iff`), and a built hive those of the registry that was given (`build_extracts`).
-/
import Winreg.Artifacts.Amcache
import Winreg.Artifacts.ComHijacking
import Winreg.Artifacts.LsaDump
import Winreg.Artifacts.Lxss
import Winreg.Artifacts.RunKeys
import Winreg.Artifacts.Sam
import Winreg.Artifacts.Services
import Winreg.Artifacts.Shimcache
import Winreg.Artifacts.TypedUrls
import Winreg.Artifacts.UserAssist

namespace Winreg

open Rust Exec TestUtil

/-! ## Types -/

section Types

variable (reg : Registry)

/-- The type that the names below the root suggest. -/
def typeOfNames (root : Str) (names : List Str) (samDomains : Bool) : HiveType :=
  let has (name : String) : Bool := names.contains name.toList
  if has "SELECT" && has "CONTROLSET001" then .system
  else if samDomains then .sam
  else if has "POLICY" then .security
  else if has "ROOT" || has "INVENTORYAPPLICATIONFILE" then .amcache
  else if has "DESCRIPTION" && has "OBJECTS" then .bcd
  else if has "MICROSOFT" && has "CLASSES" then .software
  else if has "SOFTWARE" && (has "APPEVENTS" || has "CONSOLE" || has "ENVIRONMENT") then .ntUser
  else if has "APPEVENTS" && !has "SOFTWARE" then .default
  else if "CLASSES".toList <:+: toAsciiUppercase root then .usrClass
  else .unknown

/-- The type is told from names only. -/
theorem hiveTypeOf_eq (root : Key) (names : List Str) (samDomains : Bool) :
    hiveTypeOf root names samDomains = typeOfNames root.name names samDomains := rfl

/-- The type of a registry with this root and these keys below it. -/
def Registry.typeBelow (root : reg.Node) (kids : List reg.Node) : HiveType :=
  let names := kids.map fun a => toAsciiUppercase (reg.name a)
  let isSystem := names.contains "SELECT".toList && names.contains "CONTROLSET001".toList
  typeOfNames (reg.name root) names (!isSystem && names.contains "SAM".toList &&
    ((reg.subkey root "SAM".toList).bind (reg.subkey · "Domains".toList)).isSome)

/-- The type of a registry. -/
def Registry.hiveType : HiveType :=
  reg.root.elim .unknown fun root => (reg.subkeys root).elim .unknown (reg.typeBelow root)

variable {reg} {hive : Hive} {rel : Key → reg.Node → Prop} (shows_ : hive.Shows reg rel)

include shows_

/-- Whether there is a key `SAM\Domains` is told from the registry. -/
theorem hasSamDomains_evals {root : Key} {a : reg.Node} (hroot : rel root a) :
    Evals (fun n => hasSamDomains hive.reader n root)
      (.ok ((reg.subkey a "SAM".toList).bind (reg.subkey · "Domains".toList)).isSome) := by
  obtain ⟨x, hx, hsam⟩ := shows_.subkey hroot "SAM".toList
  generalize reg.subkey a "SAM".toList = o at hsam
  cases hsam with
  | missing => exact Evals.bind hx.attempt (.const _)
  | error e => exact Evals.bind hx.attempt (.const _)
  | @found sam b hb =>
    obtain ⟨y, hy, hdomains⟩ := shows_.subkey hb "Domains".toList
    rw [Option.bind_some]
    generalize reg.subkey b "Domains".toList = o at hdomains
    cases hdomains with
    | missing => exact Evals.bind hx.attempt (Evals.bind hy.attempt (.const _))
    | error e => exact Evals.bind hx.attempt (Evals.bind hy.attempt (.const _))
    | found _ => exact Evals.bind hx.attempt (Evals.bind hy.attempt (.const _))

/-- So is the type of the hive: where the root or its subkeys cannot be read it is unknown. -/
theorem detectHiveType_evals :
    Evals (fun n => hive.detectHiveType n) (.ok reg.hiveType) := by
  have hroot := shows_.root
  unfold Registry.hiveType Hive.detectHiveType
  generalize hive.rootKey = x, reg.root = o at hroot
  cases hroot with
  | error e => exact .const _
  | @value root a ha =>
    obtain ⟨y, hy, hkids⟩ := shows_.subkeys ha
    rw [Option.elim_some]
    generalize reg.subkeys a = o at hkids
    cases hkids with
    | error e => exact Evals.bind (.const _) (Evals.bind hy.attempt (.const _))
    | @value kids nodes hkids =>
      refine Evals.bind (.const _) (Evals.bind hy.attempt ?_)
      have hnames : kids.map (fun k => toAsciiUppercase k.name) =
          nodes.map fun b => toAsciiUppercase (reg.name b) := by
        rw [← List.forall₂_eq_eq_eq, List.forall₂_map_left_iff, List.forall₂_map_right_iff]
        exact hkids.imp fun k b hb => by rw [shows_.name hb]
      simp only [hnames, hiveTypeOf_eq, shows_.name ha]
      rw [Option.elim_some, Registry.typeBelow]
      have hsam := hasSamDomains_evals shows_ ha
      split
      · rename_i hcond
        rw [hcond, Bool.true_and]
        exact hsam.bind (.const _)
      · rename_i hcond
        rw [Bool.eq_false_iff.mpr hcond, Bool.false_and]
        exact .const _

end Types

/-! ## Run keys, typed URLs, the cache -/

section Others

variable {Timestamp : Type} (jiff : Jiff Timestamp) (reg : Registry)

namespace RunKeys

/-- The entry of one value. -/
def runEntryOf (hiveLabel keyPath valueName : Str) (lastWritten : Option Timestamp)
    (v : ShownValue) : RunKeyEntry Timestamp where
  hive := hiveLabel
  keyPath := keyPath
  valueName := valueName
  command := v.text.getD []
  isSuspicious := (classifyRunEntry (v.text.getD [])).isSome
  suspiciousReason := classifyRunEntry (v.text.getD [])
  lastWritten := lastWritten

/-- The entries of one Run key. -/
def runKeyEntriesOf (hiveLabel keyPath : Str) : List (RunKeyEntry Timestamp) :=
  (reg.openKey keyPath).elim [] fun a => (reg.valueList a).map fun v =>
    runEntryOf hiveLabel keyPath v.name (reg.lastWritten jiff a) v

/-- The entry of one Winlogon value, if it is there. -/
def winlogonEntryOf (hiveLabel keyPath : Str) (a : reg.Node) (vname : Str) :
    List (RunKeyEntry Timestamp) :=
  (reg.value a vname).elim [] fun v =>
    [runEntryOf hiveLabel keyPath vname (reg.lastWritten jiff a) v]

/-- Where the commands of a hive of this type are. -/
def placesOf : HiveType → Str × List Str × Str
  | .software => ("HKLM".toList, softwareRunPaths, winlogonPathSoftware)
  | .ntUser => ("HKCU".toList, ntuserRunPaths, winlogonPathNtuser)
  | _ => ("UNKNOWN".toList, softwareRunPaths, winlogonPathSoftware)

/-- All Run-key entries. -/
def entriesOf : List (RunKeyEntry Timestamp) :=
  let (hiveLabel, runPaths, winlogonPath) := placesOf reg.hiveType
  runPaths.flatMap (runKeyEntriesOf jiff reg hiveLabel) ++
    (reg.openKey winlogonPath).elim [] fun a =>
      winlogonValues.flatMap (winlogonEntryOf jiff reg hiveLabel winlogonPath a)

end RunKeys

namespace TypedUrls

/-- The time that a value holds, as text. -/
def timeOf (v : ShownValue) : Option Str :=
  v.data.bind fun raw => if 8 ≤ raw.length then jiff.iso (u64At raw 0) else none

/-- From the name of a value to its time. -/
def timesOf : BTreeMap Str Str :=
  (reg.valuesAt typedUrlsTimePath).foldl (fun map v => match timeOf jiff v with
    | some s => map.insert v.name s
    | none => map) ∅

/-- The entry of one value. -/
def typedUrlOf (times : BTreeMap Str Str) (v : ShownValue) : List TypedUrl :=
  v.text.elim [] fun url =>
    if url = [] then []
    else [⟨url, times[v.name]?, (classifyUrl url).isSome, classifyUrl url⟩]

/-- All typed URLs. -/
def entriesOf : List TypedUrl :=
  (reg.valuesAt typedUrlsPath).flatMap (typedUrlOf (timesOf jiff reg))

end TypedUrls

namespace Shimcache

/-- The number in `Select\Current`, one if there is none. -/
def currentOf : UInt32 :=
  (((reg.openKey "Select".toList).bind (reg.value · "Current".toList)).bind fun v =>
    v.data.map fun d => if d.length ≥ 4 then u32At d 0 else 1).getD 1

/-- The entries of the blob of one key. -/
def keyEntriesOf (a : reg.Node) : List ShimcacheEntry :=
  ((reg.value a "AppCompatCache".toList).bind ShownValue.data).elim [] (parseBlob jiff)

/-- The entries of the cache. -/
def entriesOf : List ShimcacheEntry :=
  ((candidates (currentOf reg)).findSome? reg.openKey).elim [] (keyEntriesOf jiff reg)

end Shimcache

variable {reg} {hive : Hive} {rel : Key → reg.Node → Prop} (shows_ : hive.Shows reg rel)

include shows_

/-- The entries of one run key. -/
theorem runKeyEntries_evals (hiveLabel keyPath : Str) :
    Evals (fun n => RunKeys.runKeyEntries jiff hive n hiveLabel keyPath)
      (.ok (RunKeys.runKeyEntriesOf jiff reg hiveLabel keyPath)) := by
  obtain ⟨x, hx, hopen⟩ := shows_.openKey keyPath
  unfold RunKeys.runKeyEntriesOf RunKeys.runKeyEntries
  generalize reg.openKey keyPath = o at hopen
  cases hopen with
  | missing => exact Evals.bind hx.attempt (.const _)
  | error e => exact Evals.bind hx.attempt (.const _)
  | @found k a hk =>
    refine Evals.bind hx.attempt ?_
    have hvalues := shows_.values hk
    rw [Option.elim_some]
    unfold Registry.valueList
    dsimp only
    generalize k.values hive.reader = y, reg.values a = o at hvalues
    cases hvalues with
    | error e => exact .const _
    | value hvals =>
      refine Evals.bind (.const _) ?_
      refine Evals.mapM hvals fun val v hv => ?_
      rw [RunKeys.runEntry, hv.asString.unwrapOr, hv.name, shows_.lastWritten jiff hk]
      exact .const _

/-- The entries of one value of Winlogon. -/
theorem winlogonEntry_evals (hiveLabel keyPath : Str) {k : Key} {a : reg.Node} (hk : rel k a)
    (vname : Str) : Evals (fun _ => RunKeys.winlogonEntry jiff hive hiveLabel keyPath k vname)
      (.ok (RunKeys.winlogonEntryOf jiff reg hiveLabel keyPath a vname)) := by
  obtain ⟨x, hx, hvalue⟩ := shows_.value hk vname
  unfold RunKeys.winlogonEntryOf RunKeys.winlogonEntry
  generalize reg.value a vname = o at hvalue
  cases hvalue with
  | missing => exact Evals.bind hx.attempt (.const _)
  | error e => exact Evals.bind hx.attempt (.const _)
  | @found val v hv =>
    refine Evals.bind hx.attempt ?_
    simp only [RunKeys.runEntry, hv.asString.unwrapOr, shows_.lastWritten jiff hk]
    exact .const _

/-- The commands of a hive, where they are. -/
theorem runKeysAt_evals (hiveLabel : Str) (runPaths : List Str) (winlogonPath : Str) :
    Evals (fun n => do
      let entries ← runPaths.foldlM (fun entries keyPath => do
        let new ← RunKeys.runKeyEntries jiff hive n hiveLabel keyPath
        .ok (entries ++ new)) []
      match ← (hive.openKey n winlogonPath).attempt with
      | .ok (some winlogon) => RunKeys.winlogonValues.foldlM (fun entries vname => do
          let new ← RunKeys.winlogonEntry jiff hive hiveLabel winlogonPath winlogon vname
          .ok (entries ++ new)) entries
      | _ => .ok entries)
      (.ok (runPaths.flatMap (RunKeys.runKeyEntriesOf jiff reg hiveLabel) ++
        (reg.openKey winlogonPath).elim [] fun a => RunKeys.winlogonValues.flatMap
          (RunKeys.winlogonEntryOf jiff reg hiveLabel winlogonPath a))) := by
  -- first the run keys, then the values of Winlogon where its key opens
  have hruns := Evals.extend (List.forall₂_same.mpr fun (path : Str) (_ : path ∈ runPaths) => rfl)
    (fun path path' (heq : path = path') => by
      rw [heq]
      exact runKeyEntries_evals jiff shows_ hiveLabel path') []
  refine hruns.bind ?_
  obtain ⟨x, hx, hopen⟩ := shows_.openKey winlogonPath
  generalize reg.openKey winlogonPath = o at hopen
  rw [List.nil_append]
  cases hopen with
  | missing =>
    rw [Option.elim_none, List.append_nil]
    exact Evals.bind hx.attempt (.const _)
  | error e =>
    rw [Option.elim_none, List.append_nil]
    exact Evals.bind hx.attempt (.const _)
  | @found k a hk =>
    refine Evals.bind hx.attempt ?_
    exact Evals.extend
      (List.forall₂_same.mpr fun (name : Str) (_ : name ∈ RunKeys.winlogonValues) => rfl)
      (fun name name' (heq : name = name') => by
        rw [heq]
        exact winlogonEntry_evals jiff shows_ hiveLabel winlogonPath hk name') _

/-- The run keys of a hive, key by key in the order of the table. -/
theorem runKeys_evals :
    Evals (fun n => RunKeys.parse jiff hive n) (.ok (RunKeys.entriesOf jiff reg)) := by
  refine Evals.bind (detectHiveType_evals shows_) ?_
  unfold RunKeys.entriesOf
  cases reg.hiveType <;> exact runKeysAt_evals jiff shows_ _ _ _

omit shows_ in
/-- The time that is stored for a URL. -/
theorem timeText_evals {val : Value} {v : ShownValue} (hv : ShowsValue hive.reader val v) :
    Evals (fun _ => TypedUrls.timeText jiff hive.reader val) (.ok (TypedUrls.timeOf jiff v)) := by
  have hdata := hv.data
  unfold TypedUrls.timeText TypedUrls.timeOf
  generalize val.rawData hive.reader = x, v.data = o at hdata
  cases hdata with
  | error e => exact .const _
  | @value raw data hraw =>
    rw [show raw = data from hraw]
    exact .const _

/-- The times of all URLs, by the name of the value. -/
theorem timeMap_evals :
    Evals (fun n => TypedUrls.timeMap jiff hive n) (.ok (TypedUrls.timesOf jiff reg)) := by
  obtain ⟨x, hx, hopen⟩ := shows_.openKey TypedUrls.typedUrlsTimePath
  unfold TypedUrls.timeMap TypedUrls.timesOf Registry.valuesAt
  generalize reg.openKey TypedUrls.typedUrlsTimePath = o at hopen
  cases hopen with
  | missing => exact Evals.bind hx.attempt (.const _)
  | error e => exact Evals.bind hx.attempt (.const _)
  | @found k a hk =>
    refine Evals.bind hx.attempt ?_
    have hvalues := shows_.values hk
    rw [Option.elim_some]
    unfold Registry.valueList
    dsimp only
    generalize k.values hive.reader = y, reg.values a = o at hvalues
    cases hvalues with
    | error e => exact .const _
    | value hvals =>
      refine Evals.bind (.const _) ?_
      exact Evals.foldlM hvals (fun val v hv map => by
        rw [← hv.name]
        exact (timeText_evals jiff hv).bind (.const _)) ∅

/-- The typed URLs with their times. -/
theorem typedUrls_evals :
    Evals (fun n => TypedUrls.parse jiff hive n) (.ok (TypedUrls.entriesOf jiff reg)) := by
  obtain ⟨x, hx, hopen⟩ := shows_.openKey TypedUrls.typedUrlsPath
  unfold TypedUrls.parse TypedUrls.entriesOf Registry.valuesAt
  generalize reg.openKey TypedUrls.typedUrlsPath = o at hopen
  cases hopen with
  | missing => exact Evals.bind hx.attempt (.const _)
  | error e => exact Evals.bind hx.attempt (.const _)
  | @found k a hk =>
    refine Evals.bind hx.attempt (Evals.bind (timeMap_evals jiff shows_) ?_)
    have hvalues := shows_.values hk
    rw [Option.elim_some]
    unfold Registry.valueList
    generalize k.values hive.reader = y, reg.values a = o at hvalues
    cases hvalues with
    | error e => exact .const _
    | value hvals =>
      refine Evals.bind (.const _) ?_
      refine Evals.extend hvals (fun val v hv => ?_) []
      have htext := hv.asString
      unfold TypedUrls.typedUrl TypedUrls.typedUrlOf
      rw [hv.name]
      generalize val.asString hive.reader = z, v.text = o at htext
      cases htext with
      | error e => exact .const _
      | @value url url' heq =>
        obtain rfl : url = url' := heq
        refine Evals.bind (.const _) ?_
        rw [Option.elim_some]
        dsimp only
        split
        · exact .const _
        · exact .const _

/-- The number of the current control set. -/
theorem selectCurrent_evals :
    Evals (fun n => Shimcache.selectCurrent hive n) (.ok (Shimcache.currentOf reg)) := by
  obtain ⟨x, hx, hopen⟩ := shows_.openKey "Select".toList
  unfold Shimcache.selectCurrent Shimcache.currentOf
  generalize reg.openKey "Select".toList = o at hopen
  cases hopen with
  | missing => exact Evals.bind hx.attempt (.const _)
  | error e => exact Evals.bind hx.attempt (.const _)
  | @found k a hk =>
    obtain ⟨y, hy, hvalue⟩ := shows_.value hk "Current".toList
    refine Evals.bind hx.attempt ?_
    rw [Option.bind_some]
    generalize reg.value a "Current".toList = o at hvalue
    cases hvalue with
    | missing => exact Evals.bind hy.attempt (.const _)
    | error e => exact Evals.bind hy.attempt (.const _)
    | @found val v hv =>
      refine Evals.bind hy.attempt ?_
      have hdata := hv.data
      rw [Option.bind_some]
      dsimp only
      generalize val.rawData hive.reader = z, v.data = o at hdata
      cases hdata with
      | error e => exact .const _
      | @value raw data hraw =>
        rw [show raw = data from hraw]
        exact .const _

/-- The entries of the cache, from the first of the candidate control sets that has it. -/
theorem shimcache_evals :
    Evals (fun n => Shimcache.parse jiff hive n) (.ok (Shimcache.entriesOf jiff reg)) := by
  refine Evals.bind (selectCurrent_evals shows_) ?_
  obtain ⟨found, hopen, hrel⟩ := shows_.openFirst (Shimcache.candidates (Shimcache.currentOf reg))
  refine Evals.bind hopen ?_
  unfold Shimcache.entriesOf
  generalize (Shimcache.candidates (Shimcache.currentOf reg)).findSome? reg.openKey = o at hrel
  cases hrel with
  | none => exact .const _
  | @some k a hk =>
    obtain ⟨y, hy, hvalue⟩ := shows_.value hk "AppCompatCache".toList
    show Evals (fun _ => Shimcache.parseKey jiff hive.reader k)
      (.ok (Shimcache.keyEntriesOf jiff reg a))
    unfold Shimcache.parseKey Shimcache.keyEntriesOf
    generalize reg.value a "AppCompatCache".toList = o at hvalue
    cases hvalue with
    | missing => exact Evals.bind hy.attempt (.const _)
    | error e => exact Evals.bind hy.attempt (.const _)
    | @found val v hv =>
      refine Evals.bind hy.attempt ?_
      have hdata := hv.data
      rw [Option.bind_some]
      dsimp only
      generalize val.rawData hive.reader = z, v.data = o at hdata
      cases hdata with
      | error e => exact .const _
      | @value raw data hraw =>
        rw [show raw = data from hraw]
        exact .const _

end Others

/-! ## Findings -/

/-- What the extractors find in a hive. -/
@[ext]
structure Findings (Timestamp : Type) where
  hiveType : HiveType
  services : List (SvcDiff.ServiceEntry Timestamp)
  runKeys : List (RunKeys.RunKeyEntry Timestamp)
  typedUrls : List TypedUrls.TypedUrl
  shimcache : List Shimcache.ShimcacheEntry
  launches : List UserAssist.UserAssistEntry
  accounts : List Sam.SamUserEntry
  distros : List (Lxss.LxssDistro Timestamp)
  files : List Amcache.AmcacheEntry
  secrets : List (LsaDump.LsaSecretEntry Timestamp)
  slots : List (LsaDump.Dcc2SlotEntry Timestamp)
  classes : List (ComHijacking.ComHijackInfo Timestamp)

/-- The findings of a registry. -/
def Registry.findings {Timestamp : Type} (jiff : Jiff Timestamp) (reg : Registry) :
    Findings Timestamp where
  hiveType := reg.hiveType
  services := (SvcDiff.servicesOf reg).map (SvcDiff.serviceOf jiff reg)
  runKeys := RunKeys.entriesOf jiff reg
  typedUrls := TypedUrls.entriesOf jiff reg
  shimcache := Shimcache.entriesOf jiff reg
  launches := UserAssist.knownGuids.flatMap fun guid =>
    (reg.valuesAt (UserAssist.countPath guid)).flatMap (UserAssist.entriesOf jiff guid)
  accounts := Sam.accountsOf jiff reg
  distros := Lxss.allDistros jiff reg
  files := Amcache.entriesOf jiff reg
  secrets := (reg.subkeysAt LsaDump.secretsPath).map (LsaDump.secretOf jiff reg)
  slots := (reg.subkeysAt LsaDump.cachePath).map (LsaDump.slotOf jiff reg)
  classes := (ComHijacking.classes reg).flatMap (ComHijacking.infosOf jiff reg fun _ => [])

/-- The extractors find this in the hive. -/
structure Hive.Extracts {Timestamp : Type} (jiff : Jiff Timestamp) (hive : Hive)
    (f : Findings Timestamp) : Prop where
  hiveType : Evals (fun n => hive.detectHiveType n) (.ok f.hiveType)
  services : Evals (fun n => SvcDiff.parse jiff hive n) (.ok f.services)
  runKeys : Evals (fun n => RunKeys.parse jiff hive n) (.ok f.runKeys)
  typedUrls : Evals (fun n => TypedUrls.parse jiff hive n) (.ok f.typedUrls)
  shimcache : Evals (fun n => Shimcache.parse jiff hive n) (.ok f.shimcache)
  launches : Evals (fun n => UserAssist.parse jiff hive n) (.ok f.launches)
  accounts : Evals (fun n => Sam.parse jiff hive n) (.ok f.accounts)
  distros : Evals (fun n => Lxss.parse jiff hive n) (.ok f.distros)
  files : Evals (fun n => Amcache.parse jiff hive n) (.ok f.files)
  secrets : Evals (fun n => LsaDump.parseSecrets jiff hive n) (.ok f.secrets)
  slots : Evals (fun n => LsaDump.parseDcc2Slots jiff hive n) (.ok f.slots)
  classes : Evals (fun n => ComHijacking.parseHkcuOnly jiff hive n) (.ok f.classes)

section Findings

variable {Timestamp : Type} (jiff : Jiff Timestamp)

/-- A hive has one outcome. -/
theorem Hive.Extracts.unique {jiff : Jiff Timestamp} {hive : Hive} {f g : Findings Timestamp}
    (hf : hive.Extracts jiff f) (hg : hive.Extracts jiff g) : f = g := by
  apply Findings.ext
  · exact Exec.ok.inj (hf.hiveType.unique hg.hiveType)
  · exact Exec.ok.inj (hf.services.unique hg.services)
  · exact Exec.ok.inj (hf.runKeys.unique hg.runKeys)
  · exact Exec.ok.inj (hf.typedUrls.unique hg.typedUrls)
  · exact Exec.ok.inj (hf.shimcache.unique hg.shimcache)
  · exact Exec.ok.inj (hf.launches.unique hg.launches)
  · exact Exec.ok.inj (hf.accounts.unique hg.accounts)
  · exact Exec.ok.inj (hf.distros.unique hg.distros)
  · exact Exec.ok.inj (hf.files.unique hg.files)
  · exact Exec.ok.inj (hf.secrets.unique hg.secrets)
  · exact Exec.ok.inj (hf.slots.unique hg.slots)
  · exact Exec.ok.inj (hf.classes.unique hg.classes)

/-- The extractors find what the registry says. -/
theorem extracts_of_shows {hive : Hive} {reg : Registry} {rel : Key → reg.Node → Prop}
    (shows_ : hive.Shows reg rel) : hive.Extracts jiff (reg.findings jiff) where
  hiveType := detectHiveType_evals shows_
  services := SvcDiff.parse_evals jiff shows_
  runKeys := runKeys_evals jiff shows_
  typedUrls := typedUrls_evals jiff shows_
  shimcache := shimcache_evals jiff shows_
  launches := UserAssist.parse_evals jiff shows_
  accounts := Sam.parse_evals jiff shows_
  distros := Lxss.parse_evals jiff shows_
  files := Amcache.parse_evals jiff shows_
  secrets := LsaDump.parseSecrets_evals jiff shows_
  slots := LsaDump.parseDcc2Slots_evals jiff shows_
  classes := ComHijacking.hijackInfos_evals jiff shows_ fun _ => .const _

/-- **The findings are those of the registry**: in two hives that show the same registry, whatever
    cells they keep it in, all extractors return, and find the same.  Each extractor is the image of
    its own function on registries, and the two runs are related by what the two hives show. -/
theorem extracts_iff {hive : Hive} {reg : Registry} {rel : Key → reg.Node → Prop}
    (shows_ : hive.Shows reg rel) (f : Findings Timestamp) :
    hive.Extracts jiff f ↔ f = reg.findings jiff := by
  have hfindings := extracts_of_shows jiff shows_
  constructor
  · exact fun h => h.unique hfindings
  · rintro rfl
    exact hfindings

set_option maxRecDepth 20000 in
/-- The sample of accounts: a SAM hive with one account and nothing else. -/
theorem extracts_iff_guest : ∃ image hive f,
    (Sam.guestBuilder.build 7 : Exec HiveError Bytes) = .ok image ∧
      Hive.fromBytes image = .ok hive ∧ hive.Extracts (⟨some, fun _ => none⟩ : Jiff Int) f ∧
      f.hiveType = .sam ∧ f.accounts.map (·.username) = ["Guest".toList] ∧ f.services = [] := by
  obtain ⟨image, hive, hbuild, hopen, hshows⟩ :=
    build_shows Sam.guestBuilder_valid (n := 7) (by decide) (by decide)
  exact ⟨image, hive, _, hbuild, hopen, (extracts_iff _ hshows _).mpr rfl, by decide, by decide,
    by decide⟩

/-- **What is written to a hive is found in it**: from the file of a valid builder the extractors
    read the findings of the keys and values that were given. -/
theorem build_extracts {b : TestHiveBuilder} (h : b.Valid) {n : Nat} (hn : b.depth < n)
    (hsize : b.planOf.totalFileSize < 2 ^ 31) :
    ∃ image hive, (b.build n : Exec HiveError Bytes) = .ok image ∧
      Hive.fromBytes image = .ok hive ∧ hive.Extracts jiff (b.registry.findings jiff) := by
  obtain ⟨image, hive, hbuild, hopen, hshows⟩ := build_shows h hn hsize
  exact ⟨image, hive, hbuild, hopen, extracts_of_shows jiff hshows⟩

end Findings

set_option maxRecDepth 20000 in
/-- The sample of services: what was written is what is extracted. -/
theorem build_extracts_services : ∃ image hive services,
    (SvcDiff.serviceBuilder.build 5 : Exec HiveError Bytes) = .ok image ∧
      Hive.fromBytes image = .ok hive ∧
      Evals (fun n => SvcDiff.parse (⟨some, fun _ => none⟩ : Jiff Int) hive n) (.ok services) ∧
      services.map (·.name) = ["new".toList] := by
  obtain ⟨image, hive, hbuild, hopen, hextracts⟩ := build_extracts (⟨some, fun _ => none⟩ : Jiff Int)
    SvcDiff.serviceBuilder_valid (n := 5) (by decide) (by decide)
  exact ⟨image, hive, _, hbuild, hopen, hextracts.services, by decide⟩

end Winreg
