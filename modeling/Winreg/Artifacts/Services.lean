/-
  SERVICES OF A HIVE: which of them are listed, and which of them are flagged.

  1. **Rules** — six documented rules, each looked for in fields of its own; a service is flagged
     where one of them holds, and then a reason is given (`classifyService_iff`).
  2. **Reading** — the fields of a service, on what is shown.
  3. **Services** — each service of the active control set has one entry, in order, with the
     defaults of the fields that are missing; it is flagged by its own fields (`parse_services`).
-/
import Winreg.Artifacts.SvcDiff
import Winreg.Base.Utf16
import Winreg.TestUtil.Shown

namespace Winreg

open Rust Exec TestUtil

namespace SvcDiff

/-! ## Rules -/

/-- The path is in a user-writable directory, ignoring case. -/
def InWritableDir (path : Str) : Prop := ∃ dir ∈ userWritableDirs, dir <:+: toAsciiLowercase path

/-- The path names an interpreter, ignoring case. -/
def NamesInterpreter (path : Str) : Prop := ∃ i ∈ interpreters, i <:+: toAsciiLowercase path

/-- The rules that the documentation lists. -/
inductive Rule where
  | writableImage
  | interpreterImage
  | serviceDll
  | autoStart
  | noAccount
  | failureCommand
deriving DecidableEq, Repr

/-- What a rule says of a service. -/
def Rule.Matches {Timestamp : Type} (e : ServiceEntry Timestamp) : Rule → Prop
  | writableImage => InWritableDir e.imagePath
  | interpreterImage => NamesInterpreter e.imagePath
  | serviceDll => ∃ dll, e.serviceDll = some dll ∧ (InWritableDir dll ∨ NamesInterpreter dll)
  | autoStart => e.startType = 2 ∧ e.description = [] ∧
      ¬ "\\system32\\".toList <:+: toAsciiLowercase e.imagePath ∧
      ¬ "\\syswow64\\".toList <:+: toAsciiLowercase e.imagePath
  | noAccount => e.objectName = []
  | failureCommand => ∃ command, e.failureCommand = some command ∧ command ≠ []

/-- The entry is classified by its own fields. -/
def ServiceEntry.Classified {Timestamp : Type} (e : ServiceEntry Timestamp) : Prop :=
  (e.isSuspicious, e.suspiciousReason) =
    classifyService e.imagePath e.startType e.description e.objectName e.serviceDll
      e.failureCommand

/-- A needle is found exactly when one of the list occurs. -/
theorem find?_isSome_iff {needles : List Str} {s : Str} :
    (needles.find? (· <:+: s)).isSome = true ↔ ∃ needle ∈ needles, needle <:+: s := by
  simp only [List.find?_isSome, decide_eq_true_eq]

/-- A path is flagged for its directory or for an interpreter that it names. -/
theorem classifyPath_isSome (path label : Str) :
    (classifyPath (toAsciiLowercase path) label).isSome = true ↔
      InWritableDir path ∨ NamesInterpreter path := by
  unfold InWritableDir NamesInterpreter classifyPath
  rw [← find?_isSome_iff, ← find?_isSome_iff]
  cases userWritableDirs.find? (· <:+: toAsciiLowercase path) with
  | some dir => exact iff_of_true rfl (Or.inl rfl)
  | none =>
    cases interpreters.find? (· <:+: toAsciiLowercase path) with
    | some i => exact iff_of_true rfl (Or.inr rfl)
    | none => simp

/-- The rules for paths, of the DLL of a service. -/
theorem classifyDll_isSome (serviceDll : Option Str) (label : Str) :
    (serviceDll.bind fun dll => classifyPath (toAsciiLowercase dll) label).isSome = true ↔
      ∃ dll, serviceDll = some dll ∧ (InWritableDir dll ∨ NamesInterpreter dll) := by
  cases serviceDll with
  | none => simp
  | some dll =>
    rw [Option.bind_some, classifyPath_isSome]
    exact ⟨fun h => ⟨dll, rfl, h⟩, fun ⟨_, h, hdll⟩ => Option.some.inj h ▸ hdll⟩

/-- **A service is flagged where a rule holds**, and a flagged one has a reason. -/
theorem classified_iff {Timestamp : Type} {e : ServiceEntry Timestamp} (h : e.Classified) :
    (e.isSuspicious = true ↔ ∃ rule : Rule, rule.Matches e) ∧
      e.suspiciousReason.isSome = e.isSuspicious := by
  have himage := classifyPath_isSome e.imagePath "image path".toList
  have hdll := classifyDll_isSome e.serviceDll "ServiceDll".toList
  rw [ServiceEntry.Classified, classifyService] at h
  -- the rules in the order of the source: each is reached where those before it do not match
  cases hfirst : classifyPath (toAsciiLowercase e.imagePath) "image path".toList with
  | some reason =>
    rw [hfirst] at h himage
    obtain ⟨hflag, hreason⟩ := Prod.mk.inj h
    rw [hflag, hreason]
    refine ⟨iff_of_true rfl ?_, rfl⟩
    rcases himage.mp rfl with hdir | hinterpreter
    · exact ⟨.writableImage, hdir⟩
    · exact ⟨.interpreterImage, hinterpreter⟩
  | none =>
  rw [hfirst] at h himage
  have hnoimage := not_or.mp (mt himage.mpr Bool.false_ne_true)
  dsimp only at h
  cases hsecond : e.serviceDll.bind fun dll =>
      classifyPath (toAsciiLowercase dll) "ServiceDll".toList with
  | some reason =>
    rw [hsecond] at h hdll
    obtain ⟨hflag, hreason⟩ := Prod.mk.inj h
    rw [hflag, hreason]
    exact ⟨iff_of_true rfl ⟨.serviceDll, hdll.mp rfl⟩, rfl⟩
  | none =>
  rw [hsecond] at h hdll
  have hnodll := mt hdll.mpr Bool.false_ne_true
  dsimp only at h
  split at h
  · rename_i hauto
    obtain ⟨hflag, hreason⟩ := Prod.mk.inj h
    rw [hflag, hreason]
    exact ⟨iff_of_true rfl ⟨.autoStart, hauto⟩, rfl⟩
  rename_i hauto
  split at h
  · rename_i haccount
    obtain ⟨hflag, hreason⟩ := Prod.mk.inj h
    rw [hflag, hreason]
    exact ⟨iff_of_true rfl ⟨.noAccount, haccount⟩, rfl⟩
  rename_i haccount
  have hcommand : (e.failureCommand.filter (· ≠ [])).isSome = true ↔
      Rule.failureCommand.Matches e := by
    rw [Rule.Matches]
    cases e.failureCommand with
    | none => simp
    | some command => simp [Option.filter]
  cases hlast : e.failureCommand.filter (· ≠ []) with
  | some command =>
    rw [hlast] at h hcommand
    obtain ⟨hflag, hreason⟩ := Prod.mk.inj h
    rw [hflag, hreason]
    exact ⟨iff_of_true rfl ⟨.failureCommand, hcommand.mp rfl⟩, rfl⟩
  | none =>
    rw [hlast] at h hcommand
    obtain ⟨hflag, hreason⟩ := Prod.mk.inj h
    rw [hflag, hreason]
    refine ⟨iff_of_false Bool.false_ne_true ?_, rfl⟩
    -- no rule is left, and each of them was refused above
    rintro ⟨rule, hrule⟩
    cases rule with
    | writableImage => exact hnoimage.1 hrule
    | interpreterImage => exact hnoimage.2 hrule
    | serviceDll => exact hnodll hrule
    | autoStart => exact hauto hrule
    | noAccount => exact haccount hrule
    | failureCommand => exact absurd (hcommand.mpr hrule) Bool.false_ne_true

/-! ## Reading -/

section Reading

variable {hive : Hive} {reg : Registry} {rel : Key → reg.Node → Prop}
  (shows_ : hive.Shows reg rel)

include shows_

/-- A text value is read as it is shown. -/
theorem stringValue_evals {k : Key} {a : reg.Node} (hk : rel k a) (name : Str) :
    Evals (fun _ => stringValue hive.reader k name) (.ok (reg.text a name)) := by
  have hrun : Evals (fun _ => stringValue hive.reader k name)
      (.ok ((reg.value a name).elim none ShownValue.text)) :=
    (shows_.value hk name).attempt (fun _ _ => rfl) (fun _ => rfl) fun v shown hv =>
      ⟨0, fun _ _ => hv.asString.toOption⟩
  unfold Registry.text
  cases hvalue : reg.value a name with
  | none => rwa [hvalue] at hrun
  | some v => rwa [hvalue] at hrun

/-- So is a number. -/
theorem numberValue_evals {k : Key} {a : reg.Node} (hk : rel k a) (name : Str) :
    Evals (fun _ => numberValue hive.reader k name) (.ok (reg.number a name)) := by
  have hrun : Evals (fun _ => numberValue hive.reader k name)
      (.ok ((reg.value a name).elim none ShownValue.number)) :=
    (shows_.value hk name).attempt (fun _ _ => rfl) (fun _ => rfl) fun v shown hv =>
      ⟨0, fun _ _ => hv.asU32.toOption⟩
  unfold Registry.number
  cases hvalue : reg.value a name with
  | none => rwa [hvalue] at hrun
  | some v => rwa [hvalue] at hrun

end Reading

/-! ## Services -/

section Services

variable {Timestamp : Type} (jiff : Jiff Timestamp) (reg : Registry)

/-- The number in `Select\Current`, one if there is none. -/
def activeOf : UInt32 := ((reg.openKey "Select".toList).bind (reg.number · "Current".toList)).getD 1

/-- The keys of the services. -/
def servicesOf : List reg.Node :=
  ((candidates (activeOf reg)).findSome? reg.openKey).elim [] reg.subkeyList

/-- The entry of a service, on what is shown. -/
def serviceOf (a : reg.Node) : ServiceEntry Timestamp :=
  let text (name : String) : Option Str := reg.text a name.toList
  let serviceDll := (reg.subkey a "Parameters".toList).bind (reg.text · "ServiceDll".toList)
  let classified := classifyService ((text "ImagePath").getD [])
    ((reg.number a "Start".toList).getD 3) ((text "Description").getD [])
    ((text "ObjectName").getD []) serviceDll (text "FailureCommand")
  { name := reg.name a
    displayName := (text "DisplayName").getD []
    imagePath := (text "ImagePath").getD []
    serviceDll := serviceDll
    failureCommand := text "FailureCommand"
    startType := (reg.number a "Start".toList).getD 3
    serviceType := (reg.number a "Type".toList).getD 0
    objectName := (text "ObjectName").getD []
    description := (text "Description").getD []
    isSuspicious := classified.1
    suspiciousReason := classified.2
    lastWritten := reg.lastWritten jiff a }

/-- The flag of a service is that of its own fields. -/
theorem serviceOf_classified (a : reg.Node) : (serviceOf jiff reg a).Classified := rfl

variable {reg} {hive : Hive} {rel : Key → reg.Node → Prop} (shows_ : hive.Shows reg rel)

include shows_

/-- The control set that is read. -/
theorem selectActive_evals :
    Evals (fun n => selectActive hive n) (.ok (activeOf reg)) := by
  have hrun : Evals (fun n => selectActive hive n)
      (.ok ((reg.openKey "Select".toList).elim 1 fun a =>
        (reg.number a "Current".toList).getD 1)) :=
    (shows_.openKey "Select".toList).attempt (fun _ _ => rfl) (fun _ => rfl) fun k a hk =>
      (numberValue_evals shows_ hk _).bind (.const _)
  unfold activeOf
  cases hopen : reg.openKey "Select".toList with
  | none => rwa [hopen] at hrun
  | some a => rwa [hopen] at hrun

/-- The entry of one service, with its parameters. -/
theorem serviceEntry_evals {k : Key} {a : reg.Node} (hk : rel k a) :
    Evals (fun n => serviceEntry jiff hive.reader n k) (.ok (serviceOf jiff reg a)) := by
  simp only [serviceEntry, shows_.name hk, shows_.lastWritten jiff hk]
  refine (stringValue_evals shows_ hk _).bind ((stringValue_evals shows_ hk _).bind
    ((stringValue_evals shows_ hk _).bind ((numberValue_evals shows_ hk _).bind
      ((numberValue_evals shows_ hk _).bind ((stringValue_evals shows_ hk _).bind ?_)))))
  have hcommand := stringValue_evals shows_ hk "FailureCommand".toList
  obtain ⟨x, hx, hfinds⟩ := shows_.subkey hk "Parameters".toList
  unfold serviceOf
  generalize reg.subkey a "Parameters".toList = o at hfinds
  cases hfinds with
  | found hp =>
    exact Evals.bind hx.attempt ((stringValue_evals shows_ hp _).bind (hcommand.bind (.const _)))
  | missing => exact Evals.bind hx.attempt (hcommand.bind (.const _))
  | error e => exact Evals.bind hx.attempt (hcommand.bind (.const _))

/-- The entries of all services of the selected control set, in order. -/
theorem parse_evals : Evals (fun n => parse jiff hive n)
    (.ok ((servicesOf reg).map (serviceOf jiff reg))) := by
  refine (selectActive_evals shows_).bind ?_
  obtain ⟨found, hopen, hrel⟩ := shows_.openFirst (candidates (activeOf reg))
  refine Evals.bind hopen ?_
  unfold servicesOf
  generalize (candidates (activeOf reg)).findSome? reg.openKey = o at hrel
  cases hrel with
  | none => exact .const _
  | @some k a hk =>
    obtain ⟨x, hx, hkeeps⟩ := shows_.subkeys hk
    show Evals (fun n => parseServices jiff hive.reader n k)
      (.ok ((reg.subkeyList a).map (serviceOf jiff reg)))
    unfold Registry.subkeyList
    generalize reg.subkeys a = o at hkeeps
    cases hkeeps with
    | error e => exact Evals.bind hx.attempt (.const _)
    | @value kids nodes hkids =>
      refine Evals.bind hx.attempt ?_
      exact Evals.push hkids (fun kid b hb => serviceEntry_evals jiff shows_ hb) []

/-- **Each service has its entry**, in the order of the services of the active control set, and is
    flagged exactly where a documented rule holds of its own fields; a flagged one has a reason. -/
theorem parse_services : ∃ services,
    Evals (fun n => parse jiff hive n) (.ok services) ∧
      services = (servicesOf reg).map (serviceOf jiff reg) ∧
      ∀ e ∈ services, (e.isSuspicious = true ↔ ∃ rule : Rule, rule.Matches e) ∧
        e.suspiciousReason.isSome = e.isSuspicious := by
  refine ⟨_, parse_evals jiff shows_, rfl, fun e he => ?_⟩
  obtain ⟨a, _, rfl⟩ := List.mem_map.mp he
  exact classified_iff (serviceOf_classified jiff reg a)

end Services

/-- A service without an account in the second control set, which is the active one. -/
def serviceBuilder : TestHiveBuilder where
  keys := ["ControlSet001\\Services\\old".toList]
  values := [⟨"Select".toList, "Current".toList, 4, u32Bytes 2⟩,
    ⟨"ControlSet002\\Services\\new".toList, "ImagePath".toList, 1, utf16leBytes "a.exe".toList⟩]
  keyFiletime := 0

set_option maxRecDepth 20000 in
/-- The sample can be written. -/
theorem serviceBuilder_valid : serviceBuilder.Valid where
  components := by decide
  valueNames := by decide
  children p := by
    have hlen : (serviceBuilder.childNames p).length ≤ serviceBuilder.closure.length :=
      List.length_filterMap_le _ _
    exact hlen.trans (by decide)
  data := by decide

set_option maxRecDepth 20000 in
/-- One service of the sample, with its flag. -/
theorem parse_services_new : ∃ image hive e,
    (serviceBuilder.build 5 : Exec HiveError Bytes) = .ok image ∧ Hive.fromBytes image = .ok hive ∧
      Evals (fun n => parse (⟨some, fun _ => none⟩ : Jiff Int) hive n) (.ok [e]) ∧
      e.name = "new".toList ∧ e.isSuspicious = true := by
  obtain ⟨image, hive, hbuild, hopen, hshows⟩ :=
    build_shows serviceBuilder_valid (n := 5) (by decide) (by decide)
  obtain ⟨services, hrun, hservices, hflags⟩ := parse_services ⟨some, fun _ => none⟩ hshows
  have hnodes : servicesOf serviceBuilder.registry =
      [serviceBuilder.nodeAt "ControlSet002\\Services\\new".toList] := by decide
  rw [hnodes] at hservices
  subst hservices
  refine ⟨image, hive, _, hbuild, hopen, hrun, by decide, ?_⟩
  refine (hflags _ List.mem_cons_self).1.mpr ⟨.noAccount, ?_⟩
  show _ = []
  decide

end SvcDiff

end Winreg
