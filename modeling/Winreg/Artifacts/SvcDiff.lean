/-
  SERVICES: the services of a SYSTEM hive, and which of them look suspicious.

  The services are those of the control set that `Select\Current` names; where that set has none,
  those of `ControlSet001`, and at last those of `CurrentControlSet`, which only a live registry
  has.
-/
import Winreg.Artifacts.PathExpansion
import Winreg.Core.Detect

namespace Winreg

open Rust

namespace SvcDiff

open PathExpansion

/-- A single service entry. -/
structure ServiceEntry (Timestamp : Type) where
  name : Str
  displayName : Str
  imagePath : Str
  serviceDll : Option Str
  failureCommand : Option Str
  startType : UInt32
  serviceType : UInt32
  objectName : Str
  description : Str
  isSuspicious : Bool
  suspiciousReason : Option Str
  lastWritten : Option Timestamp
deriving DecidableEq, Repr

/-! ## Classification -/

/-- User-writable directories. -/
def userWritableDirs : List Str :=
  ["\\temp\\".toList, "\\appdata\\".toList, "\\users\\public\\".toList, "\\programdata\\".toList]

/-- Interpreters abused for persistence. -/
def interpreters : List Str :=
  ["cmd.exe".toList, "powershell.exe".toList, "wscript.exe".toList, "mshta.exe".toList]

/-- The reason why a path is suspicious. -/
def classifyPath (pathLower label : Str) : Option Str :=
  match userWritableDirs.find? (· <:+: pathLower) with
  | some suspectDir => some (label ++ " is in user-writable directory: ".toList ++ suspectDir)
  | none =>
    match interpreters.find? (· <:+: pathLower) with
    | some interpreter => some (label ++ " contains interpreter: ".toList ++ interpreter)
    | none => none

/-- Classify a service entry. -/
def classifyService (imagePath : Str) (startType : UInt32) (description objectName : Str)
    (serviceDll failureCommand : Option Str) : Bool × Option Str :=
  let lower := toAsciiLowercase imagePath
  match classifyPath lower "image path".toList with
  | some reason => (true, some reason)
  | none =>
    match serviceDll.bind fun dll => classifyPath (toAsciiLowercase dll) "ServiceDll".toList with
    | some reason => (true, some reason)
    | none =>
      if startType = 2 ∧ description = [] ∧ ¬ "\\system32\\".toList <:+: lower ∧
          ¬ "\\syswow64\\".toList <:+: lower then
        (true, some ("auto-start service has no description and image path is not under " ++
          "\\system32\\ or \\syswow64\\").toList)
      else if objectName = [] then
        (true, some "service has no configured account (ObjectName is empty)".toList)
      else
        match failureCommand.filter (· ≠ []) with
        | some fc => (true, some ("service has a FailureCommand recovery action: ".toList ++ fc))
        | none => (false, none)

/-! ## The hive -/

/-- A value as a string, if it is there and can be read. -/
def stringValue (r : CellReader) (key : Key) (name : Str) : Exec HiveError (Option Str) := do
  match ← (key.value r name).attempt with
  | .ok (some v) => do
    let s ← (v.asString r).attempt
    .ok s.toOption
  | _ => .ok none

/-- A value as a number, if it is there and can be read. -/
def numberValue (r : CellReader) (key : Key) (name : Str) : Exec HiveError (Option UInt32) := do
  match ← (key.value r name).attempt with
  | .ok (some v) => do
    let number ← (v.asU32 r).attempt
    .ok number.toOption
  | _ => .ok none

variable {Timestamp : Type} (jiff : Jiff Timestamp)

/-- The entry of one service. -/
def serviceEntry (r : CellReader) (n : Nat) (svcKey : Key) :
    Exec HiveError (ServiceEntry Timestamp) := do
  let imagePath := (← stringValue r svcKey "ImagePath".toList).getD []
  let displayName := (← stringValue r svcKey "DisplayName".toList).getD []
  let description := (← stringValue r svcKey "Description".toList).getD []
  let startType := (← numberValue r svcKey "Start".toList).getD 3
  let serviceType := (← numberValue r svcKey "Type".toList).getD 0
  let objectName := (← stringValue r svcKey "ObjectName".toList).getD []
  let parameters ← (svcKey.subkey r n "Parameters".toList).attempt
  let serviceDll ← match parameters with
    | .ok (some p) => stringValue r p "ServiceDll".toList
    | _ => .ok none
  let failureCommand ← stringValue r svcKey "FailureCommand".toList
  let (isSuspicious, suspiciousReason) :=
    classifyService imagePath startType description objectName serviceDll failureCommand
  .ok {
    name := svcKey.name
    displayName := displayName
    imagePath := imagePath
    serviceDll := serviceDll
    failureCommand := failureCommand
    startType := startType
    serviceType := serviceType
    objectName := objectName
    description := description
    isSuspicious := isSuspicious
    suspiciousReason := suspiciousReason
    lastWritten := svcKey.lastWritten jiff }

/-- The number in `Select\Current`, one if there is none. -/
def selectActive (hive : Hive) (n : Nat) : Exec HiveError UInt32 := do
  match ← (hive.openKey n "Select".toList).attempt with
  | .ok (some sel) => do
    let number ← numberValue hive.reader sel "Current".toList
    .ok (number.getD 1)
  | _ => .ok 1

/-- Where the services may be. -/
def candidates (active : UInt32) : List Str :=
  [controlSetName active.toNat ++ "\\Services".toList, "ControlSet001\\Services".toList,
   "CurrentControlSet\\Services".toList]

/-- The entries of the services below one key. -/
def parseServices (r : CellReader) (n : Nat) (servicesKey : Key) :
    Exec HiveError (List (ServiceEntry Timestamp)) := do
  match ← (servicesKey.subkeys r n).attempt with
  | .error _ => .ok []
  | .ok subkeys => subkeys.foldlM (fun entries svcKey => do
      let entry ← serviceEntry jiff r n svcKey
      .ok (entries ++ [entry])) []

/-- Extract all service entries of a SYSTEM hive. -/
def parse (hive : Hive) (n : Nat) : Exec HiveError (List (ServiceEntry Timestamp)) := do
  let active ← selectActive hive n
  match ← hive.openFirst n (candidates active) with
  | none => .ok []
  | some servicesKey => parseServices jiff hive.reader n servicesKey

end SvcDiff

end Winreg
