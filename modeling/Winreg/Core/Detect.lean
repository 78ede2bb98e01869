/-
  HIVE TYPES AND TIMES: what a hive tells about itself.

  `detectHiveType` looks at the names of the keys below the root; a hive whose root does not open
  or cannot be listed is `unknown`.  The time library is another package: it is a parameter, the
  structure `Jiff`.
-/
import Winreg.Core.Key
import Mathlib.Data.List.Infix

namespace Winreg

open Rust

/-! ## Times -/

/-- Number of 100 ns intervals between 1601-01-01 and 1970-01-01. -/
def filetimeEpochDiff : Nat := 116444736000000000

/-- A FILETIME as Unix nanoseconds: `none` when unset or before 1970. -/
def filetimeToNanoseconds (filetime : UInt64) : Option Int :=
  if filetime = 0 ∨ filetime.toNat < filetimeEpochDiff then none
  else some ((filetime.toNat - filetimeEpochDiff : Nat) * 100)

/-- The functions of the time library. -/
structure Jiff (Timestamp : Type) where
  /-- `none` outside the range of a timestamp. -/
  fromNanosecond : Int → Option Timestamp
  /-- The format `%Y-%m-%dT%H:%M:%SZ`. -/
  format : Timestamp → Option Str

variable {Timestamp : Type}

/-- A time stamp as a time, where the library has one for it. -/
def filetimeToDatetime (jiff : Jiff Timestamp) (filetime : UInt64) : Option Timestamp :=
  (filetimeToNanoseconds filetime).bind jiff.fromNanosecond

/-- The time when a key was written last. -/
def Key.lastWritten (jiff : Jiff Timestamp) (k : Key) : Option Timestamp :=
  filetimeToDatetime jiff k.lastWrittenRaw

/-! ## Types -/

/-- Known hive types. -/
inductive HiveType where
  | system
  | software
  | ntUser
  | usrClass
  | sam
  | security
  | amcache
  | bcd
  | default
  | components
  | unknown
deriving DecidableEq, Repr

/-- A `SAM` key with a `Domains` key below it. -/
def hasSamDomains (r : CellReader) (n : Nat) (root : Key) : Exec HiveError Bool := do
  match ← (root.subkey r n "SAM".toList).attempt with
  | .ok (some sam) =>
    match ← (sam.subkey r n "Domains".toList).attempt with
    | .ok (some _) => .ok true
    | _ => .ok false
  | _ => .ok false

/-- The type that the names below the root suggest; the keys that typical hives have are tried one
    type after the other. -/
def hiveTypeOf (root : Key) (names : List Str) (samDomains : Bool) : HiveType :=
  let has (name : String) : Bool := names.contains name.toList
  if has "SELECT" && has "CONTROLSET001" then .system
  else if samDomains then .sam
  else if has "POLICY" then .security
  else if has "ROOT" || has "INVENTORYAPPLICATIONFILE" then .amcache
  else if has "DESCRIPTION" && has "OBJECTS" then .bcd
  else if has "MICROSOFT" && has "CLASSES" then .software
  else if has "SOFTWARE" && (has "APPEVENTS" || has "CONSOLE" || has "ENVIRONMENT") then .ntUser
  else if has "APPEVENTS" && !has "SOFTWARE" then .default
  else if "CLASSES".toList <:+: toAsciiUppercase root.name then .usrClass
  else .unknown

/-- Auto-detect the type of a hive from the keys below its root. -/
def Hive.detectHiveType (hive : Hive) (n : Nat) : Exec HiveError HiveType := do
  match ← hive.rootKey.attempt with
  | .error _ => .ok .unknown
  | .ok root =>
    match ← (root.subkeys hive.reader n).attempt with
    | .error _ => .ok .unknown
    | .ok subkeys => do
      let names := subkeys.map fun k => toAsciiUppercase k.name
      -- the two keys of a SAM hive are only looked up when nothing before them matched
      let isSystem := names.contains "SELECT".toList && names.contains "CONTROLSET001".toList
      let samDomains ←
        if !isSystem && names.contains "SAM".toList then hasSamDomains hive.reader n root
        else .ok false
      .ok (hiveTypeOf root names samDomains)

end Winreg
