/-
  PATH EXPANSION: a catalog path with variable segments against the key tree.

  A template is a list of segments.  A literal descends into one child, a `CurrentControlSet`
  segment into the children with the names of the active control sets, a glob segment into every
  child that it matches; `**` stands for any number of levels.  Each key that matches the whole
  template is handed to the callback `emit` with its path and with the choices made at the variable
  segments.

  The callback is a parameter: it takes the state that it has built up so far to the next one.  The
  recursion of `walk` is bounded by the depth cap; only listing subkeys needs a budget.
-/
import Winreg.Artifacts.Glob
import Winreg.Core.Key
import Mathlib.Data.List.Infix

namespace Winreg

open Rust

namespace PathExpansion

/-! ## Templates -/

/-- The domain a variable path segment ranges over. -/
inductive Wildcard where
  | subkey
  | controlSet
  | user
deriving DecidableEq, Repr

/-- One variable resolution. -/
structure Binding where
  kind : Wildcard
  value : Str
deriving DecidableEq, Repr

/-- One component of an expansion template. -/
inductive Segment where
  | literal (name : Str)
  | var (domain : Wildcard) (pattern : Str)
deriving DecidableEq, Repr

/-- Maximum depth a walk will visit. -/
def maxGlobDepth : Nat := 64

/-- Maximum number of keys a single template may expand to. -/
def maxGlobMatches : Nat := 4096

/-- The names that a `CurrentControlSet` segment expands to. -/
structure ControlSetResolver where
  sets : List Str
deriving DecidableEq, Repr

/-! ## The active control set -/

/-- Decimal digits, padded with zeros to a width of three: `{n:03}`. -/
def pad3 (n : Nat) : Str :=
  let digits := Nat.toDigits 10 n
  List.replicate (3 - digits.length) '0' ++ digits

/-- `format!("ControlSet{n:03}")`. -/
def controlSetName (n : Nat) : Str := "ControlSet".toList ++ pad3 n

/-- The number in `Select\Current`; none if it is absent, unreadable or zero. -/
def currentControlSetNumber (r : CellReader) (n : Nat) (root : Key) :
    Exec HiveError (Option UInt32) := do
  match ← (root.subkey r n "Select".toList).attempt with
  | .ok (some select) =>
    match ← (select.value r "Current".toList).attempt with
    | .ok (some current) =>
      match ← (current.asU32 r).attempt with
      | .ok number => .ok (if number = 0 then none else some number)
      | .error _ => .ok none
    | _ => .ok none
  | _ => .ok none

/-- Resolve the `CurrentControlSet` alias. -/
def resolveControlSets (r : CellReader) (n : Nat) (root : Key) :
    Exec HiveError ControlSetResolver := do
  let number := (← currentControlSetNumber r n root).getD 1
  .ok ⟨[controlSetName number.toNat]⟩

/-! ## The walk -/

/-- Join a hive-relative path with a child name. -/
def joinPath (path name : Str) : Str := if path = [] then name else path ++ '\\' :: name

/-- Match a path component against a pattern, ASCII case ignored. -/
def segmentMatches (pattern name : Str) : Exec HiveError Bool :=
  globMatch (toAsciiLowercase pattern) (toAsciiLowercase name)

/-- The callback: its state so far, the bindings, the path and the key. -/
abbrev Emit (σ : Type) := σ → List Binding → Str → Key → Exec HiveError σ

/-- What a walk changes: the counter of matches, the stack of bindings, the state of `emit`. -/
structure WalkState (σ : Type) where
  matched : Nat
  bindings : List Binding
  out : σ

variable {σ : Type}

/-- `bindings.push(..)`, the call, `bindings.pop()`. -/
def withBinding (binding : Binding) (call : WalkState σ → Exec HiveError (WalkState σ))
    (s : WalkState σ) : Exec HiveError (WalkState σ) := do
  let s ← call { s with bindings := s.bindings ++ [binding] }
  .ok { s with bindings := s.bindings.dropLast }

/-- Recursive template walk shared by every domain. -/
def walk (r : CellReader) (n : Nat) (controlset : Option ControlSetResolver) (emit : Emit σ)
    (key : Key) (segments : List Segment) (path : Str) (depth : Nat) (s : WalkState σ) :
    Exec HiveError (WalkState σ) :=
  if _h : s.matched ≥ maxGlobMatches ∨ depth > maxGlobDepth then .ok s
  else
    match segments with
    | [] => do
      -- all segments consumed: the key is itself the match
      let out ← emit s.out s.bindings path key
      .ok { s with matched := s.matched + 1, out := out }
    | .literal name :: rest => do
      match ← (key.subkeys r n).attempt with
      | .error _ => .ok s
      | .ok children =>
        match children.find? fun child => eqIgnoreAsciiCase child.name name with
        | some child =>
          walk r n controlset emit child rest (joinPath path child.name) (depth + 1) s
        | none => .ok s
    | .var .controlSet _ :: rest => do
      let fallback : ControlSetResolver := ⟨["ControlSet001".toList]⟩
      let resolver := controlset.getD fallback
      match ← (key.subkeys r n).attempt with
      | .error _ => .ok s
      | .ok children =>
        resolver.sets.foldlM (fun s setName =>
          if s.matched ≥ maxGlobMatches then .ok s
          else
            match children.find? fun child => eqIgnoreAsciiCase child.name setName with
            | some child =>
              withBinding ⟨.controlSet, child.name⟩ (fun s =>
                walk r n controlset emit child rest (joinPath path child.name) (depth + 1) s) s
            | none => .ok s) s
    | .var .subkey pattern :: rest =>
      if ['*', '*'] <:+: pattern then do
        -- `**` matches zero levels, and any number of levels
        let s ← walk r n controlset emit key rest path depth s
        match ← (key.subkeys r n).attempt with
        | .error _ => .ok s
        | .ok children =>
          children.foldlM (fun s child =>
            if s.matched ≥ maxGlobMatches then .ok s
            else
              withBinding ⟨.subkey, child.name⟩ (fun s =>
                walk r n controlset emit child (.var .subkey pattern :: rest)
                  (joinPath path child.name) (depth + 1) s) s) s
      else do
        match ← (key.subkeys r n).attempt with
        | .error _ => .ok s
        | .ok children =>
          children.foldlM (fun s child =>
            if s.matched ≥ maxGlobMatches then .ok s
            else do
              if ← segmentMatches pattern child.name then
                withBinding ⟨.subkey, child.name⟩ (fun s =>
                  walk r n controlset emit child rest (joinPath path child.name) (depth + 1) s) s
              else .ok s) s
    -- the user is bound by the scan over the users' hives
    | .var .user _ :: _ => .ok s
termination_by (maxGlobDepth + 1 - depth, segments.length)

/-- Expand a template against the key tree below a root. -/
def expand (r : CellReader) (n : Nat) (root : Key) (segments : List Segment)
    (controlset : Option ControlSetResolver) (emit : Emit σ) (out : σ) : Exec HiveError σ := do
  let s ← walk r n controlset emit root segments [] 0 ⟨0, [], out⟩
  .ok s.out

end PathExpansion

end Winreg
