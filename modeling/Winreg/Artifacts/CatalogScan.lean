/-
  CATALOG SCANS: the artifacts that a catalog finds in a hive, or in the hives of some users.

  `scan` takes the descriptors for the type of one machine hive; `scanUsers` takes a list of users'
  hives, and both the descriptors for the type of each hive and those whose path goes through the
  users' root.  Each descriptor is expanded below the root of the hive, and every value at a key
  that matches becomes a hit.  All hits of a scan pile up in one list; after each user's hive a pass
  over that list fills in the user.
-/
import Winreg.Artifacts.Catalog

namespace Winreg

open Rust

namespace Catalog

open PathExpansion

/-! ## Hits -/

/-- Identity of the user a hit is attributed to. -/
structure UserIdentity where
  profile : Option Str
  sid : Option Str
deriving DecidableEq, Repr

/-- A single decoded artifact value. -/
structure CatalogHit (Timestamp : Type) where
  catalogId : Str
  artifactName : Str
  meaning : Str
  keyPath : Str
  valueName : Option Str
  valueData : Str
  mitreTechniques : List Str
  needsSpecializedDecoder : Bool
  user : Option UserIdentity
  bindings : List Binding
  lastWritten : Option Timestamp
deriving DecidableEq, Repr

variable {Timestamp : Type}

/-- Build a hit, rendering the value per the descriptor's decoder. -/
def makeHit (jiff : Jiff Timestamp) (r : CellReader) (descriptor : ArtifactDescriptor)
    (keyPath : Str) (valueName : Option Str) (val : Value) (bindings : List Binding)
    (lastWritten : Option Timestamp) : Exec HiveError (CatalogHit Timestamp) := do
  let (valueData, specialized) ← renderValue jiff r descriptor.decoder val
  .ok {
    catalogId := descriptor.id
    artifactName := descriptor.name
    meaning := descriptor.meaning
    keyPath := keyPath
    valueName := valueName
    valueData := valueData
    mitreTechniques := descriptor.mitreTechniques
    needsSpecializedDecoder := specialized
    user := none
    bindings := bindings
    lastWritten := lastWritten }

/-- Emit the descriptor's value, or all values, of one key. -/
def emitKey (jiff : Jiff Timestamp) (r : CellReader) (descriptor : ArtifactDescriptor)
    (keyPath : Str) (key : Key) (bindings : List Binding) (hits : List (CatalogHit Timestamp)) :
    Exec HiveError (List (CatalogHit Timestamp)) := do
  let lastWritten := key.lastWritten jiff
  match descriptor.valueName with
  | some vname =>
    match ← (key.value r vname).attempt with
    | .ok (some val) => do
      let hit ← makeHit jiff r descriptor keyPath (some vname) val bindings lastWritten
      .ok (hits ++ [hit])
    | _ => .ok hits
  | none =>
    match ← (key.values r).attempt with
    | .error _ => .ok hits
    | .ok values =>
      values.foldlM (fun hits val => do
        let hit ← makeHit jiff r descriptor keyPath (some val.name) val bindings lastWritten
        .ok (hits ++ [hit])) hits

/-- Resolve a single descriptor below a root. -/
def resolveDescriptor (jiff : Jiff Timestamp) (r : CellReader) (n : Nat) (root : Key)
    (descriptor : ArtifactDescriptor) (rawPath : Str) (stripHiveRoot : Bool)
    (controlSets : Option ControlSetResolver) (prefixBindings : List Binding)
    (hits : List (CatalogHit Timestamp)) : Exec HiveError (List (CatalogHit Timestamp)) := do
  match ← templateSegments rawPath stripHiveRoot with
  | none => .ok hits
  | some segments =>
    expand r n root segments controlSets (fun hits bindings path key =>
      emitKey jiff r descriptor path key (prefixBindings ++ bindings) hits) hits

/-! ## Machine hives -/

/-- Scan an open hive against the catalog. -/
def scan (jiff : Jiff Timestamp) (catalog : List ArtifactDescriptor) (n : Nat) (hive : Hive) :
    Exec HiveError (List (CatalogHit Timestamp)) := do
  match hiveTargetFor (← hive.detectHiveType n) with
  | none => .ok []
  | some target =>
    match ← hive.rootKey.attempt with
    | .error _ => .ok []
    | .ok root => do
      let stripHiveRoot := target = .hklmSoftware || target = .hklmSystem
      let controlSets ←
        if target = .hklmSystem then do
          let sets ← resolveControlSets hive.reader n root
          .ok (some sets)
        else .ok none
      catalog.foldlM (fun hits descriptor =>
        if !isRegistry descriptor.artifactType then .ok hits
        else if descriptor.hive ≠ some target then .ok hits
        else
          resolveDescriptor jiff hive.reader n root descriptor descriptor.keyPath stripHiveRoot
            controlSets [] hits) []

/-! ## The hives of users -/

/-- A user's registry hive paired with the identity it belongs to. -/
structure UserHive where
  identity : UserIdentity
  hive : Hive

/-- The `User`-domain binding for an identity. -/
def userBindingFor (identity : UserIdentity) : List Binding :=
  match identity.sid.or identity.profile with
  | some v => [⟨.user, v⟩]
  | none => []

/-- The path of a descriptor to resolve against a user's hive with some target, if any. -/
def rawPath (target : Option HiveTarget) (descriptor : ArtifactDescriptor) :
    Exec HiveError (Option Str) :=
  if descriptor.hive = target then .ok (some descriptor.keyPath)
  else if descriptor.hive.isNone || descriptor.hive = some .none then
    stripUserPlaceholderPrefix descriptor.keyPath
  else .ok none

/-- The loop over the catalog: `resolve` takes each descriptor with its path. -/
def resolvePaths {σ : Type} (catalog : List ArtifactDescriptor) (target : Option HiveTarget)
    (resolve : ArtifactDescriptor → Str → σ → Exec HiveError σ) (s : σ) : Exec HiveError σ :=
  catalog.foldlM (fun s descriptor =>
    if !isRegistry descriptor.artifactType then .ok s
    else do
      match ← rawPath target descriptor with
      | some path => resolve descriptor path s
      | none => .ok s) s

/-- Fill in the user of a hit that has a user binding and no user. -/
def backfill (identity : UserIdentity) (hit : CatalogHit Timestamp) : CatalogHit Timestamp :=
  if hit.user.isNone && hit.bindings.any (fun b => b.kind = .user) then
    { hit with user := some identity }
  else hit

/-- The hive of one user. -/
def scanUser (jiff : Jiff Timestamp) (catalog : List ArtifactDescriptor) (n : Nat)
    (hits : List (CatalogHit Timestamp)) (uh : UserHive) :
    Exec HiveError (List (CatalogHit Timestamp)) := do
  let target := hiveTargetFor (← uh.hive.detectHiveType n)
  match ← uh.hive.rootKey.attempt with
  | .error _ => .ok hits
  | .ok root => do
    let userBinding := userBindingFor uh.identity
    let hits ← resolvePaths catalog target (fun descriptor path hits =>
      resolveDescriptor jiff uh.hive.reader n root descriptor path false none userBinding hits)
      hits
    .ok (hits.map (backfill uh.identity))

/-- Scan a set of users' hives, attributing every hit to the user it came from. -/
def scanUsers (jiff : Jiff Timestamp) (catalog : List ArtifactDescriptor) (n : Nat)
    (userHives : List UserHive) : Exec HiveError (List (CatalogHit Timestamp)) :=
  userHives.foldlM (scanUser jiff catalog n) []

end Catalog

end Winreg
