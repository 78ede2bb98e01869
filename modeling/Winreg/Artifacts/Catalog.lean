/-
  THE CATALOG: descriptors of artifacts, their key paths, their decoders.

  The catalog itself is another package: a list of descriptors, with the fields and the variants
  that the scanner names.  What the scanner makes of them is here: how a catalog path becomes a
  template, and how a value is rendered.

  Prefixes are cut off by byte positions: where a position lies inside a character the cut aborts.
-/
import Winreg.Artifacts.PathExpansion
import Winreg.Core.Detect

namespace Winreg

open Rust

namespace Catalog

open PathExpansion

/-! ## Descriptors -/

/-- The hive that a descriptor is for. -/
inductive HiveTarget where
  | hklmSoftware
  | hklmSystem
  | ntUser
  | usrClass
  | hklmSam
  | hklmSecurity
  | amcache
  | none
  /-- Any other variant. -/
  | other (tag : Nat)
deriving DecidableEq, Repr

/-- What kind of artifact a descriptor is about. -/
inductive ArtifactLocation where
  | registryKey
  | registryValue
  /-- Any other variant. -/
  | other (tag : Nat)
deriving DecidableEq, Repr

/-- How the values of an artifact are decoded. -/
inductive Decoder where
  | identity
  | utf16Le
  | dwordLe
  | multiSz
  | filetimeAt (offset : Nat)
  | rot13Name
  | rot13NameWithBinaryValue
  | binaryRecord
  | mruListEx
  | eseDatabase
  | pipeDelimited
  /-- Any other variant. -/
  | other (tag : Nat)
deriving DecidableEq, Repr

/-- One entry of the catalog. -/
structure ArtifactDescriptor where
  id : Str
  name : Str
  artifactType : ArtifactLocation
  hive : Option HiveTarget
  keyPath : Str
  valueName : Option Str
  decoder : Decoder
  meaning : Str
  mitreTechniques : List Str
deriving DecidableEq, Repr

/-- Map a detected hive type to a hive target. -/
def hiveTargetFor : HiveType → Option HiveTarget
  | .software => some .hklmSoftware
  | .system => some .hklmSystem
  | .ntUser => some .ntUser
  | .usrClass => some .usrClass
  | .sam => some .hklmSam
  | .security => some .hklmSecurity
  | .amcache => some .amcache
  | _ => none

/-- Only keys and values of the registry are looked for. -/
def isRegistry : ArtifactLocation → Bool
  | .registryKey => true
  | .registryValue => true
  | .other _ => false

/-! ## Paths -/

/-- Case-insensitive prefix strip. -/
def stripPrefixCi (s root : Str) : Exec HiveError (Option Str) :=
  if utf8Len s ≥ utf8Len root then
    match splitAtByte s (utf8Len root) with
    | none => .panic
    | some (head, tail) => .ok (if eqIgnoreAsciiCase head root then some tail else none)
  else .ok none

/-- Strip each of some prefixes in turn. -/
def stripEach (roots : List Str) (path : Str) : Exec HiveError Str :=
  roots.foldlM (fun path root => do
    match ← stripPrefixCi path root with
    | some stripped => .ok stripped
    | none => .ok path) path

/-- `raw.replace("\\\\", "\\")`. -/
def collapseBackslashes : Str → Str
  | '\\' :: '\\' :: rest => '\\' :: collapseBackslashes rest
  | c :: rest => c :: collapseBackslashes rest
  | [] => []

/-- The first segment looks like an `HKEY_*` root that survived prefix stripping. -/
def looksLikeHiveRoot (path : Str) : Bool :=
  let seg := path.takeWhile (· ≠ '\\')
  eqIgnoreAsciiCase seg "HKEY_USERS".toList || "HKEY_".toList.isPrefixOf seg

/-- The names of hive roots that a path can start with, in the order in which they are stripped. -/
def hiveRoots : List Str :=
  ["HKEY_LOCAL_MACHINE\\".toList, "HKEY_CURRENT_USER\\".toList, "HKEY_USERS\\".toList,
   "HKLM\\".toList, "HKCU\\".toList, "HKU\\".toList]

/-- The names of hives that are stripped after them. -/
def hiveNames : List Str := ["SOFTWARE\\".toList, "SYSTEM\\".toList]

/-- Apply the normalizations of hive prefixes and doubled backslashes. -/
def normalizePathPrefixes (raw : Str) (stripHiveRoot : Bool) : Exec HiveError (Option Str) := do
  let path ← stripEach hiveRoots (collapseBackslashes raw)
  if "HK".toList.isPrefixOf path && path.contains '\\' && looksLikeHiveRoot path then .ok none
  else do
    -- only where the hive name is redundant, never for user hives
    let path ← if stripHiveRoot then stripEach hiveNames path else .ok path
    .ok (if path = [] then none else some path)

/-- Classify one path component. -/
def parseSegment (seg : Str) : Segment :=
  if eqIgnoreAsciiCase seg "CurrentControlSet".toList then .var .controlSet seg
  else if seg.contains '*' then .var .subkey seg
  else .literal seg

/-- Normalize a catalog key path into a template. -/
def templateSegments (raw : Str) (stripHiveRoot : Bool) :
    Exec HiveError (Option (List Segment)) :=
  if raw.contains '%' || raw.contains '/' then .ok none
  else do
    match ← normalizePathPrefixes raw stripHiveRoot with
    | none => .ok none
    | some normalized =>
      let segments := (Key.pathParts normalized).map parseSegment
      .ok (if segments = [] then none else some segments)

/-- Strip the root of all users. -/
def stripUsersRoot (raw : Str) : Exec HiveError (Option Str) := do
  match ← stripPrefixCi raw "HKEY_USERS\\".toList with
  | some rest => .ok (some rest)
  | none => stripPrefixCi raw "HKU\\".toList

/-- Strip `HKEY_USERS\<sid>\` or `HKU\<sid>\` from a descriptor path. -/
def stripUserPlaceholderPrefix (raw : Str) : Exec HiveError (Option Str) := do
  let rest ← stripUsersRoot raw
  match rest.bind (splitOnce '\\') with
  | some (_, remainder) => .ok (if remainder = [] then none else some remainder)
  | none => .ok none

/-! ## Stripping prefixes -/

/-- A prefix is stripped where it matches, ASCII case ignored. -/
theorem stripPrefixCi_eq_some_iff {s root tail : Str} :
    stripPrefixCi s root = .ok (some tail) ↔
      ∃ head, s = head ++ tail ∧ eqIgnoreAsciiCase head root := by
  unfold stripPrefixCi
  constructor
  · intro h
    split at h
    · split at h
      · cases h
      · rename_i head tail' hcut
        split at h
        · rename_i heq
          cases h
          exact ⟨head, (splitAtByte_eq_some_iff.mp hcut).1, heq⟩
        · cases h
    · cases h
  · rintro ⟨head, rfl, heq⟩
    have hlen := utf8Len_eq_of_eqIgnoreAsciiCase heq
    rw [if_pos (by rw [utf8Len_append]; omega), splitAtByte_eq_some_iff.mpr ⟨rfl, hlen⟩]
    dsimp only
    rw [if_pos heq]

/-- Stripping aborts where the end of the prefix would be inside a character. -/
theorem stripPrefixCi_eq_panic_iff {s root : Str} :
    stripPrefixCi s root = .panic ↔ InsideChar s (utf8Len root) := by
  rw [insideChar_iff, stripPrefixCi]
  constructor
  · intro h
    split at h
    · rename_i hlen
      split at h
      · rename_i hcut
        exact ⟨hlen, splitAtByte_eq_none_iff.mp hcut⟩
      · cases h
    · cases h
  · rintro ⟨hlen, hcut⟩
    rw [if_pos hlen, splitAtByte_eq_none_iff.mpr hcut]

/-- Stripping panics where the cut is inside a character, and returns otherwise. -/
theorem stripPrefixCi_cases (s root : Str) :
    stripPrefixCi s root = .panic ∨ ∃ o, stripPrefixCi s root = .ok o := by
  unfold stripPrefixCi
  split
  · split
    · exact Or.inl rfl
    · exact Or.inr ⟨_, rfl⟩
  · exact Or.inr ⟨_, rfl⟩

/-- The first of some prefixes is stripped, and then the others. -/
theorem stripEach_step (root : Str) (roots : List Str) (path : Str) :
    stripEach (root :: roots) path =
      (stripPrefixCi path root >>= fun o => stripEach roots (o.getD path)) := by
  unfold stripEach
  rw [List.foldlM_cons, bind_assoc]
  refine bind_congr fun o => ?_
  cases o <;> rfl

/-! ## Rendering -/

/-- First `n` bytes, zeros if there are fewer. -/
def firstBytes (n : Nat) (raw : Bytes) : Bytes :=
  (getRange raw 0 n).getD (List.replicate n 0)

/-- `format!("{b:02x}")`. -/
def hexByte (b : UInt8) : Str :=
  [Nat.digitChar (b.toNat / 16), Nat.digitChar (b.toNat % 16)]

/-- A bounded space-separated hex rendering. -/
def hexPreview (raw : Bytes) : Str :=
  if raw = [] then "<empty>".toList
  else
    let s := " ".toList.intercalate ((raw.take 32).map hexByte)
    if raw.length > 32 then s ++ " …".toList else s

/-- Render a value by its on-disk type. -/
def renderByValueType (ty : ValueType) (raw : Bytes) : Str :=
  match ty with
  | .sz | .expandSz | .link => decodeUtf16le raw
  | .multiSz => "; ".toList.intercalate (decodeMultiSz raw)
  | .dword => decimal (u32At (firstBytes 4 raw) 0).toNat
  | .dwordBigEndian => decimal (u32At (firstBytes 4 raw).reverse 0).toNat
  | .qword => decimal (u64At (firstBytes 8 raw) 0).toNat
  | _ => hexPreview raw

variable {Timestamp : Type}

/-- Render a value as the decoder says; and whether a specialized decoder should be consulted. -/
def renderValue (jiff : Jiff Timestamp) (r : CellReader) (decoder : Decoder) (val : Value) :
    Exec HiveError (Str × Bool) := do
  let raw ← (val.rawData r).unwrapOr []
  match decoder with
  | .identity | .utf16Le => .ok (renderByValueType val.dataType raw, false)
  | .dwordLe => do
    let number ← (val.asU32 r).unwrapOr 0
    .ok (decimal number.toNat, false)
  | .multiSz => .ok ("; ".toList.intercalate (decodeMultiSz raw), false)
  | .filetimeAt offset =>
    -- an offset near the end of the address range, whose end wraps, gives no bytes either
    let ts := ((getRange raw offset (offset + 8)).bind fun b =>
      filetimeToDatetime jiff (u64At b 0)).bind jiff.format
    .ok (ts.getD [], false)
  | _ => .ok (decodeUtf16le raw, true)

end Catalog

end Winreg
