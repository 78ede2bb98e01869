/-
  WSL DISTRIBUTIONS: the registrations below the key `Lxss` of an NTUSER.DAT hive.

  Each distribution has a key that is named after a GUID.  The value `DefaultDistribution` of the
  key above holds the name of one of them.

  1. **GUIDs** — the names that count are those of five groups of hexadecimal digits in braces,
     with whitespace around them (`isGuid_iff`).
  2. **The hive** — the extraction as the source has it.
  3. **Registrations** — each key with a GUID for a name, a distribution name and a base path has
     one entry, and no other key has any; at most one of the entries is the default
     (`parse_distros`).
-/
import Winreg.Base.UnixPath
import Winreg.Base.Utf16
import Winreg.TestUtil.Shown

namespace Winreg

open Rust Exec TestUtil

namespace Lxss

/-! ## GUIDs -/

/-- A hexadecimal digit, of either case. -/
def isHexDigit (c : Char) : Bool :=
  ('0' ≤ c && c ≤ '9') || ('A' ≤ c && c ≤ 'F') || ('a' ≤ c && c ≤ 'f')

/-- `u8::is_ascii_hexdigit` -/
def isAsciiHexdigit (b : UInt8) : Bool := isHexDigit (Char.ofNat b.toNat)

/-- Does the name have the format of a GUID? -/
def isGuid (name : Str) : Bool :=
  let s := trim name
  -- `len` counts bytes
  if utf8Len s ≠ 38 then false
  else
    let b := asBytes s
    b.getD 0 0 = 0x7B && b.getD 37 0 = 0x7D && b.getD 9 0 = 0x2D && b.getD 14 0 = 0x2D &&
      b.getD 19 0 = 0x2D && b.getD 24 0 = 0x2D && (bytesAt b 1 8).all isAsciiHexdigit &&
      (bytesAt b 10 4).all isAsciiHexdigit && (bytesAt b 15 4).all isAsciiHexdigit &&
      (bytesAt b 20 4).all isAsciiHexdigit && (bytesAt b 25 12).all isAsciiHexdigit

/-- The groups of digits of a GUID. -/
structure Guid where
  groups : List Str
  lengths : groups.map List.length = [8, 4, 4, 4, 12]
  digits : ∀ group ∈ groups, ∀ c ∈ group, isHexDigit c = true

/-- A GUID as it is written. -/
def Guid.text (g : Guid) : Str := '{' :: (['-'].intercalate g.groups ++ ['}'])

/-- Five groups of bytes, written as a GUID. -/
def guidBytes (a b c d e : Bytes) : Bytes :=
  [0x7B] ++ (a ++ ([0x2D] ++ (b ++ ([0x2D] ++ (c ++ ([0x2D] ++ (d ++ ([0x2D] ++ (e ++ [0x7D])))))))))

/-- One byte. -/
theorem bytesAt_one {data : Bytes} {i : Nat} (h : i < data.length) :
    bytesAt data i 1 = [data.getD i 0] := by
  rw [bytesAt, List.drop_eq_getElem_cons h, List.getD_eq_getElem _ _ h]
  rfl

/-- Text of 38 bytes, cut where a GUID has its groups. -/
theorem eq_guidBytes {data : Bytes} (h : data.length = 38) (h0 : data.getD 0 0 = 0x7B)
    (h37 : data.getD 37 0 = 0x7D) (h9 : data.getD 9 0 = 0x2D) (h14 : data.getD 14 0 = 0x2D)
    (h19 : data.getD 19 0 = 0x2D) (h24 : data.getD 24 0 = 0x2D) :
    data = guidBytes (bytesAt data 1 8) (bytesAt data 10 4) (bytesAt data 15 4)
      (bytesAt data 20 4) (bytesAt data 25 12) := by
  have hone : ∀ i x, i < 38 → data.getD i 0 = x → bytesAt data i 1 = [x] := by
    intro i x hi hx
    rw [bytesAt_one (by omega), hx]
  calc data
    _ = bytesAt data 0 38 := (bytesAt_zero_of_length_le h.le).symm
    _ = bytesAt data 0 1 ++ (bytesAt data 1 8 ++ (bytesAt data 9 1 ++ (bytesAt data 10 4 ++
        (bytesAt data 14 1 ++ (bytesAt data 15 4 ++ (bytesAt data 19 1 ++ (bytesAt data 20 4 ++
          (bytesAt data 24 1 ++ (bytesAt data 25 12 ++ bytesAt data 37 1))))))))) := by
      rw [← bytesAt_add data 25 12 1, ← bytesAt_add data 24 1 13, ← bytesAt_add data 20 4 14,
        ← bytesAt_add data 19 1 18, ← bytesAt_add data 15 4 19, ← bytesAt_add data 14 1 23,
        ← bytesAt_add data 10 4 24, ← bytesAt_add data 9 1 28, ← bytesAt_add data 1 8 29,
        ← bytesAt_add data 0 1 37]
    _ = _ := by
      rw [hone 0 _ (by decide) h0, hone 9 _ (by decide) h9, hone 14 _ (by decide) h14,
        hone 19 _ (by decide) h19, hone 24 _ (by decide) h24, hone 37 _ (by decide) h37]
      rfl

/-- The groups of such text, and what is between them. -/
theorem bytesAt_guidBytes {a b c d e : Bytes} (ha : a.length = 8) (hb : b.length = 4)
    (hc : c.length = 4) (hd : d.length = 4) (he : e.length = 12) :
    let data := guidBytes a b c d e
    data.length = 38 ∧ bytesAt data 1 8 = a ∧ bytesAt data 10 4 = b ∧ bytesAt data 15 4 = c ∧
      bytesAt data 20 4 = d ∧ bytesAt data 25 12 = e ∧ data.getD 0 0 = 0x7B ∧
      data.getD 9 0 = 0x2D ∧ data.getD 14 0 = 0x2D ∧ data.getD 19 0 = 0x2D ∧
      data.getD 24 0 = 0x2D ∧ data.getD 37 0 = 0x7D := by
  intro data
  have hlen : data.length = 38 := by
    simp only [data, guidBytes, List.length_append, List.length_singleton, ha, hb, hc, hd, he]
  have hone : ∀ i x, i < 38 → bytesAt data i 1 = [x] → data.getD i 0 = x := by
    intro i x hi hx
    rw [bytesAt_one (by omega)] at hx
    exact (List.cons.inj hx).1
  -- the text, cut in front of one part after the other
  have h0 : data = [] ++ ([0x7B] ++ _) := rfl
  have h1 := h0.trans (List.append_assoc _ _ _).symm
  have h9 := h1.trans (List.append_assoc _ _ _).symm
  have h10 := h9.trans (List.append_assoc _ _ _).symm
  have h14 := h10.trans (List.append_assoc _ _ _).symm
  have h15 := h14.trans (List.append_assoc _ _ _).symm
  have h19 := h15.trans (List.append_assoc _ _ _).symm
  have h20 := h19.trans (List.append_assoc _ _ _).symm
  have h24 := h20.trans (List.append_assoc _ _ _).symm
  have h25 := h24.trans (List.append_assoc _ _ _).symm
  have h37 : data = _ ++ ([0x7D] ++ []) :=
    (h25.trans (List.append_assoc _ _ _).symm).trans (congrArg _ (List.append_nil _).symm)
  refine ⟨hlen, bytesAt_part h1 ?_ ha, bytesAt_part h10 ?_ hb, bytesAt_part h15 ?_ hc,
    bytesAt_part h20 ?_ hd, bytesAt_part h25 ?_ he, hone 0 _ (by decide) (bytesAt_part h0 rfl rfl),
    hone 9 _ (by decide) (bytesAt_part h9 ?_ rfl), hone 14 _ (by decide) (bytesAt_part h14 ?_ rfl),
    hone 19 _ (by decide) (bytesAt_part h19 ?_ rfl),
    hone 24 _ (by decide) (bytesAt_part h24 ?_ rfl),
    hone 37 _ (by decide) (bytesAt_part h37 ?_ rfl)⟩
  all_goals
    simp only [List.length_append, List.length_singleton, List.length_nil, ha, hb, hc, hd, he]

/-- Written as bytes, a GUID is its groups of bytes. -/
theorem asBytes_text (a b c d e : Str) :
    asBytes ('{' :: (['-'].intercalate [a, b, c, d, e] ++ ['}'])) =
      guidBytes (asBytes a) (asBytes b) (asBytes c) (asBytes d) (asBytes e) := by
  have hopen : String.utf8EncodeChar '{' = [0x7B] := by decide
  have hdash : String.utf8EncodeChar '-' = [0x2D] := by decide
  have hclose : String.utf8EncodeChar '}' = [0x7D] := by decide
  simp only [asBytes, guidBytes, intercalate_cons, List.flatMap_cons, List.flatMap_append,
    List.flatMap_nil, List.append_assoc, List.cons_append, List.append_nil,
    List.nil_append, hopen, hdash, hclose]

/-- A GUID is written with braces and dashes around its groups. -/
theorem latin1_guidBytes (a b c d e : Bytes) : latin1 (guidBytes a b c d e) =
    '{' :: (['-'].intercalate [latin1 a, latin1 b, latin1 c, latin1 d, latin1 e] ++ ['}']) := by
  have hopen : Char.ofNat (UInt8.toNat 0x7B) = '{' := by decide
  have hdash : Char.ofNat (UInt8.toNat 0x2D) = '-' := by decide
  have hclose : Char.ofNat (UInt8.toNat 0x7D) = '}' := by decide
  simp only [latin1, guidBytes, intercalate_cons, List.flatMap_cons, List.flatMap_nil,
    List.map_append, List.map_cons, List.map_nil, List.append_assoc, List.cons_append,
    List.append_nil, List.nil_append, hopen, hdash, hclose]

set_option maxRecDepth 2000 in
/-- A hexadecimal digit is one byte in UTF-8. -/
theorem lt_of_isAsciiHexdigit {x : UInt8} (h : isAsciiHexdigit x = true) : x.toNat < 128 := by
  have hall : ∀ n < 256, isHexDigit (Char.ofNat n) = true → n < 128 := by decide
  exact hall x.toNat (UInt8.toNat_lt x) h

/-- A group of digits is ASCII. -/
theorem isAscii_of_isHexDigit {group : Str} (h : ∀ c ∈ group, isHexDigit c = true) :
    isAscii group = true := by
  refine List.all_eq_true.mpr fun c hc => decide_eq_true ?_
  have hdigit := h c hc
  simp only [isHexDigit, Bool.or_eq_true, Bool.and_eq_true, decide_eq_true_eq, Char.le_def,
    UInt32.le_iff_toNat_le] at hdigit
  show c.val.toNat < 128
  have h9 : ('9' : Char).val.toNat = 57 := rfl
  have hF : ('F' : Char).val.toNat = 70 := rfl
  have hf : ('f' : Char).val.toNat = 102 := rfl
  omega

/-- The groups of a GUID are five groups of digits. -/
theorem Guid.exists_groups (g : Guid) : ∃ a b c d e, g.groups = [a, b, c, d, e] ∧ a.length = 8 ∧
    b.length = 4 ∧ c.length = 4 ∧ d.length = 4 ∧ e.length = 12 := by
  have hlengths := g.lengths
  rcases hgroups : g.groups with _ | ⟨a, _ | ⟨b, _ | ⟨c, _ | ⟨d, _ | ⟨e, _ | ⟨f, rest⟩⟩⟩⟩⟩⟩ <;>
    rw [hgroups] at hlengths <;> simp at hlengths
  exact ⟨a, b, c, d, e, rfl, hlengths⟩

/-- Digits are the characters of their bytes. -/
theorem isHexDigit_latin1 {group : Bytes} (h : ∀ x ∈ group, isAsciiHexdigit x = true) :
    ∀ c ∈ latin1 group, isHexDigit c = true := by
  intro c hmem
  obtain ⟨x, hx, rfl⟩ := List.mem_map.mp hmem
  exact h x hx

/-- So its bytes pass the test that the source makes on bytes. -/
theorem all_asBytes {group : Str} (h : ∀ c ∈ group, isHexDigit c = true) :
    (asBytes group).all isAsciiHexdigit = true := by
  refine List.all_eq_true.mpr fun x hx => h _ ?_
  rw [← latin1_asBytes (isAscii_of_isHexDigit h)]
  exact List.mem_map_of_mem hx

/-- And there are as many of them as characters. -/
theorem length_asBytes_group {group : Str} {n : Nat} (h : ∀ c ∈ group, isHexDigit c = true)
    (hn : group.length = n) : (asBytes group).length = n := by
  rw [length_asBytes, utf8Len_of_isAscii (isAscii_of_isHexDigit h), hn]

/-- A GUID of bytes has ASCII bytes only. -/
theorem lt_of_mem_guidBytes {a b c d e : Bytes} (ha : ∀ x ∈ a, isAsciiHexdigit x = true)
    (hb : ∀ x ∈ b, isAsciiHexdigit x = true) (hc : ∀ x ∈ c, isAsciiHexdigit x = true)
    (hd : ∀ x ∈ d, isAsciiHexdigit x = true) (he : ∀ x ∈ e, isAsciiHexdigit x = true) :
    ∀ x ∈ guidBytes a b c d e, x.toNat < 128 := by
  intro x hx
  simp only [guidBytes, List.mem_append, List.mem_singleton] at hx
  rcases hx with rfl | hx | rfl | hx | rfl | hx | rfl | hx | rfl | hx | rfl
  · decide
  · exact lt_of_isAsciiHexdigit (ha x hx)
  · decide
  · exact lt_of_isAsciiHexdigit (hb x hx)
  · decide
  · exact lt_of_isAsciiHexdigit (hc x hx)
  · decide
  · exact lt_of_isAsciiHexdigit (hd x hx)
  · decide
  · exact lt_of_isAsciiHexdigit (he x hx)
  · decide

/-- The checks, on the trimmed name. -/
theorem isGuid_iff_text {name : Str} : isGuid name = true ↔ ∃ g : Guid, trim name = g.text := by
  simp only [isGuid, ← length_asBytes]
  generalize trim name = s
  constructor
  · intro h
    split at h
    · cases h
    · rename_i hlen
      simp only [Bool.and_eq_true, decide_eq_true_eq, List.all_eq_true] at h
      obtain ⟨⟨⟨⟨⟨⟨⟨⟨⟨⟨h0, h37⟩, h9⟩, h14⟩, h19⟩, h24⟩, ha⟩, hb⟩, hc⟩, hd⟩, he⟩ := h
      have hlen : (asBytes s).length = 38 := not_not.mp hlen
      have hdata := eq_guidBytes hlen h0 h37 h9 h14 h19 h24
      -- the checks look at bytes, but a multi-byte character would bring a byte from 128 on
      have hascii : isAscii s = true := isAscii_of_asBytes fun x hx =>
        lt_of_mem_guidBytes ha hb hc hd he x (hdata ▸ hx)
      refine ⟨⟨[latin1 _, latin1 _, latin1 _, latin1 _, latin1 _], ?_, ?_⟩,
        (latin1_asBytes hascii).symm.trans
          ((congrArg latin1 hdata).trans (latin1_guidBytes _ _ _ _ _))⟩
      · simp only [List.map_cons, List.map_nil, latin1, List.length_map, length_bytesAt, hlen]
        decide
      · simp only [List.forall_mem_cons]
        exact ⟨isHexDigit_latin1 ha, isHexDigit_latin1 hb, isHexDigit_latin1 hc,
          isHexDigit_latin1 hd, isHexDigit_latin1 he, by simp⟩
  · rintro ⟨g, rfl⟩
    obtain ⟨a, b, c, d, e, hgroups, ha, hb, hc, hd, he⟩ := g.exists_groups
    have hdigits := g.digits
    simp only [hgroups, List.forall_mem_cons] at hdigits
    obtain ⟨dA, dB, dC, dD, dE, -⟩ := hdigits
    obtain ⟨hlen, hA, hB, hC, hD, hE, h0, h9, h14, h19, h24, h37⟩ :=
      bytesAt_guidBytes (length_asBytes_group dA ha) (length_asBytes_group dB hb)
        (length_asBytes_group dC hc) (length_asBytes_group dD hd) (length_asBytes_group dE he)
    rw [Guid.text, hgroups, asBytes_text, if_neg (not_not.mpr hlen), hA, hB, hC, hD, hE, h0, h9,
      h14, h19, h24, h37, all_asBytes dA, all_asBytes dB, all_asBytes dC, all_asBytes dD,
      all_asBytes dE]
    rfl

/-- **A name has the format of a GUID** where it is one, with whitespace around it. -/
theorem isGuid_iff {name : Str} : isGuid name = true ↔ ∃ (front back : Str) (g : Guid),
    name = front ++ (g.text ++ back) ∧ (∀ c ∈ front, isWhitespace c) ∧
      ∀ c ∈ back, isWhitespace c := by
  rw [isGuid_iff_text]
  constructor
  · rintro ⟨g, hg⟩
    obtain ⟨front, back, hname, hfront, hback⟩ := exists_trim name
    exact ⟨front, back, g, hg ▸ hname, hfront, hback⟩
  · rintro ⟨front, back, g, rfl, hfront, hback⟩
    have hlast : ('{' :: ['-'].intercalate g.groups ++ ['}']).getLast? = some '}' :=
      List.getLast?_concat
    exact ⟨g, trim_append hfront hback rfl (by decide) hlast (by decide)⟩

/-! ## The hive -/

/-- The version of the subsystem. -/
inductive DistroVersion where
  | wsl1
  | wsl2
  | unknown
deriving DecidableEq, Repr

/-- The state of a registration. -/
inductive DistroState where
  | installed
  | running
  | unknown
deriving DecidableEq, Repr

/-- A registered distribution. -/
structure LxssDistro (Timestamp : Type) where
  guid : Str
  distributionName : Str
  packageFamilyName : Option Str
  basePath : Str
  state : DistroState
  version : DistroVersion
  defaultUid : Option UInt32
  isDefault : Bool
  lastWritten : Option Timestamp
deriving DecidableEq, Repr

/-- The path of the disk image; only WSL2 has one. -/
def LxssDistro.vhdxPath {Timestamp : Type} (d : LxssDistro Timestamp) : Option Str :=
  if d.version ≠ .wsl2 then none
  else some (UnixPath.join d.basePath "ext4.vhdx".toList)

/-- Where the registrations are. -/
def lxssPath : Str := "Software\\Microsoft\\Windows\\CurrentVersion\\Lxss".toList

/-- The state that a number stands for; a missing one is unknown. -/
def stateOf : Option UInt32 → DistroState
  | some 1 => .installed
  | some 4 => .running
  | _ => .unknown

/-- The version that a number stands for. -/
def versionOf : Option UInt32 → DistroVersion
  | some 1 => .wsl1
  | some 2 => .wsl2
  | _ => .unknown

section Parse

variable {Timestamp : Type} (jiff : Jiff Timestamp)

/-- The entry of a key, if it is a registration. -/
def distro (r : CellReader) (defaultDistroGuid : Str) (subkey : Key) :
    Exec HiveError (List (LxssDistro Timestamp)) :=
  let guid := subkey.name
  if !isGuid guid then .ok []
  else do
    match ← subkey.readString r "DistributionName".toList with
    | none => .ok []
    | some distributionName =>
      match ← subkey.readString r "BasePath".toList with
      | none => .ok []
      | some basePath => do
        let packageFamilyName ← subkey.readString r "PackageFamilyName".toList
        let state ← subkey.readNumber r "State".toList
        let version ← subkey.readNumber r "Version".toList
        let defaultUid ← subkey.readNumber r "DefaultUid".toList
        .ok [{
          guid := guid
          distributionName := distributionName
          packageFamilyName := packageFamilyName
          basePath := basePath
          state := stateOf state
          version := versionOf version
          defaultUid := defaultUid
          isDefault := defaultDistroGuid ≠ [] ∧ guid = defaultDistroGuid
          lastWritten := subkey.lastWritten jiff }]

/-- The entries below the key of the registrations. -/
def distros (r : CellReader) (n : Nat) (lxssKey : Key) :
    Exec HiveError (List (LxssDistro Timestamp)) := do
  let defaultDistro ← lxssKey.readString r "DefaultDistribution".toList
  let defaultDistroGuid := defaultDistro.getD []
  (lxssKey.subkeys r n).okOr [] fun subkeys => flatMapM (distro jiff r defaultDistroGuid) subkeys

/-- Parse the registrations of an NTUSER.DAT hive. -/
def parse (hive : Hive) (n : Nat) : Exec HiveError (List (LxssDistro Timestamp)) :=
  (hive.openKey n lxssPath).someOr [] (distros jiff hive.reader n)

end Parse

/-! ## Registrations -/

/-- The disk image lies right below the base path. -/
theorem components_vhdxPath {Timestamp : Type} {d : LxssDistro Timestamp} {path : Str}
    (h : d.vhdxPath = some path) : d.version = .wsl2 ∧
      UnixPath.components path = UnixPath.components d.basePath ++ ["ext4.vhdx".toList] := by
  rw [LxssDistro.vhdxPath] at h
  split at h
  · cases h
  · rename_i hversion
    obtain rfl := Option.some.inj h
    exact ⟨not_not.mp hversion, UnixPath.components_join ⟨by decide, by decide, by decide⟩⟩

section Registrations

variable {Timestamp : Type} (jiff : Jiff Timestamp) (reg : Registry)

/-- The entries of a key, on what is shown. -/
def entriesOf (defaultDistroGuid : Str) (a : reg.Node) : List (LxssDistro Timestamp) :=
  if isGuid (reg.name a) then
    match reg.text a "DistributionName".toList, reg.text a "BasePath".toList with
    | some distributionName, some basePath => [{
        guid := reg.name a
        distributionName := distributionName
        packageFamilyName := reg.text a "PackageFamilyName".toList
        basePath := basePath
        state := stateOf (reg.number a "State".toList)
        version := versionOf (reg.number a "Version".toList)
        defaultUid := reg.number a "DefaultUid".toList
        isDefault := defaultDistroGuid ≠ [] ∧ reg.name a = defaultDistroGuid
        lastWritten := reg.lastWritten jiff a }]
    | _, _ => []
  else []

/-- The entries of all registrations. -/
def allDistros : List (LxssDistro Timestamp) :=
  (reg.openKey lxssPath).elim [] fun lxss => (reg.subkeyList lxss).flatMap
    (entriesOf jiff reg ((reg.text lxss "DefaultDistribution".toList).getD []))

/-- The key registers the distribution. -/
structure Registers (lxss a : reg.Node) (d : LxssDistro Timestamp) : Prop where
  guid : d.guid = reg.name a
  format : ∃ (front back : Str) (g : Guid), reg.name a = front ++ (g.text ++ back) ∧
    (∀ c ∈ front, isWhitespace c) ∧ ∀ c ∈ back, isWhitespace c
  distributionName : reg.text a "DistributionName".toList = some d.distributionName
  basePath : reg.text a "BasePath".toList = some d.basePath
  packageFamilyName : d.packageFamilyName = reg.text a "PackageFamilyName".toList
  state : d.state = stateOf (reg.number a "State".toList)
  version : d.version = versionOf (reg.number a "Version".toList)
  defaultUid : d.defaultUid = reg.number a "DefaultUid".toList
  isDefault : d.isDefault ↔ reg.text lxss "DefaultDistribution".toList = some (reg.name a)
  lastWritten : d.lastWritten = reg.lastWritten jiff a

variable {reg}

/-- The name of a registration is the default where it is what the value says. -/
theorem isDefault_iff {chosen : Option Str} {guid : Str} (h : isGuid guid = true) :
    (chosen.getD [] ≠ [] ∧ guid = chosen.getD []) ↔ chosen = some guid := by
  have hne : guid ≠ [] := by
    rintro rfl
    exact absurd h (by decide)
  cases chosen with
  | none => simp
  | some s =>
    rw [Option.getD_some, Option.some.injEq]
    exact ⟨fun h => h.2.symm, fun h => ⟨h ▸ hne, h.symm⟩⟩

/-- A key gives an entry exactly where it registers a distribution. -/
theorem mem_entriesOf {lxss a : reg.Node} {d : LxssDistro Timestamp} :
    d ∈ entriesOf jiff reg ((reg.text lxss "DefaultDistribution".toList).getD []) a ↔
      Registers jiff reg lxss a d := by
  constructor
  · intro h
    unfold entriesOf at h
    split at h
    · rename_i hguid
      split at h
      · rename_i distributionName basePath hname hbase
        obtain rfl := List.mem_singleton.mp h
        exact ⟨rfl, isGuid_iff.mp hguid, hname, hbase, rfl, rfl, rfl, rfl,
          (decide_eq_true_iff).trans (isDefault_iff hguid), rfl⟩
      · cases h
    · cases h
  · intro h
    have hguid := isGuid_iff.mpr h.format
    have hdefault := h.isDefault.trans (isDefault_iff hguid).symm
    unfold entriesOf
    rw [if_pos hguid, h.distributionName, h.basePath, ← h.packageFamilyName, ← h.state,
      ← h.version, ← h.defaultUid, ← h.lastWritten, ← h.guid]
    rw [← h.guid] at hdefault
    refine List.mem_singleton.mpr ?_
    obtain ⟨guid, distributionName, package, basePath, state, version, uid, isDefault, stamp⟩ := d
    simp only [LxssDistro.mk.injEq, true_and, and_true]
    exact Bool.eq_iff_iff.mpr (hdefault.trans decide_eq_true_iff.symm)

omit reg in
/-- At most one entry has the one name that the default has. -/
theorem length_filter_isDefault {distros : List (LxssDistro Timestamp)} {chosen : Option Str}
    (hnames : (distros.map LxssDistro.guid).Nodup)
    (hdefault : ∀ d ∈ distros, d.isDefault = true → chosen = some d.guid) :
    (distros.filter LxssDistro.isDefault).length ≤ 1 := by
  have hsub : (distros.filter LxssDistro.isDefault).Sublist distros := List.filter_sublist
  rcases hfilter : distros.filter LxssDistro.isDefault with _ | ⟨d, _ | ⟨d', rest⟩⟩
  · exact Nat.zero_le 1
  · exact Nat.le_refl 1
  · rw [hfilter] at hsub
    have hguid : ∀ e ∈ d :: d' :: rest, chosen = some e.guid := by
      intro e he
      rw [← hfilter] at he
      exact hdefault e (List.mem_of_mem_filter he) (List.mem_filter.mp he).2
    have hsame : d.guid = d'.guid := Option.some.inj
      ((hguid d List.mem_cons_self).symm.trans (hguid d' (List.mem_cons_of_mem _ List.mem_cons_self)))
    have hnodup := (hsub.map LxssDistro.guid).nodup hnames
    rw [List.map_cons, List.map_cons, List.nodup_cons] at hnodup
    exact absurd (hsame ▸ List.mem_cons_self) hnodup.1

variable {hive : Hive} {rel : Key → reg.Node → Prop} (shows_ : hive.Shows reg rel)

include shows_

/-- The entry of one key, or none. -/
theorem distro_evals (defaultDistroGuid : Str) {k : Key} {a : reg.Node} (hk : rel k a) :
    Evals (fun _ => distro jiff hive.reader defaultDistroGuid k)
      (.ok (entriesOf jiff reg defaultDistroGuid a)) := by
  simp only [distro, entriesOf, shows_.name hk, shows_.lastWritten jiff hk]
  cases isGuid (reg.name a) with
  | false => exact .const _
  | true =>
    refine Evals.bind (shows_.readString hk _) ?_
    cases reg.text a "DistributionName".toList with
    | none => exact .const _
    | some distributionName =>
      refine Evals.bind (shows_.readString hk _) ?_
      cases reg.text a "BasePath".toList with
      | none => exact .const _
      | some basePath =>
        exact (shows_.readString hk _).bind ((shows_.readNumber hk _).bind
          ((shows_.readNumber hk _).bind ((shows_.readNumber hk _).bind (.const _))))

/-- The entries of the subkeys, in order, with the default of the parent. -/
theorem distros_evals {k : Key} {a : reg.Node} (hk : rel k a) :
    Evals (fun n => distros jiff hive.reader n k) (.ok ((reg.subkeyList a).flatMap
      (entriesOf jiff reg ((reg.text a "DefaultDistribution".toList).getD [])))) := by
  refine Evals.bind (shows_.readString hk "DefaultDistribution".toList) ?_
  refine shows_.onSubkeys hk (h := List.flatMap _) rfl fun kids nodes hkids => ?_
  exact Evals.flatMapM hkids fun kid node hkid => distro_evals jiff shows_ _ hkid.2

/-- The entries of a hive; without the key there are none. -/
theorem parse_evals : Evals (fun n => parse jiff hive n) (.ok (allDistros jiff reg)) :=
  (shows_.openKey lxssPath).someOr (d := []) fun _ _ hk => distros_evals jiff shows_ hk

omit shows_ in
/-- The entries are named like the keys, in their order. -/
theorem map_guid_entries (defaultDistroGuid : Str) (nodes : List reg.Node) :
    ((nodes.flatMap (entriesOf jiff reg defaultDistroGuid)).map LxssDistro.guid).Sublist
      (nodes.map reg.name) := by
  induction nodes with
  | nil => exact .slnil
  | cons a rest ih =>
    rw [List.flatMap_cons, List.map_append, List.map_cons, ← List.singleton_append]
    refine List.Sublist.append ?_ ih
    unfold entriesOf
    split
    · split
      · exact .refl _
      · exact List.nil_sublist _
    · exact List.nil_sublist _

/-- **Each registration has its entry**, and no other key has one: the entries are those that the
    keys register, in the order of the keys.  If the names of the keys are different, at most one
    entry is the default. -/
theorem parse_distros {lxss : reg.Node} (hopen : reg.openKey lxssPath = some lxss) :
    ∃ distros, Evals (fun n => parse jiff hive n) (.ok distros) ∧
      (distros.map LxssDistro.guid).Sublist ((reg.subkeyList lxss).map reg.name) ∧
      (∀ d, d ∈ distros ↔ ∃ a ∈ reg.subkeyList lxss, Registers jiff reg lxss a d) ∧
      (((reg.subkeyList lxss).map reg.name).Nodup →
        (distros.filter LxssDistro.isDefault).length ≤ 1) := by
  have hrun := parse_evals jiff shows_
  rw [allDistros, hopen, Option.elim_some] at hrun
  refine ⟨_, hrun, map_guid_entries jiff _ _, fun d => ?_, fun hdistinct => ?_⟩
  · simp only [List.mem_flatMap, mem_entriesOf]
  · have hnames := ((map_guid_entries jiff ((reg.text lxss "DefaultDistribution".toList).getD [])
      (reg.subkeyList lxss)).nodup hdistinct)
    refine @length_filter_isDefault _ _ (reg.text lxss "DefaultDistribution".toList) hnames
      fun d hd hdefault => ?_
    obtain ⟨a, _, ha⟩ := List.mem_flatMap.mp hd
    have hregisters := (mem_entriesOf jiff).mp ha
    rw [hregisters.guid]
    exact hregisters.isDefault.mp hdefault

end Registrations

/-- The registered distribution. -/
def ubuntu : LxssDistro Int where
  guid := "{12345678-1234-1234-1234-123456789aBc}".toList
  distributionName := "Ubuntu".toList
  packageFamilyName := none
  basePath := "C:\\u".toList
  state := .unknown
  version := .wsl2
  defaultUid := none
  isDefault := true
  lastWritten := none

/-- A distribution that is the default, next to a key that is none. -/
def distroBuilder : TestHiveBuilder where
  keys := [lxssPath ++ "\\AppxInstallerCache".toList]
  values := [⟨lxssPath, "DefaultDistribution".toList, 1, utf16leBytes ubuntu.guid⟩,
    ⟨lxssPath ++ '\\' :: ubuntu.guid, "DistributionName".toList, 1,
      utf16leBytes ubuntu.distributionName⟩,
    ⟨lxssPath ++ '\\' :: ubuntu.guid, "BasePath".toList, 1, utf16leBytes ubuntu.basePath⟩,
    ⟨lxssPath ++ '\\' :: ubuntu.guid, "Version".toList, 4, u32Bytes 2⟩]
  keyFiletime := 0

set_option maxRecDepth 20000 in
/-- The sample can be written. -/
theorem distroBuilder_valid : distroBuilder.Valid where
  components := by decide
  valueNames := by decide
  children p := by
    have hlen : (distroBuilder.childNames p).length ≤ distroBuilder.closure.length :=
      List.length_filterMap_le _ _
    exact hlen.trans (by decide)
  data := by decide

set_option maxRecDepth 20000 in
/-- One registration, which is the default one. -/
theorem parse_distros_ubuntu : ∃ image hive distros,
    (distroBuilder.build 8 : Exec HiveError Bytes) = .ok image ∧
      Hive.fromBytes image = .ok hive ∧
      Evals (fun n => parse (⟨fun _ => none, fun _ => none⟩ : Jiff Int) hive n) (.ok distros) ∧
      ubuntu ∈ distros ∧ (distros.filter LxssDistro.isDefault).length ≤ 1 := by
  obtain ⟨image, hive, hbuild, hopen, hshows⟩ :=
    build_shows distroBuilder_valid (n := 8) (by decide) (by decide)
  obtain ⟨distros, hrun, _, hmem, hdefault⟩ :=
    @parse_distros _ ⟨fun _ => none, fun _ => none⟩ _ _ _ hshows (distroBuilder.nodeAt lxssPath)
      (by decide)
  refine ⟨image, hive, distros, hbuild, hopen, hrun, ?_, hdefault (by decide)⟩
  refine (hmem ubuntu).mpr ⟨distroBuilder.nodeAt (lxssPath ++ '\\' :: ubuntu.guid), by decide, ?_⟩
  exact ⟨by decide, isGuid_iff.mp (by decide), by decide, by decide, by decide, by decide,
    by decide, by decide, by decide, by decide⟩

end Lxss

end Winreg
