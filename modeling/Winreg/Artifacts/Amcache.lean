/-
  AMCACHE: the files that have been executed, in both layouts of the hive.

  Newer systems keep one key for each file below `Root\InventoryApplicationFile`, older ones one
  below `Root\File` and a key for the volume, with numbers for names of the values.

  1. **The hive** — the extraction as the source has it.
  2. **Files** — every file key has one entry, first the newer ones, then the older ones volume by
     volume (`parse_evals`).
-/
import Winreg.Base.Utf16
import Winreg.TestUtil.Shown

namespace Winreg

open Rust Exec TestUtil

namespace Amcache

/-! ## The hive -/

/-- A file entry. -/
structure AmcacheEntry where
  filePath : Str
  sha1 : Str
  size : UInt64
  linkDate : Option Str
  publisher : Str
  productName : Str
  productVersion : Str
  binFileVersion : Str
  keyName : Str
  lastWritten : Option Str
deriving DecidableEq, Repr

/-- Where newer systems keep the files. -/
def inventoryAppFile : Str := "Root\\InventoryApplicationFile".toList
/-- Where older ones do. -/
def rootFile : Str := "Root\\File".toList

/-- Strip the leading `0000` of a hash, if it has one. -/
def stripZeros (s : Str) : Str := if "0000".toList <+: s then s.drop 4 else s

/-- A string value, the empty string on any error. -/
def readSz (r : CellReader) (key : Key) (name : Str) : Exec HiveError Str := do
  let s ← key.readString r name
  .ok (s.getD [])

section Parse

variable {Timestamp : Type} (jiff : Jiff Timestamp)

/-- The entry of a file in the newer layout. -/
def inventoryEntry (r : CellReader) (subkey : Key) : Exec HiveError AmcacheEntry := do
  let filePath ← readSz r subkey "LowerCaseLongPath".toList
  let fileIdRaw ← readSz r subkey "FileId".toList
  let size ← subkey.readNumber r "Size".toList
  let linkDateRaw ← readSz r subkey "LinkDate".toList
  let publisher ← readSz r subkey "Publisher".toList
  let productName ← readSz r subkey "ProductName".toList
  let productVersion ← readSz r subkey "ProductVersion".toList
  let binFileVersion ← readSz r subkey "BinFileVersion".toList
  .ok {
    filePath := filePath
    sha1 := stripZeros fileIdRaw
    size := (size.getD 0).toUInt64
    linkDate := if linkDateRaw = [] then none else some linkDateRaw
    publisher := publisher
    productName := productName
    productVersion := productVersion
    binFileVersion := binFileVersion
    keyName := subkey.name
    lastWritten := jiff.iso subkey.lastWrittenRaw }

/-- The entry of a file in the older layout. -/
def fileEntry (r : CellReader) (file : Key) : Exec HiveError AmcacheEntry := do
  let filePath ← readSz r file "15".toList
  let sha1Raw ← readSz r file "101".toList
  .ok ⟨filePath, stripZeros sha1Raw, 0, none, [], [], [], [], file.name,
    jiff.iso file.lastWrittenRaw⟩

/-- One entry for each subkey; a hive without the key has none. -/
def parseInventoryAppFile (hive : Hive) (n : Nat) : Exec HiveError (List AmcacheEntry) :=
  (hive.openKey n inventoryAppFile).someOr [] fun container =>
    (container.subkeys hive.reader n).okOr [] fun subkeys =>
      collectM (inventoryEntry jiff hive.reader) subkeys

/-- One entry for each key below the key of a volume. -/
def parseRootFile (hive : Hive) (n : Nat) : Exec HiveError (List AmcacheEntry) :=
  (hive.openKey n rootFile).someOr [] fun container =>
    (container.subkeys hive.reader n).okOr [] fun volumes =>
      flatMapM (fun volume =>
        (volume.subkeys hive.reader n).okOr [] fun files =>
          collectM (fileEntry jiff hive.reader) files) volumes

/-- Extract the entries of both layouts. -/
def parse (hive : Hive) (n : Nat) : Exec HiveError (List AmcacheEntry) := do
  let entries ← parseInventoryAppFile jiff hive n
  let more ← parseRootFile jiff hive n
  .ok (entries ++ more)

end Parse

/-! ## Files -/

section Files

variable {Timestamp : Type} (jiff : Jiff Timestamp) (reg : Registry)

/-- A string value as it is shown. -/
def sz (a : reg.Node) (name : Str) : Str := (reg.text a name).getD []

/-- The entry of a file in the newer layout. -/
def inventoryOf (a : reg.Node) : AmcacheEntry where
  filePath := sz reg a "LowerCaseLongPath".toList
  sha1 := stripZeros (sz reg a "FileId".toList)
  size := ((reg.number a "Size".toList).getD 0).toUInt64
  linkDate := if sz reg a "LinkDate".toList = [] then none else some (sz reg a "LinkDate".toList)
  publisher := sz reg a "Publisher".toList
  productName := sz reg a "ProductName".toList
  productVersion := sz reg a "ProductVersion".toList
  binFileVersion := sz reg a "BinFileVersion".toList
  keyName := reg.name a
  lastWritten := jiff.iso (reg.lastWrittenRaw a)

/-- The entry of a file in the older layout. -/
def fileOf (a : reg.Node) : AmcacheEntry where
  filePath := sz reg a "15".toList
  sha1 := stripZeros (sz reg a "101".toList)
  size := 0
  linkDate := none
  publisher := []
  productName := []
  productVersion := []
  binFileVersion := []
  keyName := reg.name a
  lastWritten := jiff.iso (reg.lastWrittenRaw a)

/-- All entries. -/
def entriesOf : List AmcacheEntry :=
  (reg.subkeysAt inventoryAppFile).map (inventoryOf jiff reg) ++
    (reg.subkeysAt rootFile).flatMap fun volume => (reg.subkeyList volume).map (fileOf jiff reg)

variable {reg} {hive : Hive} {rel : Key → reg.Node → Prop} (shows_ : hive.Shows reg rel)

include shows_

/-- A string value is read as it is shown, and as the empty text where it is missing. -/
theorem readSz_evals {k : Key} {a : reg.Node} (hk : rel k a) (name : Str) :
    Evals (fun _ => readSz hive.reader k name) (.ok (sz reg a name)) :=
  (shows_.readString hk name).bind (.const _)

/-- An entry of the newer layout is settled by the registry that is shown. -/
theorem inventoryEntry_evals {k : Key} {a : reg.Node} (hk : rel k a) :
    Evals (fun _ => inventoryEntry jiff hive.reader k) (.ok (inventoryOf jiff reg a)) := by
  simp only [inventoryEntry, shows_.name hk, shows_.stamp hk]
  refine (readSz_evals shows_ hk _).bind ((readSz_evals shows_ hk _).bind
    ((shows_.readNumber hk _).bind ((readSz_evals shows_ hk _).bind
      ((readSz_evals shows_ hk _).bind ((readSz_evals shows_ hk _).bind
        ((readSz_evals shows_ hk _).bind ((readSz_evals shows_ hk _).bind (.const _))))))))

/-- So is one of the older layout. -/
theorem fileEntry_evals {k : Key} {a : reg.Node} (hk : rel k a) :
    Evals (fun _ => fileEntry jiff hive.reader k) (.ok (fileOf jiff reg a)) := by
  simp only [fileEntry, shows_.name hk, shows_.stamp hk]
  exact (readSz_evals shows_ hk _).bind ((readSz_evals shows_ hk _).bind (.const _))

/-- **The extraction** finds every file of the registry, the newer ones first.  Each listing that
    fails is dropped, as the registry drops it. -/
theorem parse_evals : Evals (fun n => parse jiff hive n) (.ok (entriesOf jiff reg)) := by
  have hinventory : Evals (fun n => parseInventoryAppFile jiff hive n)
      (.ok ((reg.subkeysAt inventoryAppFile).map (inventoryOf jiff reg))) :=
    shows_.onSubkeysAt inventoryAppFile (h := List.map _) rfl fun kids nodes hkids =>
      Evals.collectM hkids fun k a hk => inventoryEntry_evals jiff shows_ hk.2
  have hfiles : Evals (fun n => parseRootFile jiff hive n) (.ok
      ((reg.subkeysAt rootFile).flatMap fun volume =>
        (reg.subkeyList volume).map (fileOf jiff reg))) :=
    shows_.onSubkeysAt rootFile (h := List.flatMap _) rfl fun kids nodes hkids =>
      Evals.flatMapM hkids fun volume a hvolume =>
        shows_.onSubkeys hvolume.2 (h := List.map _) rfl fun kids nodes hkids =>
          Evals.collectM hkids fun k a hk => fileEntry_evals jiff shows_ hk.2
  exact hinventory.bind (hfiles.bind (.const _))

end Files

end Amcache

end Winreg
