/-
  WHAT A BUILT HIVE SHOWS: the registry that was given to the builder.

  The keys of the registry are the paths of the prefix closure, each with its children in the order
  of first mention and its values in the order in which they were given.  A built hive shows this
  registry (`build_shows`), so what an extractor finds in the file is what it finds in the builder.
-/
import Winreg.Core.Registry
import Winreg.TestUtil.RoundTrip

namespace Winreg.TestUtil

open Winreg Rust Exec

/-- A value as it is shown. -/
def TreeValue.shown (v : TreeValue) : ShownValue :=
  ⟨v.name, ValueType.fromRaw v.dataType, some v.data⟩

/-- The registry that was given: the prefix closure of the paths, below the root. -/
def TestHiveBuilder.registry (b : TestHiveBuilder) : Registry where
  Node := Path
  root := some []
  name p := latin1 (keyName p)
  lastWrittenRaw _ := b.keyFiletime
  values p := some ((b.valuesAt p).map TreeValue.shown)
  subkeys p := some ((b.childNames p).map fun c => p ++ [c])

instance (b : TestHiveBuilder) : DecidableEq b.registry.Node := inferInstanceAs (DecidableEq Path)

/-- The key at a path. -/
def TestHiveBuilder.nodeAt (b : TestHiveBuilder) (path : Str) : b.registry.Node := components path

/-- A key of the file and its path. -/
inductive TestHiveBuilder.IsBuilt (b : TestHiveBuilder) : Key → Path → Prop where
  | mk {p : Path} (hp : p = [] ∨ p ∈ b.closure) : b.IsBuilt (b.keyAt p) p

section Shown

variable {b : TestHiveBuilder} {image : Bytes}

/-- A value that reads in one way is shown so. -/
theorem shows_of_reads {r : CellReader} {val : Value} {v : TreeValue}
    (h : ReadsValue r val v.toRegValue) : ShowsValue r val v.shown := by
  refine ⟨h.name, h.dataType, ?_⟩
  rw [h.data]
  exact .value rfl

section Holds

variable (h : b.Valid) (hsize : b.planOf.totalFileSize < 2 ^ 31)
  (himage : b.arena.Holds image b.finalContent) {p : Path} (hp : p = [] ∨ p ∈ b.closure)

include h hsize himage hp

/-- The values of a key show what was given, in order. -/
theorem values_shown : List.Forall₂ (ShowsValue (b.hive image).reader)
    ((b.pathItems p).map b.valueAt) ((b.valuesAt p).map TreeValue.shown) := by
  rw [← map_value_pathItems, List.map_map, List.forall₂_map_left_iff,
    List.forall₂_map_right_iff, List.forall₂_same]
  exact fun x hx => shows_of_reads (readsValue hsize himage h (mem_items_of_pathItems h hp hx))

omit h hsize himage hp in
/-- The subkeys of a key are those of the longer paths, in order. -/
theorem subkeys_shown (p : Path) : List.Forall₂ b.IsBuilt
    ((b.childNames p).map fun c => b.keyAt (p ++ [c])) ((b.childNames p).map fun c => p ++ [c]) := by
  rw [List.forall₂_map_left_iff, List.forall₂_map_right_iff, List.forall₂_same]
  exact fun c hc => .mk (Or.inr (mem_childNames.mp hc))

end Holds

/-- The file shows what was given. -/
theorem shows_built (h : b.Valid) (hsize : b.planOf.totalFileSize < 2 ^ 31)
    (himage : b.arena.Holds image b.finalContent) :
    (b.hive image).Shows b.registry b.IsBuilt where
  root := by
    have hroot : (b.hive image).rootKey = .ok (b.keyAt []) :=
      Hive.rootKey_eq (readCell_key hsize himage h (p := []) (Or.inl rfl)) rfl
    rw [hroot]
    exact .value (TestHiveBuilder.IsBuilt.mk (Or.inl rfl))
  name := by
    rintro _ _ ⟨_⟩
    exact keyName_linkedNode b _
  stamp := by
    rintro _ _ ⟨_⟩
    rfl
  values := by
    rintro _ _ ⟨hp⟩
    rw [values_keyAt hsize himage h hp]
    exact .value (values_shown h hsize himage hp)
  subkeys := by
    rintro _ p ⟨hp⟩
    exact ⟨_, subkeys_keyAt hsize himage h hp, .value (subkeys_shown p)⟩

/-- **A valid builder builds a hive that shows what was given to it**, if that fits. -/
theorem build_shows (h : b.Valid) {n : Nat} (hn : b.depth < n)
    (hsize : b.planOf.totalFileSize < 2 ^ 31) :
    ∃ image hive, (b.build n : Exec HiveError Bytes) = .ok image ∧
      Hive.fromBytes image = .ok hive ∧ hive.Shows b.registry b.IsBuilt := by
  obtain ⟨image, hbuild, himage⟩ := @build_holds b HiveError h n hn hsize
  exact ⟨image, b.hive image, hbuild, fromBytes_built hsize himage, shows_built h hsize himage⟩

end Shown

end Winreg.TestUtil
