/-
  THE ACTIVE CONTROL SET: what three readers of a SYSTEM hive make of it.

  `Select\Current` names the control set that was active.  The services, the shim cache and the
  expansion of `CurrentControlSet` each look it up on their own.

  1. **Looking up** — opening a path is going down from the root, one part after the other.
  2. **The number** — each of them finds the one in `Select`.
  3. **The readers** — the services and the expansion go to that set, whatever else is there; the
     shim cache goes to a key that is called `CurrentControlSet` first, if there is one with a cache
     (`activeSet_readers`, `shimcache_reads_decoy`).
-/
import Winreg.Artifacts.Callbacks
import Winreg.Artifacts.Shimcache
import Winreg.Artifacts.SvcDiff
import Winreg.Core.Image
import Winreg.Core.PathCompose
import Winreg.Format.Records

namespace Winreg

open Rust

namespace PathExpansion

/-- A hive with an active control set: the number that `Select\Current` holds, the set with that
    number, and two keys below it. -/
structure ActiveSet (hive : Hive) (root : Key) (number : UInt32) (set services cache : Key) :
    Prop where
  opens : hive.rootKey = .ok root
  findsSelect : ∃ (sel : Key) (v : Value) (data : Bytes),
    Exec.Evals (fun n => root.subkey hive.reader n "Select".toList) (.ok (some sel)) ∧
    sel.value hive.reader "Current".toList = .ok (some v) ∧ v.dataType = .dword ∧
    v.rawData hive.reader = .ok data ∧ 4 ≤ data.length ∧ u32At data 0 = number
  positive : number ≠ 0
  findsSet : Exec.Evals (fun n => root.subkey hive.reader n (controlSetName number.toNat))
    (.ok (some set))
  findsServices : Exec.Evals (fun n => set.subkey hive.reader n "Services".toList)
    (.ok (some services))
  findsCache : ∃ control manager : Key,
    Exec.Evals (fun n => set.subkey hive.reader n "Control".toList) (.ok (some control)) ∧
    Exec.Evals (fun n => control.subkey hive.reader n "Session Manager".toList)
      (.ok (some manager)) ∧
    Exec.Evals (fun n => manager.subkey hive.reader n "AppCompatCache".toList) (.ok (some cache))

/-! ## Looking up -/

/-- The name of a control set is one path component. -/
theorem not_mem_controlSetName (n : Nat) : '\\' ∉ controlSetName n := by
  intro h
  unfold controlSetName pad3 at h
  rcases List.mem_append.mp h with h | h
  · revert h
    decide
  rcases List.mem_append.mp h with h | h
  · cases (List.mem_replicate.mp h).2
  · have := Nat.isDigit_of_mem_toDigits (by decide) (by decide) h
    revert this
    decide

/-- And not an empty one. -/
theorem controlSetName_ne_nil (n : Nat) : controlSetName n ≠ [] :=
  List.append_ne_nil_of_left_ne_nil (by decide) _

section Open

variable {hive : Hive} {root : Key}

/-- Opening a path with at least one part is walking down from the root. -/
theorem openKey_eq_descend (hroot : hive.rootKey = .ok root) {path part : Str} {parts : List Str}
    (hparts : Key.pathParts path = part :: parts) (n : Nat) :
    hive.openKey n path = Key.descend hive.reader n root (part :: parts) := by
  rw [Hive.openKey, hroot, Exec.ok_bind, Key.subkeyPath, hparts]

/-- One step of a way down, and the rest of it. -/
theorem descend_evals {r : CellReader} {key next : Key} {part : Str} {parts : List Str}
    {x : Exec HiveError (Option Key)}
    (hpart : Exec.Evals (fun n => key.subkey r n part) (.ok (some next)))
    (hparts : Exec.Evals (fun n => Key.descend r n next parts) x) :
    Exec.Evals (fun n => Key.descend r n key (part :: parts)) x :=
  Exec.Evals.bind hpart hparts

/-- The way down has come to its end. -/
theorem descend_nil_evals (r : CellReader) (key : Key) :
    Exec.Evals (fun n => Key.descend r n key []) (.ok (some key)) := Exec.Evals.const _

/-- The first path that opens is the one. -/
theorem openFirst_of_opens {n : Nat} {path : Str} {key : Key}
    (h : hive.openKey n path = .ok (some key)) (paths : List Str) :
    hive.openFirst n (path :: paths) = .ok (some key) := by
  rw [Hive.openFirst, h]
  rfl

variable {number : UInt32} {set services cache : Key}

/-- The key `Select` opens, and its value `Current` holds the number. -/
theorem ActiveSet.openSelect (active : ActiveSet hive root number set services cache) :
    ∃ (sel : Key) (v : Value) (data : Bytes),
      Exec.Evals (fun n => hive.openKey n "Select".toList) (.ok (some sel)) ∧
      sel.value hive.reader "Current".toList = .ok (some v) ∧
      v.rawData hive.reader = .ok data ∧ 4 ≤ data.length ∧ u32At data 0 = number := by
  obtain ⟨sel, v, data, hsel, hv, _, hdata⟩ := active.findsSelect
  refine ⟨sel, v, data, ?_, hv, hdata⟩
  exact (descend_evals hsel (descend_nil_evals _ sel)).congr
    (openKey_eq_descend active.opens (show Key.pathParts _ = ["Select".toList] by decide))

/-- The services of the active set open by their path. -/
theorem ActiveSet.openServices (active : ActiveSet hive root number set services cache) :
    Exec.Evals (fun n => hive.openKey n (controlSetName number.toNat ++ "\\Services".toList))
      (.ok (some services)) := by
  have hdown := descend_evals active.findsSet
    (descend_evals active.findsServices (descend_nil_evals _ services))
  exact hdown.congr (openKey_eq_descend active.opens
    (Key.pathParts_cons (controlSetName_ne_nil _) (not_mem_controlSetName _) "Services".toList))

/-- So does its cache. -/
theorem ActiveSet.openCache (active : ActiveSet hive root number set services cache) :
    Exec.Evals (fun n => hive.openKey n
      (controlSetName number.toNat ++ '\\' :: Shimcache.appcompatSuffix)) (.ok (some cache)) := by
  obtain ⟨control, manager, hcontrol, hmanager, hcache⟩ := active.findsCache
  have hdown := descend_evals active.findsSet (descend_evals hcontrol (descend_evals hmanager
    (descend_evals hcache (descend_nil_evals _ cache))))
  refine hdown.congr (openKey_eq_descend active.opens ?_)
  have hsuffix : Key.pathParts Shimcache.appcompatSuffix =
      ["Control".toList, "Session Manager".toList, "AppCompatCache".toList] := by decide
  rw [Key.pathParts_cons (controlSetName_ne_nil _) (not_mem_controlSetName _), hsuffix]

/-! ## The number -/

/-- Four readable bytes are a number. -/
theorem asU32_of_rawData {r : CellReader} {v : Value} {data : Bytes} (h : v.rawData r = .ok data)
    (hlen : 4 ≤ data.length) : v.asU32 r = .ok (u32At data 0) := by
  rw [Value.asU32, h, Exec.ok_bind, if_neg (Nat.not_lt.mpr hlen)]

/-- The same where the value is looked up first. -/
theorem numberValue_of_rawData {r : CellReader} {key : Key} {name : Str} {v : Value} {data : Bytes}
    (hv : key.value r name = .ok (some v)) (hdata : v.rawData r = .ok data)
    (hlen : 4 ≤ data.length) : SvcDiff.numberValue r key name = .ok (some (u32At data 0)) := by
  unfold SvcDiff.numberValue
  rw [hv, Exec.attempt_ok, Exec.ok_bind]
  dsimp only
  rw [asU32_of_rawData hdata hlen, Exec.attempt_ok, Exec.ok_bind]
  rfl

/-- The reader of the cache takes the number of the active set. -/
theorem ActiveSet.shimcache_select (active : ActiveSet hive root number set services cache) :
    Exec.Evals (Shimcache.selectCurrent hive) (.ok number) := by
  obtain ⟨sel, v, data, hsel, hv, hdata, hlen, hnumber⟩ := active.openSelect
  refine Exec.Evals.bind hsel.attempt ⟨0, fun n _ => ?_⟩
  dsimp only
  rw [hv, Exec.attempt_ok, Exec.ok_bind]
  dsimp only
  rw [hdata, Exec.attempt_ok, Exec.ok_bind]
  dsimp only
  rw [if_pos hlen, hnumber]

/-- The reader of the services takes the same number. -/
theorem ActiveSet.svcDiff_select (active : ActiveSet hive root number set services cache) :
    Exec.Evals (SvcDiff.selectActive hive) (.ok number) := by
  obtain ⟨sel, v, data, hsel, hv, hdata, hlen, hnumber⟩ := active.openSelect
  refine Exec.Evals.bind hsel.attempt ⟨0, fun n _ => ?_⟩
  dsimp only
  rw [numberValue_of_rawData hv hdata hlen, Exec.ok_bind, hnumber]
  rfl

/-- A catalog scan expands the control set to the active one alone. -/
theorem ActiveSet.resolve (active : ActiveSet hive root number set services cache) :
    Exec.Evals (fun n => resolveControlSets hive.reader n root)
      (.ok ⟨[controlSetName number.toNat]⟩) := by
  obtain ⟨sel, v, data, hsel, hv, _, hdata, hlen, hu32⟩ := active.findsSelect
  have hnumber : Exec.Evals (fun n => currentControlSetNumber hive.reader n root)
      (.ok (some number)) := by
    refine Exec.Evals.bind hsel.attempt ⟨0, fun n _ => ?_⟩
    dsimp only
    rw [hv, Exec.attempt_ok, Exec.ok_bind]
    dsimp only
    rw [asU32_of_rawData hdata hlen, hu32, Exec.attempt_ok, Exec.ok_bind]
    dsimp only
    rw [if_neg active.positive]
  exact Exec.Evals.bind hnumber (Exec.Evals.const _)

/-! ## The readers -/

/-- The services come from the set: its path is the first that is tried. -/
theorem ActiveSet.svcDiff_parse {Timestamp : Type} (jiff : Jiff Timestamp)
    (active : ActiveSet hive root number set services cache) :
    ∃ N, ∀ n, N ≤ n →
      SvcDiff.parse jiff hive n = SvcDiff.parseServices jiff hive.reader n services := by
  obtain ⟨N, hselect⟩ := active.svcDiff_select
  obtain ⟨M, hopen⟩ := active.openServices
  refine ⟨max N M, fun n hn => ?_⟩
  unfold SvcDiff.parse SvcDiff.candidates
  rw [hselect n (Nat.le_trans (Nat.le_max_left N M) hn), Exec.ok_bind,
    openFirst_of_opens (hopen n (Nat.le_trans (Nat.le_max_right N M) hn)), Exec.ok_bind]

/-- The cache comes from the key below `CurrentControlSet`, and from the set if there is none. -/
theorem ActiveSet.shimcache_parse {Timestamp : Type} (jiff : Jiff Timestamp)
    (active : ActiveSet hive root number set services cache) :
    ∃ N, ∀ n, N ≤ n → Shimcache.parse jiff hive n =
      ((hive.openKey n ("CurrentControlSet\\".toList ++ Shimcache.appcompatSuffix)).attempt >>=
        fun found => match found with
          | .ok (some live) => Shimcache.parseKey jiff hive.reader live
          | _ => Shimcache.parseKey jiff hive.reader cache) := by
  obtain ⟨N, hselect⟩ := active.shimcache_select
  obtain ⟨M, hopen⟩ := active.openCache
  refine ⟨max N M, fun n hn => ?_⟩
  have hset := openFirst_of_opens (hopen n (Nat.le_trans (Nat.le_max_right N M) hn))
    ["ControlSet001\\".toList ++ Shimcache.appcompatSuffix]
  unfold Shimcache.parse Shimcache.candidates
  rw [hselect n (Nat.le_trans (Nat.le_max_left N M) hn), Exec.ok_bind, Hive.openFirst, bind_assoc]
  refine congrArg _ (funext fun found => ?_)
  rcases found with e | _ | live
  · dsimp only
    rw [hset, Exec.ok_bind]
  · dsimp only
    rw [hset, Exec.ok_bind]
  · rfl

/-- A `CurrentControlSet` segment at the root goes to the subkey with the resolved name. -/
theorem expand_controlSet {σ : Type} {r : CellReader} {n : Nat} {root set : Key} {name : Str}
    (h : root.subkey r n name = .ok (some set)) (pattern : Str) (rest : List Segment)
    (emit : Emit σ) (out : σ) :
    expand r n root (.var .controlSet pattern :: rest) (some ⟨[name]⟩) emit out =
      (withBinding ⟨.controlSet, set.name⟩
        (walk r n (some ⟨[name]⟩) emit set rest set.name 1) ⟨0, [], out⟩ >>=
          fun s => .ok s.out) := by
  obtain ⟨children, hlist, hfind⟩ := Exec.bind_eq_ok.mp h
  have hsame : (children.find? fun child => eqIgnoreAsciiCase child.name name) = some set := by
    rw [← Exec.ok.inj hfind]
    congr 1
    funext child
    rw [Bool.eq_iff_iff, eqIgnoreAsciiCase_iff, decide_eq_true_iff, toAsciiUppercase_eq_iff]
  have hstart : ¬ (0 ≥ maxGlobMatches ∨ 0 > maxGlobDepth) := by decide
  unfold expand
  rw [walk, dif_neg hstart, hlist, Exec.attempt_ok, Exec.ok_bind]
  dsimp only [Option.getD_some]
  rw [List.foldlM_cons, if_neg fun h => hstart (Or.inl h), hsame, bind_assoc]
  rfl

/-- A choice that, if it is one of a control set, has the name of the given one. -/
def Binding.goesTo (name : Str) (b : Binding) : Bool :=
  b.kind ≠ .controlSet ∨ eqIgnoreAsciiCase b.value name

/-- The callback, after a check that all control sets chosen are the given one. -/
def asserting {σ : Type} (name : Str) (emit : Emit σ) : Emit σ := fun out bindings path key =>
  if bindings.all (·.goesTo name) then emit out bindings path key else .panic

/-- With one resolved name, no other control set is chosen anywhere in a template. -/
theorem expand_asserting {σ : Type} {r : CellReader} {n : Nat} {name : Str} (root : Key)
    (segments : List Segment) (emit : Emit σ) (out : σ) :
    expand r n root segments (some ⟨[name]⟩) (asserting name emit) out =
      expand r n root segments (some ⟨[name]⟩) emit out := by
  refine expand_congr (fun out bindings path key hmade => ?_) out
  have hall : bindings.all (·.goesTo name) = true := by
    rw [List.all_eq_true]
    intro b hb
    cases hmade b hb with
    | subkey => rfl
    | controlSet hset hname =>
      rw [List.mem_singleton.mp hset] at hname
      simp [Binding.goesTo, hname]
  rw [asserting, if_pos hall]

/-- **What the three readers make of the active control set.**  The services are those of the set,
    and `CurrentControlSet` segments of a template go to it; the shim cache is the one of the set
    unless there is a key for it below a key that is called `CurrentControlSet`. -/
theorem activeSet_readers {Timestamp : Type} (jiff : Jiff Timestamp)
    (active : ActiveSet hive root number set services cache) :
    (∃ N, ∀ n, N ≤ n →
      SvcDiff.parse jiff hive n = SvcDiff.parseServices jiff hive.reader n services) ∧
    (∃ N, ∀ n, N ≤ n → Shimcache.parse jiff hive n =
      ((hive.openKey n ("CurrentControlSet\\".toList ++ Shimcache.appcompatSuffix)).attempt >>=
        fun found => match found with
          | .ok (some live) => Shimcache.parseKey jiff hive.reader live
          | _ => Shimcache.parseKey jiff hive.reader cache)) ∧
    ∃ resolver : ControlSetResolver,
      Exec.Evals (fun n => resolveControlSets hive.reader n root) (.ok resolver) ∧
      (∀ (σ : Type) (emit : Emit σ) (out : σ) (n : Nat) (key : Key) (segments : List Segment),
        expand hive.reader n key segments (some resolver)
            (asserting (controlSetName number.toNat) emit) out =
          expand hive.reader n key segments (some resolver) emit out) ∧
      ∃ N, ∀ n, N ≤ n → ∀ (σ : Type) (emit : Emit σ) (out : σ) (pattern : Str)
        (rest : List Segment),
        expand hive.reader n root (.var .controlSet pattern :: rest) (some resolver) emit out =
          (withBinding ⟨.controlSet, set.name⟩
            (walk hive.reader n (some resolver) emit set rest set.name 1) ⟨0, [], out⟩ >>=
              fun s => .ok s.out) := by
  obtain ⟨N, hset⟩ := active.findsSet
  refine ⟨active.svcDiff_parse jiff, active.shimcache_parse jiff, _, active.resolve, ?_, N, ?_⟩
  · exact fun σ emit out n key segments => expand_asserting key segments emit out
  · exact fun n hn σ emit out pattern rest => expand_controlSet (hset n hn) pattern rest emit out

end Open

/-! ## A key that is called CurrentControlSet -/

/-- A key with a compressed name: where its subkeys and its value are listed, and its own place. -/
def compKey (flags : KeyFlags) (subkeyCount subkeysList valueCount valuesList : UInt32)
    (name : String) (offset : UInt32) : Key :=
  ⟨nkRecord flags subkeyCount subkeysList valueCount valuesList
    (name.toList.map fun c => UInt8.ofNat c.toNat), ⟨offset⟩⟩

/-- The root of the sample: two control sets and the selection. -/
def decoyRoot : Key := compKey ⟨0x24⟩ 3 112 0 0xFFFFFFFF "" 32
/-- The selection, which names the first set. -/
def decoySelect : Key := compKey ⟨0x20⟩ 0 0xFFFFFFFF 1 232 "Select" 144
/-- The active control set, with a cache and services. -/
def decoySet : Key := compKey ⟨0x20⟩ 2 368 0 0xFFFFFFFF "ControlSet001" 272
def decoyControl : Key := compKey ⟨0x20⟩ 1 480 0 0xFFFFFFFF "Control" 392
def decoyManager : Key := compKey ⟨0x20⟩ 1 592 0 0xFFFFFFFF "Session Manager" 496
def decoyCache : Key := compKey ⟨0x20⟩ 0 0xFFFFFFFF 1 704 "AppCompatCache" 608
def decoyServices : Key := compKey ⟨0x20⟩ 0 0xFFFFFFFF 0 0xFFFFFFFF "Services" 752
/-- A key that is called `CurrentControlSet`, which an offline hive does not have. -/
def liveSet : Key := compKey ⟨0x20⟩ 1 944 0 0xFFFFFFFF "CurrentControlSet" 840
def liveControl : Key := compKey ⟨0x20⟩ 1 1048 0 0xFFFFFFFF "Control" 960
def liveManager : Key := compKey ⟨0x20⟩ 1 1160 0 0xFFFFFFFF "Session Manager" 1064
def liveCache : Key := compKey ⟨0x20⟩ 0 0xFFFFFFFF 0 0xFFFFFFFF "AppCompatCache" 1176
/-- The number of the active set. -/
def decoyCurrent : Value :=
  ⟨⟨7, 0x80000004, 1, .dword, ⟨1⟩, [0x43, 0x75, 0x72, 0x72, 0x65, 0x6E, 0x74]⟩, ⟨240⟩⟩
/-- Four bytes of no known form. -/
def decoyBlob : Value :=
  ⟨⟨14, 0x80000004, 0, .binary, ⟨1⟩, [0x41, 0x70, 0x70, 0x43, 0x6F, 0x6D, 0x70, 0x61, 0x74,
    0x43, 0x61, 0x63, 0x68, 0x65]⟩, ⟨712⟩⟩

/-- A list of subkeys. -/
def leafBytes (offsets : List CellOffset) : Bytes :=
  0x6C :: 0x68 :: (u16Bytes (UInt16.ofNat offsets.length) ++
    offsets.flatMap fun off => LhElement.toBytes ⟨off, 0⟩)

/-- A body with zeros behind it. -/
def padded (body : Bytes) (n : Nat) : Bytes := body ++ List.replicate n 0

/-- The cells of the sample, one after the other. -/
def decoyBodies : List Bytes :=
  [decoyRoot.node.toBytes, leafBytes [⟨272⟩, ⟨840⟩, ⟨144⟩],
   padded decoySelect.node.toBytes 2, u32Bytes 240, padded (decoyCurrent.vk.toBytes 4 0) 1,
   padded decoySet.node.toBytes 3, leafBytes [⟨392⟩, ⟨752⟩],
   padded decoyControl.node.toBytes 1, leafBytes [⟨496⟩],
   padded decoyManager.node.toBytes 1, leafBytes [⟨608⟩],
   padded decoyCache.node.toBytes 2, u32Bytes 712, padded (decoyBlob.vk.toBytes 3 0) 2,
   decoyServices.node.toBytes,
   padded liveSet.node.toBytes 7, leafBytes [⟨960⟩],
   padded liveControl.node.toBytes 1, leafBytes [⟨1064⟩],
   padded liveManager.node.toBytes 1, leafBytes [⟨1176⟩], padded liveCache.node.toBytes 2]

/-- The active set `ControlSet001` has services and a cache; beside it is a `CurrentControlSet`
    whose cache has no value. -/
def decoyHive : Hive := oneBinHive 32 (allocatedCells decoyBodies)

/-- The lengths of the records, cell by cell. -/
def decoyLengths : List Nat :=
  [76, 28, 84, 4, 28, 92, 20, 84, 12, 92, 12, 92, 4, 36, 84, 100, 12, 84, 12, 92, 12, 92]

/-- Their lengths, from which the offsets follow. -/
theorem length_decoyBodies : decoyBodies.map List.length = decoyLengths := by decide +kernel

/-- Where cell `j` is. -/
def decoyOffset (j : Nat) : Nat := 32 + ((decoyLengths.take j).map (· + 4)).sum

/-- The offset of a cell is the sum of the cells before it. -/
theorem decoyOffset_eq (j : Nat) :
    decoyOffset j = 32 + (allocatedCells (decoyBodies.take j)).length := by
  rw [length_allocatedCells, List.map_take, length_decoyBodies]
  rfl

/-- The cells fit into the bin. -/
theorem length_decoyCells : (allocatedCells decoyBodies).length ≤ 4064 := by
  rw [length_allocatedCells, length_decoyBodies]
  decide

/-- Where the records of the keys are. -/
def decoyKeys : List (Nat × Key) :=
  [(0, decoyRoot), (2, decoySelect), (5, decoySet), (7, decoyControl), (9, decoyManager),
   (11, decoyCache), (14, decoyServices), (15, liveSet), (17, liveControl), (19, liveManager),
   (21, liveCache)]

/-- Each key of the sample is read from its cell. -/
theorem decoy_atOffset {key : Key} (h : key ∈ decoyKeys.map Prod.snd) :
    key.AtOffset decoyHive.reader := by
  have hoffsets : ∀ x ∈ decoyKeys, x.2.offset.val.toNat = decoyOffset x.1 := by decide
  have hparsed : ∀ x ∈ decoyKeys, KeyFlags.fromBitsTruncate x.2.node.flags.bits = x.2.node.flags ∧
      x.2.node.keyNameRaw.length = x.2.node.keyNameLen.toNat := by decide
  have hbodies : ∀ x ∈ decoyKeys, ∃ tail,
      decoyBodies[x.1]? = some (x.2.node.toBytes ++ tail) := by
    simp only [decoyKeys, List.forall_mem_cons]
    exact ⟨⟨[], congrArg some (List.append_nil _).symm⟩, ⟨_, rfl⟩, ⟨_, rfl⟩, ⟨_, rfl⟩, ⟨_, rfl⟩,
      ⟨_, rfl⟩, ⟨[], congrArg some (List.append_nil _).symm⟩, ⟨_, rfl⟩, ⟨_, rfl⟩, ⟨_, rfl⟩,
      ⟨_, rfl⟩, fun _ hnil => absurd hnil List.not_mem_nil⟩
  obtain ⟨⟨i, key⟩, hmem, rfl⟩ := List.mem_map.mp h
  obtain ⟨tail, hbody⟩ := hbodies _ hmem
  obtain ⟨hflags, hname⟩ := hparsed _ hmem
  exact Hive.readCell_allocatedCells 32 i length_decoyCells hbody
    ((hoffsets _ hmem).trans (decoyOffset_eq i))
    (dispatchCell_keyNode (RawKeyNode.parse_fieldBytes tail hflags hname) _)

/-- A list of offsets is read back. -/
theorem dispatchCell_leafBytes (off : CellOffset) {offsets : List CellOffset}
    (hcount : offsets.length < 65536) : dispatchCell off (leafBytes offsets) =
      .ok (.index (.hashLeaf (offsets.map fun kid => ⟨kid, 0⟩))) := by
  have hparse : SubkeyIndex.parseLh (u16Bytes (UInt16.ofNat offsets.length) ++
      offsets.flatMap fun off => LhElement.toBytes ⟨off, 0⟩) =
        some (.hashLeaf (offsets.map fun kid => ⟨kid, 0⟩)) := by
    have helements : (offsets.map fun kid => (⟨kid, 0⟩ : LhElement)).length < 65536 := by
      rwa [List.length_map]
    have hlaid := SubkeyIndex.parseLh_eq_some [] helements
    rwa [List.append_nil, List.length_map, List.flatMap_map] at hlaid
  exact dispatchCell_hashLeaf hparse off

/-- The subkeys of a key of the hive whose listing is cell `j`. -/
theorem decoy_subkeys {key : Key} {kids : List Key} (hkey : key.ListsSubkeys) (j : Nat)
    (hlist : decoyBodies[j]? = some (leafBytes (kids.map Key.offset)))
    (hoff : key.node.subkeysListOffset.val.toNat = decoyOffset j)
    (hcount : kids.length < 65536) (hkids : ∀ kid ∈ kids, kid ∈ decoyKeys.map Prod.snd) :
    Exec.Evals (fun n => key.subkeys decoyHive.reader n) (.ok kids) := by
  have hread := Hive.readCell_allocatedCells 32 j length_decoyCells hlist
    (hoff.trans (decoyOffset_eq j)) (dispatchCell_leafBytes _ (by rwa [List.length_map]))
  have hoffsets :
      (Cell.index (.hashLeaf ((kids.map Key.offset).map fun kid => ⟨kid, 0⟩))).leafOffsets =
        some (kids.map Key.offset) := by
    simp [Cell.leafOffsets, Function.comp_def]
  refine subkeys_of_listed hkey (.leaf hread hoffsets) ?_
  rw [List.forall₂_map_left_iff, List.forall₂_same]
  exact fun kid hkid => ⟨rfl, decoy_atOffset (hkids kid hkid)⟩

/-- A lookup finds the first listed subkey of the name. -/
theorem subkey_evals {r : CellReader} {key kid : Key} {kids : List Key} {name : Str}
    (hlist : Exec.Evals (fun n => key.subkeys r n) (.ok kids))
    (hfind : (kids.find? fun kid => toAsciiUppercase kid.name = toAsciiUppercase name) = some kid) :
    Exec.Evals (fun n => key.subkey r n name) (.ok (some kid)) :=
  Exec.Evals.bind hlist ⟨0, fun _ _ => congrArg Exec.ok hfind⟩

theorem decoy_root : decoyHive.rootKey = .ok decoyRoot :=
  Hive.rootKey_eq (decoy_atOffset (by decide)) rfl

/-- The value of a key of the hive whose list is cell `j`. -/
theorem decoy_values {key : Key} {v : Value} (j : Nat) (hcount : key.node.valueCount = 1)
    (hnull : key.node.valuesListOffset.isNull = false)
    (hlist : decoyBodies[j]? = some (u32Bytes v.offset.val))
    (hoff : key.node.valuesListOffset.val.toNat = decoyOffset j)
    (hvalue : decoyHive.reader.readCell v.offset = .ok (.keyValue v.vk)) :
    key.values decoyHive.reader = .ok [v] := by
  have hread := Hive.readCellRaw_allocatedCells 32 j length_decoyCells hlist
    (hoff.trans (decoyOffset_eq j))
  refine values_of_listed (by rw [hcount]; rfl) (by simp) hnull hread (Nat.le_refl _) fun i hi => ?_
  obtain rfl : i = 0 := by simpa using hi
  have hu32 : leU32 (u32Bytes v.offset.val) 0 = v.offset.val := by
    rw [leU32_eq_u32At (Nat.le_refl 4)]
    exact u32At_of_bytesAt (bytesAt_zero_of_length_le (Nat.le_refl 4))
  exact ⟨congrArg CellOffset.mk hu32.symm, hvalue⟩

/-- The values of the two keys that have one. -/
theorem decoy_listedValues :
    decoySelect.values decoyHive.reader = .ok [decoyCurrent] ∧
    decoyCache.values decoyHive.reader = .ok [decoyBlob] := by
  have hcurrent : decoyHive.reader.readCell decoyCurrent.offset = .ok (.keyValue decoyCurrent.vk) :=
    Hive.readCell_allocatedCells 32 4 length_decoyCells rfl (decoyOffset_eq 4) (by decide)
  have hblob : decoyHive.reader.readCell decoyBlob.offset = .ok (.keyValue decoyBlob.vk) :=
    Hive.readCell_allocatedCells 32 13 length_decoyCells rfl (decoyOffset_eq 13) (by decide)
  exact ⟨decoy_values 3 rfl rfl rfl (by decide) hcurrent,
    decoy_values 12 rfl rfl rfl (by decide) hblob⟩

/-- The subkeys of the root, in order. -/
theorem decoy_rootSubkeys : Exec.Evals (fun n => decoyRoot.subkeys decoyHive.reader n)
    (.ok [decoySet, liveSet, decoySelect]) :=
  decoy_subkeys ⟨by decide, by decide⟩ 1 rfl (by decide) (by decide) (by decide)

theorem decoy_setSubkeys : Exec.Evals (fun n => decoySet.subkeys decoyHive.reader n)
    (.ok [decoyControl, decoyServices]) :=
  decoy_subkeys ⟨by decide, by decide⟩ 6 rfl (by decide) (by decide) (by decide)

/-- `ControlSet001` is the active set, with services and a cache. -/
theorem decoy_active : ActiveSet decoyHive decoyRoot 1 decoySet decoyServices decoyCache where
  opens := decoy_root
  findsSelect := by
    refine ⟨decoySelect, decoyCurrent, u32Bytes 1, subkey_evals decoy_rootSubkeys (by decide), ?_,
      rfl, rfl, Nat.le_refl 4, rfl⟩
    unfold Key.value
    rw [decoy_listedValues.1]
    rfl
  positive := by decide
  findsSet := subkey_evals decoy_rootSubkeys (by decide)
  findsServices := subkey_evals decoy_setSubkeys (by decide)
  findsCache := by
    have hcontrol : Exec.Evals (fun n => decoyControl.subkeys decoyHive.reader n)
        (.ok [decoyManager]) :=
      decoy_subkeys ⟨by decide, by decide⟩ 8 rfl (by decide) (by decide) (by decide)
    have hmanager : Exec.Evals (fun n => decoyManager.subkeys decoyHive.reader n)
        (.ok [decoyCache]) :=
      decoy_subkeys ⟨by decide, by decide⟩ 10 rfl (by decide) (by decide) (by decide)
    exact ⟨decoyControl, decoyManager, subkey_evals decoy_setSubkeys (by decide),
      subkey_evals hcontrol (by decide), subkey_evals hmanager (by decide)⟩

/-- The cache that the shim cache is read from. -/
theorem decoy_openLive : Exec.Evals (fun n => decoyHive.openKey n
    ("CurrentControlSet\\".toList ++ Shimcache.appcompatSuffix)) (.ok (some liveCache)) := by
  have hparts : Key.pathParts ("CurrentControlSet\\".toList ++ Shimcache.appcompatSuffix) =
      ["CurrentControlSet".toList, "Control".toList, "Session Manager".toList,
        "AppCompatCache".toList] := by decide
  have hset : Exec.Evals (fun n => liveSet.subkeys decoyHive.reader n) (.ok [liveControl]) :=
    decoy_subkeys ⟨by decide, by decide⟩ 16 rfl (by decide) (by decide) (by decide)
  have hcontrol : Exec.Evals (fun n => liveControl.subkeys decoyHive.reader n)
      (.ok [liveManager]) :=
    decoy_subkeys ⟨by decide, by decide⟩ 18 rfl (by decide) (by decide) (by decide)
  have hmanager : Exec.Evals (fun n => liveManager.subkeys decoyHive.reader n)
      (.ok [liveCache]) :=
    decoy_subkeys ⟨by decide, by decide⟩ 20 rfl (by decide) (by decide) (by decide)
  refine Exec.Evals.congr ?_ (openKey_eq_descend decoy_root hparts)
  exact descend_evals (subkey_evals decoy_rootSubkeys (by decide)) <|
    descend_evals (subkey_evals hset (by decide)) <|
    descend_evals (subkey_evals hcontrol (by decide)) <|
    descend_evals (subkey_evals hmanager (by decide)) (descend_nil_evals _ liveCache)

/-- A time library for a hive without times. -/
def noTimes : Jiff Int := ⟨some, fun _ => none⟩

/-- The sample has an active set, and the readers of services and of the catalog use it in spite of
    the decoy. -/
theorem activeSet_readers_decoy :
    ActiveSet decoyHive decoyRoot 1 decoySet decoyServices decoyCache ∧
    ∃ N, ∀ n, N ≤ n → SvcDiff.parse noTimes decoyHive n =
      SvcDiff.parseServices noTimes decoyHive.reader n decoyServices :=
  ⟨decoy_active, (activeSet_readers noTimes decoy_active).1⟩

/-- **The shim cache is read from another set than the active one**: the blob of `ControlSet001`,
    which `Select` names, has an entry, and the run finds none. -/
theorem shimcache_reads_decoy :
    Hive.fromBytes (oneBinImage 32 (allocatedCells decoyBodies)) = .ok decoyHive ∧
    ActiveSet decoyHive decoyRoot 1 decoySet decoyServices decoyCache ∧
    Shimcache.parseKey noTimes decoyHive.reader decoyCache = .ok [⟨[], none, 4, 0⟩] ∧
    Exec.Evals (Shimcache.parse noTimes decoyHive) (.ok []) := by
  refine ⟨Hive.fromBytes_oneBinImage length_decoyCells, decoy_active, ?_, ?_⟩
  · have hvalue : decoyCache.value decoyHive.reader "AppCompatCache".toList =
        .ok (some decoyBlob) := by
      unfold Key.value
      rw [decoy_listedValues.2]
      rfl
    have hblob : decoyBlob.rawData decoyHive.reader = .ok (u32Bytes 0) := rfl
    unfold Shimcache.parseKey
    rw [hvalue, Exec.attempt_ok, Exec.ok_bind]
    dsimp only
    rw [hblob, Exec.attempt_ok, Exec.ok_bind]
    rfl
  · obtain ⟨N, hparse⟩ := decoy_active.shimcache_parse noTimes
    obtain ⟨M, hopen⟩ := decoy_openLive
    refine ⟨max N M, fun n hn => ?_⟩
    rw [hparse n (Nat.le_trans (Nat.le_max_left N M) hn)]
    have hlive := hopen n (Nat.le_trans (Nat.le_max_right N M) hn)
    dsimp only at hlive
    rw [hlive]
    rfl

end PathExpansion

end Winreg
