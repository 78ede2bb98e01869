/-
  WHAT A SCAN FINDS: the hits of a catalog in the registry that a hive shows.

  1. **Related graphs** — a template has the same derivations in two graphs whose vertices are
     related and have related children (`derivations_rel`); what holds of all derivations is shown
     name by name (`forall_derivations`).
  2. **Hits of a registry** — what `scan` finds, without cells and errors: `reg.scanHits`.
  3. **The scan** — where the paths of the catalog are cut between characters, a scan of a hive that
     shows a registry finds the hits of the registry, which are those that a descriptor finds there
     (`scan_finds`).
  4. **Evidence** — where siblings have different names, every hit can be looked up again: its path
     opens the key, and a value of that key is what the hit says (`scan_reproducible`).
-/
import Winreg.Artifacts.Findings
import Winreg.Artifacts.Splits
import Winreg.Artifacts.CatalogScan
import Winreg.TestUtil.Lookup

namespace Winreg

open Rust Relation Exec

namespace PathExpansion

/-! ## Related graphs -/

section Related

variable {V W : Type} {R : V → W → Prop}

/-- The same choices and names, and related vertices. -/
structure Derivation.Rel (R : V → W → Prop) (d : Derivation V) (d' : Derivation W) : Prop where
  bindings : d.bindings = d'.bindings
  names : d.names = d'.names
  key : R d.key d'.key

/-- Related options are related as lists. -/
theorem forall₂_toList {o : Option V} {o' : Option W} (h : Option.Rel R o o') :
    List.Forall₂ R o.toList o'.toList := by
  cases h with
  | none => exact .nil
  | some h => exact .cons h .nil

variable {name : V → Str} {name' : W → Str} {children : V → List V} {children' : W → List W}
  {sets : List Str} (hname : ∀ v w, R v w → name v = name' w)
  (hchildren : ∀ v w, R v w → List.Forall₂ R (children v) (children' w))

include hname hchildren

/-- Where names and children agree the same child is found first. -/
theorem firstNamed_rel {v : V} {w : W} (h : R v w) (n : Str) :
    Option.Rel R (firstNamed name children v n) (firstNamed name' children' w n) :=
  forall₂_find? (hchildren v w h) fun a b hab => by rw [hname a b hab]

open Classical in
/-- And the same children pass a segment. -/
theorem chosen_rel {v : V} {w : W} (h : R v w) (segment : Segment) : List.Forall₂ R
    (chosen name children sets v segment) (chosen name' children' sets w segment) := by
  unfold chosen
  split
  · exact forall₂_toList (firstNamed_rel hname hchildren h _)
  · exact List.rel_flatMap (List.forall₂_same.mpr fun _ _ => rfl) fun n _ hn =>
      hn ▸ forall₂_toList (firstNamed_rel hname hchildren h n)
  · rename_i pattern
    refine List.rel_filter (fun a b hab => ?_) (hchildren v w h)
    have hglob : Globbed name pattern a ↔ Globbed name' pattern b := by
      unfold Globbed
      rw [hname a b hab]
    exact decide_eq_true_iff.trans (hglob.trans decide_eq_true_iff.symm)
  · exact .nil

omit hchildren in
/-- Related keys with related derivations below them have related derivations. -/
theorem behind_rel (segment : Segment) {below : V → List (Derivation V)}
    {below' : W → List (Derivation W)} {passed : List V} {passed' : List W}
    (hbelow : ∀ v w, R v w → List.Forall₂ (Derivation.Rel R) (below v) (below' w))
    (hpassed : List.Forall₂ R passed passed') :
    List.Forall₂ (Derivation.Rel R) (behind name segment below passed)
      (behind name' segment below' passed') := by
  refine List.rel_flatMap hpassed fun v w hvw => ?_
  rw [List.forall₂_map_left_iff, List.forall₂_map_right_iff, hname v w hvw]
  refine (hbelow v w hvw).imp fun d d' hd => ⟨?_, ?_, hd.key⟩
  · exact congrArg _ hd.bindings
  · exact congrArg _ hd.names

/-- **The derivations in related graphs** are related, one by one. -/
theorem derivations_rel : ∀ (levels : Nat) {v : V} {w : W}, R v w → ∀ segments : List Segment,
    List.Forall₂ (Derivation.Rel R) (derivations name children sets levels v segments)
      (derivations name' children' sets levels w segments) := by
  intro levels
  induction levels with
  | zero =>
    intro v w _ segments
    rw [derivations, derivations]
    exact .nil
  | succ levels ih =>
    intro v w h segments
    induction segments with
    | nil =>
      rw [derivations, derivations]
      exact .cons ⟨rfl, rfl, h⟩ .nil
    | cons segment rest ihrest =>
      by_cases hdeep : segment.isDeep = true
      · rw [derivations_deep hdeep, derivations_deep hdeep]
        exact List.rel_append ihrest
          (behind_rel hname segment (fun _ _ hab => ih hab _) (hchildren v w h))
      · rw [derivations_cons hdeep, derivations_cons hdeep]
        exact behind_rel hname segment (fun _ _ hab => ih hab rest)
          (chosen_rel hname hchildren h segment)

end Related

/-! ## All derivations -/

section Derived

variable {V : Type} {name : V → Str} {children : V → List V} {sets : List Str}
  {P : V → Derivation V → Prop} (found : ∀ v, P v ⟨[], [], v⟩)
  (below : ∀ v, ∀ child ∈ children v, ∀ segment : Segment,
    (∀ pattern, segment ≠ .var .user pattern) →
    ∀ d, P child d → P v (.below (name child) (segment.choice (name child)) d))

include found below

/-- What holds of every derivation: of the one without names, and of one with a name more. -/
theorem forall_derivations : ∀ (levels : Nat) (v : V) (segments : List Segment),
    ∀ d ∈ derivations name children sets levels v segments, P v d := by
  intro levels
  induction levels with
  | zero =>
    intro v segments d hd
    rw [derivations] at hd
    cases hd
  | succ levels ih =>
    intro v segments
    -- a derivation through a child, whatever segment the child is passed by
    have hbehind : ∀ (segment : Segment) (rest : List Segment) (passed : List V),
        (∀ child ∈ passed, child ∈ children v ∧ ∀ pattern, segment ≠ .var .user pattern) →
        ∀ d ∈ behind name segment (fun child => derivations name children sets levels child rest)
          passed, P v d := by
      intro segment rest passed hpassed d hd
      obtain ⟨child, hchild, hd⟩ := List.mem_flatMap.mp hd
      obtain ⟨d', hd', rfl⟩ := List.mem_map.mp hd
      obtain ⟨hmem, huser⟩ := hpassed child hchild
      exact below v child hmem segment huser d' (ih child rest d' hd')
    induction segments with
    | nil =>
      intro d hd
      rw [derivations] at hd
      rw [List.mem_singleton.mp hd]
      exact found v
    | cons segment rest ihrest =>
      intro d hd
      by_cases hdeep : segment.isDeep = true
      -- a deep segment is left at once, or kept for one level more
      · rw [derivations_deep hdeep] at hd
        rcases List.mem_append.mp hd with hd | hd
        · exact ihrest d hd
        · refine hbehind segment (segment :: rest) _ (fun child hchild => ⟨hchild, ?_⟩) d hd
          rintro pattern rfl
          cases hdeep
      · rw [derivations_cons hdeep] at hd
        refine hbehind segment rest _ (fun child hchild => ⟨mem_children_of_chosen hchild, ?_⟩) d hd
        rintro pattern rfl
        cases hchild

end Derived

end PathExpansion

/-- What is in a list that is there only with a value. -/
theorem mem_elim_nil {V W : Type} {o : Option V} {f : V → List W} {w : W} :
    w ∈ o.elim [] f ↔ ∃ v, o = some v ∧ w ∈ f v := by
  cases o with
  | none =>
    constructor
    · intro h
      cases h
    · rintro ⟨v, hv, _⟩
      cases hv
  | some v =>
    constructor
    · intro h
      exact ⟨v, rfl, h⟩
    · rintro ⟨v, hv, h⟩
      cases hv
      exact h

namespace Catalog

open PathExpansion TestUtil

variable {Timestamp : Type}

/-! ## Hits of a registry -/

/-- A shown value as the decoder says; and whether a specialized decoder should be consulted. -/
def render (jiff : Jiff Timestamp) (decoder : Decoder) (v : ShownValue) : Str × Bool :=
  let raw := v.data.getD []
  match decoder with
  | .identity | .utf16Le => (renderByValueType v.dataType raw, false)
  | .dwordLe => (decimal (v.number.getD 0).toNat, false)
  | .multiSz => ("; ".toList.intercalate (decodeMultiSz raw), false)
  | .filetimeAt offset =>
    let ts := ((getRange raw offset (offset + 8)).bind fun b =>
      filetimeToDatetime jiff (u64At b 0)).bind jiff.format
    (ts.getD [], false)
  | _ => (decodeUtf16le raw, true)

/-- The hit of a descriptor at a value. -/
def hitOf (jiff : Jiff Timestamp) (descriptor : ArtifactDescriptor) (keyPath valueName : Str)
    (v : ShownValue) (bindings : List Binding) (lastWritten : Option Timestamp) :
    CatalogHit Timestamp where
  catalogId := descriptor.id
  artifactName := descriptor.name
  meaning := descriptor.meaning
  keyPath := keyPath
  valueName := some valueName
  valueData := (render jiff descriptor.decoder v).1
  mitreTechniques := descriptor.mitreTechniques
  needsSpecializedDecoder := (render jiff descriptor.decoder v).2
  user := none
  bindings := bindings
  lastWritten := lastWritten

section Hits

variable (reg : Registry) (jiff : Jiff Timestamp)

/-- The hits at one key. -/
def hitsAt (descriptor : ArtifactDescriptor) (keyPath : Str) (bindings : List Binding)
    (a : reg.Node) : List (CatalogHit Timestamp) :=
  match descriptor.valueName with
  | some vname => (reg.value a vname).toList.map fun v =>
      hitOf jiff descriptor keyPath vname v bindings (reg.lastWritten jiff a)
  | none => (reg.valueList a).map fun v =>
      hitOf jiff descriptor keyPath v.name v bindings (reg.lastWritten jiff a)

/-- The derivations of a template that are handed on. -/
noncomputable def matchesOf (root : reg.Node) (sets : List Str) (segments : List Segment) :
    List (Derivation reg.Node) :=
  (derivations reg.name reg.subkeyList sets (maxGlobDepth + 1) root segments).take maxGlobMatches

/-- The hits of a descriptor with a template; bindings that are known go first. -/
noncomputable def descriptorHits (root : reg.Node) (sets : List Str) (known : List Binding)
    (descriptor : ArtifactDescriptor) (segments : List Segment) : List (CatalogHit Timestamp) :=
  (matchesOf reg root sets segments).flatMap fun d =>
    hitsAt reg jiff descriptor (emittedPath d.names) (known ++ d.bindings) d.key

/-- The number of the active control set. -/
def activeNumber (root : reg.Node) : Option UInt32 :=
  ((reg.subkey root "Select".toList).bind (reg.number · "Current".toList)).filter (· ≠ 0)

/-- The names that `CurrentControlSet` stands for. -/
def setsOf (target : HiveTarget) (root : reg.Node) : List Str :=
  if target = .hklmSystem then [controlSetName ((activeNumber reg root).getD 1).toNat]
  else ["ControlSet001".toList]

/-- The hive name in front of a path is redundant. -/
def stripsRoot (target : HiveTarget) : Bool := target = .hklmSoftware || target = .hklmSystem

/-- A descriptor that is looked for in a hive of this target. -/
def isAsked (target : HiveTarget) (descriptor : ArtifactDescriptor) : Bool :=
  isRegistry descriptor.artifactType && descriptor.hive = some target

/-- The template of a path, if its cuts do not abort. -/
def templateOf (path : Str) (stripHiveRoot : Bool) : Option (List Segment) :=
  match templateSegments path stripHiveRoot with
  | .ok template => template
  | _ => none

/-- The hits of a catalog below the root. -/
noncomputable def hitsBelow (catalog : List ArtifactDescriptor) (target : HiveTarget)
    (root : reg.Node) : List (CatalogHit Timestamp) :=
  catalog.flatMap fun descriptor =>
    if isAsked target descriptor then
      (templateOf descriptor.keyPath (stripsRoot target)).elim []
        (descriptorHits reg jiff root (setsOf reg target root) [] descriptor)
    else []

/-- The hits of a catalog. -/
noncomputable def scanHits (catalog : List ArtifactDescriptor) : List (CatalogHit Timestamp) :=
  (hiveTargetFor reg.hiveType).elim [] fun target =>
    reg.root.elim [] (hitsBelow reg jiff catalog target)

/-- A descriptor that is looked for in the hive finds a hit: it is at the key of one of the matches
    of the descriptor's template. -/
def FindsHit (descriptor : ArtifactDescriptor) (hit : CatalogHit Timestamp) : Prop :=
  ∃ target root segments, hiveTargetFor reg.hiveType = some target ∧ reg.root = some root ∧
    isAsked target descriptor ∧
    templateSegments descriptor.keyPath (stripsRoot target) = .ok (some segments) ∧
    ∃ d ∈ matchesOf reg root (setsOf reg target root) segments,
      hit ∈ hitsAt reg jiff descriptor (emittedPath d.names) d.bindings d.key

/-- The template of a path, where the path has one. -/
theorem templateOf_eq_some {path : Str} {stripHiveRoot : Bool} {segments : List Segment} :
    templateOf path stripHiveRoot = some segments ↔
      templateSegments path stripHiveRoot = .ok (some segments) := by
  unfold templateOf
  cases h : templateSegments path stripHiveRoot with
  | ok template =>
    constructor
    · intro hsome
      exact congrArg Exec.ok hsome
    · intro hok
      exact Exec.ok.inj hok
  | err e => exact ⟨nofun, nofun⟩
  | panic => exact ⟨nofun, nofun⟩
  | timeout => exact ⟨nofun, nofun⟩

/-- A hit of a descriptor comes from a value at the key of a derivation that is handed on. -/
theorem mem_descriptorHits {root : reg.Node} {sets : List Str} {descriptor : ArtifactDescriptor}
    {segments : List Segment} {hit : CatalogHit Timestamp} :
    hit ∈ descriptorHits reg jiff root sets [] descriptor segments ↔
      ∃ d ∈ matchesOf reg root sets segments,
        hit ∈ hitsAt reg jiff descriptor (emittedPath d.names) d.bindings d.key :=
  List.mem_flatMap

/-- The hits of a catalog are those that its descriptors find. -/
theorem mem_scanHits_iff {catalog : List ArtifactDescriptor} {hit : CatalogHit Timestamp} :
    hit ∈ scanHits reg jiff catalog ↔
      ∃ descriptor ∈ catalog, FindsHit reg jiff descriptor hit := by
  simp only [scanHits, hitsBelow, mem_elim_nil, List.mem_flatMap, List.mem_ite_nil_right,
    templateOf_eq_some, mem_descriptorHits]
  constructor
  · rintro ⟨target, htarget, root, hroot, descriptor, hd, hasked, segments, htemplate, hmatch⟩
    exact ⟨descriptor, hd, target, root, segments, htarget, hroot, hasked, htemplate, hmatch⟩
  · rintro ⟨descriptor, hd, target, root, segments, htarget, hroot, hasked, htemplate, hmatch⟩
    exact ⟨target, htarget, root, hroot, descriptor, hd, hasked, segments, htemplate, hmatch⟩

/-- The paths that are asked for are cut between characters. -/
def PathsReturn (catalog : List ArtifactDescriptor) : Prop :=
  ∀ target, hiveTargetFor reg.hiveType = some target → ∀ descriptor ∈ catalog,
    isAsked target descriptor →
      ∃ template, templateSegments descriptor.keyPath (stripsRoot target) = .ok template

end Hits

/-! ## The scan -/

section Scan

variable {hive : Hive} {reg : Registry} {rel : Key → reg.Node → Prop} (jiff : Jiff Timestamp)

/-- The text of a value depends on what is shown of it only. -/
theorem renderValue_eq (decoder : Decoder) {r : CellReader} {val : Value} {v : ShownValue}
    (h : ShowsValue r val v) : renderValue jiff r decoder val = .ok (render jiff decoder v) := by
  have hraw : (val.rawData r).unwrapOr [] = .ok (v.data.getD []) := h.data.unwrapOr []
  have hnumber : (val.asU32 r).unwrapOr 0 = .ok (v.number.getD 0) := h.asU32.unwrapOr 0
  unfold renderValue render
  rw [hraw, Exec.ok_bind, h.dataType]
  cases decoder with
  | dwordLe =>
    dsimp only
    rw [hnumber]
    rfl
  | _ => rfl

/-- So does the hit. -/
theorem makeHit_eq (descriptor : ArtifactDescriptor) (keyPath valueName : Str)
    (bindings : List Binding) (lastWritten : Option Timestamp) {r : CellReader} {val : Value}
    {v : ShownValue} (h : ShowsValue r val v) :
    makeHit jiff r descriptor keyPath (some valueName) val bindings lastWritten =
      .ok (hitOf jiff descriptor keyPath valueName v bindings lastWritten) := by
  unfold makeHit
  rw [renderValue_eq jiff descriptor.decoder h]
  rfl

variable (shows_ : hive.Shows reg rel)

include shows_

/-- The hits of a key are added behind those before: all of its values, or the ones of the asked
    name. -/
theorem emitKey_eq (descriptor : ArtifactDescriptor) (keyPath : Str) (bindings : List Binding)
    {key : Key} {a : reg.Node} (hkey : rel key a) (hits : List (CatalogHit Timestamp)) :
    emitKey jiff hive.reader descriptor keyPath key bindings hits =
      .ok (hits ++ hitsAt reg jiff descriptor keyPath bindings a) := by
  unfold emitKey hitsAt
  rw [shows_.lastWritten jiff hkey]
  cases descriptor.valueName with
  | some vname =>
    have hfinds := (shows_.value hkey vname).finds
    dsimp only
    generalize key.value hive.reader vname = x, reg.value a vname = o at hfinds
    cases hfinds with
    | @found val v hv =>
      show (makeHit _ _ _ _ _ _ _ _ >>= fun hit => .ok (hits ++ [hit])) = _
      rw [makeHit_eq jiff descriptor keyPath vname bindings _ hv]
      rfl
    | missing => exact congrArg Exec.ok (List.append_nil hits).symm
    | error e => exact congrArg Exec.ok (List.append_nil hits).symm
  | none =>
    have hkeeps := shows_.values hkey
    dsimp only
    unfold Registry.valueList
    generalize key.values hive.reader = x, reg.values a = o at hkeeps
    cases hkeeps with
    | @value vals values hvals =>
      have hloop := Evals.push hvals (f := fun _ val => makeHit jiff hive.reader descriptor keyPath
          (some val.name) val bindings (reg.lastWritten jiff a))
        (g := fun v => hitOf jiff descriptor keyPath v.name v bindings (reg.lastWritten jiff a))
        (fun val v hv => by
          rw [makeHit_eq jiff descriptor keyPath _ bindings _ hv, hv.name]
          exact .const _) hits
      exact (Evals.const _).unique hloop
    | error e => exact congrArg Exec.ok (List.append_nil hits).symm

/-- The children in the graph of the hive are the subkeys that are shown. -/
theorem graphChildren {root k : Key} {b : reg.Node} (graph : KeyGraph hive.reader root)
    (hreach : ReflTransGen (Kids hive.reader) root k) (hrel : rel k b) :
    List.Forall₂ (fun k b => ReflTransGen (Kids hive.reader) root k ∧ rel k b)
      (graph.children k) (reg.subkeyList b) := by
  obtain ⟨x, hx, hkeeps⟩ := shows_.subkeys hrel
  unfold Registry.subkeyList
  generalize reg.subkeys b = o at hkeeps
  cases hkeeps with
  | @value kids nodes hkids =>
    rw [graph.children_eq hreach hx, Option.getD_some]
    refine (List.forall₂_and_left _ _).mpr ⟨fun kid hkid => ?_, hkids⟩
    exact hreach.tail ⟨kids, hx, hkid⟩
  | error e =>
    rcases graph.lists k hreach with hlist | ⟨hnil, _⟩
    · cases hlist.unique hx
    · rw [hnil]
      exact .nil

/-- A template is expanded to the matches in the registry. -/
theorem expand_evals {root : Key} {a : reg.Node} (hroot : hive.rootKey = .ok root)
    (ha : rel root a) (descriptor : ArtifactDescriptor) (segments : List Segment)
    (controlset : Option ControlSetResolver) (known : List Binding)
    (hits : List (CatalogHit Timestamp)) :
    Evals (fun n => expand hive.reader n root segments controlset (fun hits bindings path key =>
        emitKey jiff hive.reader descriptor path key (known ++ bindings) hits) hits)
      (.ok (hits ++
        descriptorHits reg jiff a (controlSets controlset) known descriptor segments)) := by
  obtain ⟨graph⟩ := exists_keyGraph (shows_.readsReturn.subkeys root hroot)
  have hchildren : ∀ k b, ReflTransGen (Kids hive.reader) root k ∧ rel k b →
      List.Forall₂ (fun k b => ReflTransGen (Kids hive.reader) root k ∧ rel k b)
        (graph.children k) (reg.subkeyList b) := fun k b ⟨hreach, hrel⟩ =>
    graphChildren shows_ graph hreach hrel
  -- the same derivations in the hive and in the registry, cut at the same number
  have hmatches := @derivations_rel _ _ _ _ _ _ _ (controlSets controlset)
    (fun k b h => shows_.name h.2) hchildren (maxGlobDepth + 1) _ _ ⟨.refl, ha⟩ segments
  have hrun := expand_visits graph segments controlset (fun hits bindings path key =>
    emitKey jiff hive.reader descriptor path key (known ++ bindings) hits) hits
  have hfold := Evals.appends (List.forall₂_take maxGlobMatches hmatches)
    (f := fun _ hits d => emitKey jiff hive.reader descriptor (emittedPath d.names) d.key
      (known ++ d.bindings) hits)
    (g := fun d => hitsAt reg jiff descriptor (emittedPath d.names) (known ++ d.bindings) d.key)
    (fun d d' hd hits => by
      rw [emitKey_eq jiff shows_ descriptor _ _ hd.key.2, hd.names, hd.bindings]
      exact .const _) hits
  rw [← List.map_take, List.foldlM_map] at hrun
  simp only [Emission.at, foldl_joinPath] at hrun
  obtain ⟨N, hN⟩ := hrun
  exact ⟨N, fun n hn => (hN n hn).trans ((Evals.const _).unique hfold)⟩

/-- A descriptor is resolved to its hits. -/
theorem resolveDescriptor_evals {root : Key} {a : reg.Node} (hroot : hive.rootKey = .ok root)
    (ha : rel root a) {descriptor : ArtifactDescriptor} {path : Str} {stripHiveRoot : Bool}
    {template : Option (List Segment)} (hpath : templateSegments path stripHiveRoot = .ok template)
    (controlset : Option ControlSetResolver) (known : List Binding)
    (hits : List (CatalogHit Timestamp)) :
    Evals (fun n => resolveDescriptor jiff hive.reader n root descriptor path stripHiveRoot
        controlset known hits)
      (.ok (hits ++ template.elim []
        (descriptorHits reg jiff a (controlSets controlset) known descriptor))) := by
  unfold resolveDescriptor
  rw [hpath]
  cases template with
  | none =>
    rw [Option.elim_none, List.append_nil]
    exact .const _
  | some segments =>
    exact expand_evals jiff shows_ hroot ha descriptor segments controlset known hits

/-- The number of the active control set is that of the registry. -/
theorem currentControlSetNumber_evals {root : Key} {a : reg.Node} (ha : rel root a) :
    Evals (fun n => currentControlSetNumber hive.reader n root) (.ok (activeNumber reg a)) := by
  obtain ⟨x, hx, hselect⟩ := shows_.subkey ha "Select".toList
  unfold activeNumber
  generalize reg.subkey a "Select".toList = o at hselect
  cases hselect with
  | missing => exact Evals.bind hx.attempt (.const _)
  | error e => exact Evals.bind hx.attempt (.const _)
  | @found select b hb =>
    refine Evals.bind hx.attempt ?_
    have hcurrent := (shows_.value hb "Current".toList).finds
    rw [Option.bind_some, Registry.number]
    dsimp only
    generalize select.value hive.reader "Current".toList = y, reg.value b "Current".toList = o
      at hcurrent
    cases hcurrent with
    | missing => exact .const _
    | error e => exact .const _
    | @found current v hv =>
      have hnumber := hv.asU32
      rw [Option.bind_some]
      show Evals (fun _ => (current.asU32 hive.reader).attempt >>= _) _
      generalize current.asU32 hive.reader = z, v.number = o at hnumber
      cases hnumber with
      | error e => exact .const _
      | @value number _ heq =>
        obtain rfl := heq
        have hfilter : (some number).filter (· ≠ 0) = if number = 0 then none else some number := by
          by_cases hzero : number = 0 <;> simp [hzero, Option.filter]
        rw [hfilter]
        exact .const _

/-- The loop over the catalog. -/
theorem catalogLoop_evals {root : Key} {a : reg.Node} (hroot : hive.rootKey = .ok root)
    (ha : rel root a) {target : HiveTarget} {catalog : List ArtifactDescriptor}
    (hpaths : ∀ descriptor ∈ catalog, isAsked target descriptor →
      ∃ template, templateSegments descriptor.keyPath (stripsRoot target) = .ok template)
    {controlset : Option ControlSetResolver}
    (hsets : controlSets controlset = setsOf reg target a) :
    Evals (fun n => catalog.foldlM (fun hits descriptor =>
        if !isRegistry descriptor.artifactType then .ok hits
        else if descriptor.hive ≠ some target then .ok hits
        else
          resolveDescriptor jiff hive.reader n root descriptor descriptor.keyPath
            (stripsRoot target) controlset [] hits) [])
      (.ok (hitsBelow reg jiff catalog target a)) := by
  have hsame : List.Forall₂ (fun d d' => d = d' ∧ d ∈ catalog) catalog catalog :=
    List.forall₂_same.mpr fun d hd => ⟨rfl, hd⟩
  refine Evals.appends hsame ?_ []
  rintro d _ ⟨rfl, hd⟩ hits
  by_cases hasked : isAsked target d = true
  · obtain ⟨template, hpath⟩ := hpaths d hd hasked
    obtain ⟨hregistry, htarget⟩ := Bool.and_eq_true_iff.mp hasked
    have htemplate : templateOf d.keyPath (stripsRoot target) = template := by
      rw [templateOf, hpath]
    -- a descriptor for this hive adds the hits of its template
    rw [if_pos hasked, htemplate, ← hsets]
    refine (resolveDescriptor_evals jiff shows_ hroot ha hpath controlset [] hits).congr fun n => ?_
    rw [if_neg (by simpa using hregistry), if_neg (by simpa using htarget)]
  · -- any other is passed over, by one of two tests
    rw [if_neg hasked, List.append_nil]
    refine (Evals.const _).congr fun n => ?_
    by_cases hregistry : isRegistry d.artifactType = true
    · have htarget : d.hive ≠ some target := fun h =>
        hasked (Bool.and_eq_true_iff.mpr ⟨hregistry, decide_eq_true h⟩)
      rw [if_neg (by simpa using hregistry), if_pos htarget]
    · rw [if_pos (by simpa using hregistry)]

/-- A scan returns the hits of the registry that the hive shows, each of the descriptors after the
    other, each of its matches in the order of the walk. -/
theorem scan_evals {catalog : List ArtifactDescriptor} (hpaths : PathsReturn reg catalog) :
    Evals (fun n => scan jiff catalog n hive) (.ok (scanHits reg jiff catalog)) := by
  unfold scan scanHits
  refine Evals.bind (detectHiveType_evals shows_) ?_
  cases htarget : hiveTargetFor reg.hiveType with
  | none => exact .const _
  | some target =>
    have hstart := shows_.root
    rw [Option.elim_some]
    dsimp only
    generalize hopen : hive.rootKey = x, reg.root = o at hstart
    cases hstart with
    | error e => exact .const _
    | @value root a ha =>
      refine Evals.bind (.const _) ?_
      rw [Option.elim_some]
      dsimp only
      by_cases hsystem : target = .hklmSystem
      · simp only [if_pos hsystem]
        have hsets : controlSets (some ⟨[controlSetName ((activeNumber reg a).getD 1).toNat]⟩) =
            setsOf reg target a := (if_pos hsystem).symm
        have hresolve : Evals (fun n => resolveControlSets hive.reader n root)
            (.ok ⟨[controlSetName ((activeNumber reg a).getD 1).toNat]⟩) :=
          (currentControlSetNumber_evals shows_ ha).bind (.const _)
        exact hresolve.bind
          (catalogLoop_evals jiff shows_ hopen ha (hpaths target htarget) hsets)
      · simp only [if_neg hsystem]
        have hsets : controlSets none = setsOf reg target a := (if_neg hsystem).symm
        exact catalogLoop_evals jiff shows_ hopen ha (hpaths target htarget) hsets

/-- **What a scan finds**: the hits of the catalog in the registry that the hive shows, in order; a
    hit is among them exactly if a descriptor finds it in that registry.  The walk over the keys is
    in step with the walk over the registry: at each segment it goes on with the keys that are
    shown. -/
theorem scan_finds {catalog : List ArtifactDescriptor} (hpaths : PathsReturn reg catalog) :
    ∃ hits, Evals (fun n => scan jiff catalog n hive) (.ok hits) ∧
      hits = scanHits reg jiff catalog ∧
      ∀ hit, hit ∈ hits ↔ ∃ descriptor ∈ catalog, FindsHit reg jiff descriptor hit :=
  ⟨_, scan_evals jiff shows_ hpaths, rfl, fun _ => mem_scanHits_iff reg jiff⟩

end Scan

/-- A program that is started at logon. -/
def runBuilder : TestHiveBuilder where
  keys := ["Classes".toList]
  values := [⟨"Microsoft\\Run".toList, "Updater".toList, 1, utf16leBytes "a.exe".toList⟩]
  keyFiletime := 0

set_option maxRecDepth 20000 in
/-- The sample can be written. -/
theorem runBuilder_valid : runBuilder.Valid where
  components := by decide
  valueNames := by decide
  children p := by
    have hlen : (runBuilder.childNames p).length ≤ runBuilder.closure.length :=
      List.length_filterMap_le _ _
    exact hlen.trans (by decide)
  data := by decide

/-- A descriptor of the run key. -/
def runDescriptor : ArtifactDescriptor where
  id := "run".toList
  name := "Run".toList
  artifactType := .registryKey
  hive := some .hklmSoftware
  keyPath := "HKLM\\SOFTWARE\\Microsoft\\Run".toList
  valueName := none
  decoder := .identity
  meaning := "started at logon".toList
  mitreTechniques := []

set_option maxRecDepth 20000 in
/-- Its path behind the name of the hive. -/
theorem run_template : templateSegments runDescriptor.keyPath true =
    .ok (some [.literal "Microsoft".toList, .literal "Run".toList]) := by decide

set_option maxRecDepth 20000 in
/-- The path is cut between characters. -/
theorem run_pathsReturn : PathsReturn runBuilder.registry [runDescriptor] := by
  intro target htarget descriptor hd _
  have htype : runBuilder.registry.hiveType = .software := by decide
  rw [htype] at htarget
  obtain rfl := Option.some.inj htarget
  obtain rfl := List.mem_singleton.mp hd
  exact ⟨_, run_template⟩

/-- Two names are looked up, one below the other. -/
theorem matchesOf_names {reg : Registry} {a b c : reg.Node} {n m : Str} (sets : List Str)
    (hb : firstNamed reg.name reg.subkeyList a n = some b)
    (hc : firstNamed reg.name reg.subkeyList b m = some c) :
    matchesOf reg a sets [.literal n, .literal m] = [⟨[], [reg.name b, reg.name c], c⟩] := by
  rw [matchesOf, derivations, hb, Option.toList_some, List.flatMap_singleton,
    show maxGlobDepth = 62 + 1 + 1 from rfl, derivations, hc, Option.toList_some,
    List.flatMap_singleton, derivations]
  rfl

/-- What it finds in the sample. -/
def runHit : CatalogHit Int where
  catalogId := runDescriptor.id
  artifactName := runDescriptor.name
  meaning := runDescriptor.meaning
  keyPath := "Microsoft\\Run".toList
  valueName := some "Updater".toList
  valueData := "a.exe".toList
  mitreTechniques := []
  needsSpecializedDecoder := false
  user := none
  bindings := []
  lastWritten := none

set_option maxRecDepth 20000 in
/-- The one hit of the sample. -/
theorem scanHits_run :
    scanHits runBuilder.registry (⟨some, fun _ => none⟩ : Jiff Int) [runDescriptor] = [runHit] := by
  have htype : hiveTargetFor runBuilder.registry.hiveType = some .hklmSoftware := by decide
  have hasked : isAsked .hklmSoftware runDescriptor = true := by decide
  have htemplate : templateOf runDescriptor.keyPath (stripsRoot .hklmSoftware) =
      some [.literal "Microsoft".toList, .literal "Run".toList] := by decide
  obtain ⟨root, hroot, hkey⟩ : ∃ root, runBuilder.registry.root = some root ∧
      firstNamed runBuilder.registry.name runBuilder.registry.subkeyList root
        "Microsoft".toList = some (runBuilder.nodeAt "Microsoft".toList) := ⟨_, rfl, by decide⟩
  rw [scanHits, htype, Option.elim_some, hroot, Option.elim_some, hitsBelow,
    List.flatMap_singleton, if_pos hasked, htemplate, Option.elim_some, descriptorHits,
    matchesOf_names _ hkey (c := runBuilder.nodeAt "Microsoft\\Run".toList) (by decide)]
  decide

set_option maxRecDepth 20000 in
/-- A scan of the written sample returns it. -/
theorem scan_finds_run : ∃ image hive, (runBuilder.build 4 : Exec HiveError Bytes) = .ok image ∧
    Hive.fromBytes image = .ok hive ∧
      Evals (fun n => scan (⟨some, fun _ => none⟩ : Jiff Int) [runDescriptor] n hive)
        (.ok [runHit]) ∧
      FindsHit runBuilder.registry (⟨some, fun _ => none⟩ : Jiff Int) runDescriptor runHit := by
  obtain ⟨image, hive, hbuild, hopen, hshows⟩ :=
    build_shows runBuilder_valid (n := 4) (by decide) (by decide)
  obtain ⟨hits, hrun, hhits, hfound⟩ :=
    scan_finds (⟨some, fun _ => none⟩ : Jiff Int) hshows run_pathsReturn
  rw [scanHits_run] at hhits
  subst hhits
  obtain ⟨descriptor, hd, hfinds⟩ := (hfound runHit).mp List.mem_cons_self
  rw [List.mem_singleton.mp hd] at hfinds
  exact ⟨image, hive, hbuild, hopen, hrun, hfinds⟩

/-! ## Evidence -/

/-- The hit can be looked up again: its path opens the key (an empty path stands for the root), and
    the value is one of that key, with the name, the rendering and the time of the hit. -/
structure Reproduces (jiff : Jiff Timestamp) (hive : Hive) (descriptor : ArtifactDescriptor)
    (hit : CatalogHit Timestamp) (key : Key) (val : Value) : Prop where
  root : hit.keyPath = [] → hive.rootKey = .ok key
  opens : hit.keyPath ≠ [] → Evals (fun n => hive.openKey n hit.keyPath) (.ok (some key))
  listed : ∃ vals, key.values hive.reader = .ok vals ∧ val ∈ vals
  valueName : ∃ name, hit.valueName = some name ∧
    toAsciiUppercase name = toAsciiUppercase val.name
  rendered : renderValue jiff hive.reader descriptor.decoder val =
    .ok (hit.valueData, hit.needsSpecializedDecoder)
  lastWritten : hit.lastWritten = key.lastWritten jiff
  catalogId : hit.catalogId = descriptor.id

/-- Sibling keys have names that differ by more than ASCII case, and names that can stand in a
    path. -/
structure Named (reg : Registry) : Prop where
  good : ∀ a, ∀ b ∈ reg.subkeyList a, reg.name b ≠ [] ∧ '\\' ∉ reg.name b
  distinct : ∀ a, ((reg.subkeyList a).map fun b => toAsciiUppercase (reg.name b)).Nodup

/-- Names that can stand in a path are told by it. -/
theorem pathParts_emittedPath {names : List Str} (h : ∀ n ∈ names, n ≠ [] ∧ '\\' ∉ n) :
    Key.pathParts (emittedPath names) = names := by
  have hdrop : names.dropWhile (· = []) = names := by
    cases names with
    | nil => rfl
    | cons n names => exact List.dropWhile_cons_of_neg (by simpa using (h n List.mem_cons_self).1)
  rw [emittedPath, hdrop]
  exact pathParts_intercalate h

/-- A builder of which the sibling keys differ by more than case gives such a registry. -/
theorem named_built {b : TestHiveBuilder} (h : b.Valid)
    (hdistinct : ∀ p ∈ [] :: b.closure, ((b.childNames p).map toAsciiUppercase).Nodup) :
    Named b.registry where
  good p q hq := by
    obtain ⟨c, hc, rfl⟩ := List.mem_map.mp hq
    rw [name_registry h hc]
    exact h.goodPath (mem_childNames.mp hc) c (List.mem_append_right _ (List.mem_singleton_self c))
  distinct := distinct_registry h hdistinct

section Evidence

variable {reg : Registry} (named : Named reg)

include named

/-- The names of a derivation lead to its key. -/
theorem descend_of_derivation {sets : List Str} (levels : Nat) {a : reg.Node}
    (segments : List Segment) : ∀ d ∈ derivations reg.name reg.subkeyList sets levels a segments,
      reg.descend a d.names = some d.key ∧ ∀ n ∈ d.names, n ≠ [] ∧ '\\' ∉ n := by
  refine forall_derivations (P := fun a d => reg.descend a d.names = some d.key ∧
      ∀ n ∈ d.names, n ≠ [] ∧ '\\' ∉ n) (fun a => ⟨rfl, fun n hn => absurd hn List.not_mem_nil⟩)
    (fun a b hb segment _ d ⟨hlead, hgood⟩ => ?_) levels a segments
  have hsubkey : reg.subkey a (reg.name b) = some b :=
    Registry.subkey_eq_some (named.distinct a) hb rfl
  refine ⟨?_, List.forall_mem_cons.mpr ⟨named.good a b hb, hgood⟩⟩
  show (reg.subkey a (reg.name b)).bind (reg.descend · d.names) = some d.key
  rw [hsubkey]
  exact hlead

omit named in
/-- What is known of a hit at a key. -/
theorem mem_hitsAt {jiff : Jiff Timestamp} {descriptor : ArtifactDescriptor} {keyPath : Str}
    {bindings : List Binding} {a : reg.Node} {hit : CatalogHit Timestamp}
    (h : hit ∈ hitsAt reg jiff descriptor keyPath bindings a) :
    ∃ name, ∃ v ∈ reg.valueList a, toAsciiUppercase name = toAsciiUppercase v.name ∧
      hit = hitOf jiff descriptor keyPath name v bindings (reg.lastWritten jiff a) := by
  unfold hitsAt at h
  split at h
  · rename_i vname _
    obtain ⟨v, hv, rfl⟩ := List.mem_map.mp h
    obtain ⟨values, hvalues, hfind⟩ := Option.bind_eq_some_iff.mp (Option.mem_toList.mp hv)
    refine ⟨vname, v, ?_, ?_, rfl⟩
    · rw [Registry.valueList, hvalues]
      exact List.mem_of_find?_eq_some hfind
    · have hname := List.find?_some hfind
      exact (of_decide_eq_true hname).symm
  · obtain ⟨v, hv, rfl⟩ := List.mem_map.mp h
    exact ⟨v.name, v, hv, rfl, rfl⟩

/-- A hit is one of a descriptor, at a key that its path opens. -/
theorem mem_scanHits {jiff : Jiff Timestamp} {catalog : List ArtifactDescriptor}
    {hit : CatalogHit Timestamp} (h : hit ∈ scanHits reg jiff catalog) :
    ∃ descriptor ∈ catalog, ∃ a bindings, hit ∈ hitsAt reg jiff descriptor hit.keyPath bindings a ∧
      (hit.keyPath = [] → reg.root = some a) ∧
      (hit.keyPath ≠ [] → reg.openKey hit.keyPath = some a) := by
  obtain ⟨descriptor, hd, _, root, segments, _, hroot, _, _, d, hmatch, hat⟩ :=
    (mem_scanHits_iff reg jiff).mp h
  obtain ⟨hlead, hgood⟩ := descend_of_derivation named _ segments d (List.mem_of_mem_take hmatch)
  have hpath : hit.keyPath = emittedPath d.names := by
    obtain ⟨_, _, _, _, rfl⟩ := mem_hitsAt hat
    rfl
  have hparts := pathParts_emittedPath hgood
  rw [← hpath] at hat hparts
  refine ⟨descriptor, hd, d.key, d.bindings, hat, fun hnil => ?_, fun hne => ?_⟩
  · rw [hnil] at hparts
    rw [← hparts] at hlead
    exact hroot.trans hlead
  · have hnames : d.names ≠ [] := fun hnames => by
      rw [hpath, hnames] at hne
      exact hne rfl
    rw [Registry.openKey, hparts, hroot]
    cases hcases : d.names with
    | nil => exact absurd hcases hnames
    | cons n names =>
      rw [hcases] at hlead
      exact hlead

end Evidence

/-- **Every hit can be looked up again.**  The path of a hit is made of the names on the way to its
    key, and where siblings differ by name these lead to that key and to no other; its value is then
    one of those of the hit's name. -/
theorem scan_reproducible {hive : Hive} {reg : Registry} {rel : Key → reg.Node → Prop}
    (jiff : Jiff Timestamp) (shows_ : hive.Shows reg rel) (named : Named reg)
    {catalog : List ArtifactDescriptor} (hpaths : PathsReturn reg catalog) :
    ∃ hits, Evals (fun n => scan jiff catalog n hive) (.ok hits) ∧
      ∀ hit ∈ hits, ∃ descriptor ∈ catalog, ∃ key val,
        Reproduces jiff hive descriptor hit key val := by
  refine ⟨_, scan_evals jiff shows_ hpaths, fun hit hhit => ?_⟩
  obtain ⟨descriptor, hd, a, bindings, hat, hnil, hopen⟩ := mem_scanHits named hhit
  obtain ⟨name, v, hv, hname, hhitOf⟩ := mem_hitsAt hat
  obtain ⟨key, hkey, hroot, hopens⟩ : ∃ key, rel key a ∧
      (hit.keyPath = [] → hive.rootKey = .ok key) ∧
      (hit.keyPath ≠ [] → Evals (fun n => hive.openKey n hit.keyPath) (.ok (some key))) := by
    -- the empty path is the root's, which `open_key` does not open
    by_cases hpath : hit.keyPath = []
    · have hstart := shows_.root
      rw [hnil hpath] at hstart
      generalize hive.rootKey = x at hstart
      cases hstart with
      | @value key _ hkey => exact ⟨key, hkey, fun _ => rfl, fun h => absurd hpath h⟩
    · obtain ⟨x, hx, hfinds⟩ := shows_.openKey hit.keyPath
      rw [hopen hpath] at hfinds
      cases hfinds with
      | @found key _ hkey => exact ⟨key, hkey, fun h => absurd h hpath, fun _ => hx⟩
  obtain ⟨vals, val, hvals, hval, hshown⟩ : ∃ vals val, key.values hive.reader = .ok vals ∧
      val ∈ vals ∧ ShowsValue hive.reader val v := by
    have hkeeps := shows_.values hkey
    unfold Registry.valueList at hv
    generalize key.values hive.reader = x, reg.values a = o at hkeeps hv
    cases hkeeps with
    | @value vals values hvals =>
      obtain ⟨val, hval, hshown⟩ := forall₂_right hvals hv
      exact ⟨vals, val, rfl, hval, hshown⟩
    | error e => cases hv
  have hrendered := renderValue_eq jiff descriptor.decoder hshown
  refine ⟨descriptor, hd, key, val, hroot, hopens, ⟨vals, hvals, hval⟩, ⟨name, ?_, ?_⟩, ?_, ?_, ?_⟩
  · rw [hhitOf, hitOf]
  · rw [hname, hshown.name]
  · rw [hrendered, hhitOf, hitOf]
  · rw [hhitOf, hitOf, shows_.lastWritten jiff hkey]
  · rw [hhitOf, hitOf]

set_option maxRecDepth 20000 in
/-- The names of the sample are single parts and differ. -/
theorem run_named : Named runBuilder.registry := named_built runBuilder_valid (by decide)

set_option maxRecDepth 20000 in
/-- The hit can be looked up again by its path and name. -/
theorem scan_reproducible_run : ∃ image hive key val,
    (runBuilder.build 4 : Exec HiveError Bytes) = .ok image ∧ Hive.fromBytes image = .ok hive ∧
      Reproduces (⟨some, fun _ => none⟩ : Jiff Int) hive runDescriptor runHit key val := by
  obtain ⟨image, hive, hbuild, hopen, hshows⟩ :=
    build_shows runBuilder_valid (n := 4) (by decide) (by decide)
  have hrun := scan_evals (⟨some, fun _ => none⟩ : Jiff Int) hshows run_pathsReturn
  obtain ⟨hits, hhits, hlook⟩ :=
    scan_reproducible (⟨some, fun _ => none⟩ : Jiff Int) hshows run_named run_pathsReturn
  rw [scanHits_run] at hrun
  have heq : hits = [runHit] := Exec.ok.inj (hhits.unique hrun)
  obtain ⟨descriptor, hd, key, val, hreproduces⟩ := hlook runHit (heq ▸ List.mem_cons_self)
  rw [List.mem_singleton.mp hd] at hreproduces
  exact ⟨image, hive, key, val, hbuild, hopen, hreproduces⟩

end Catalog

end Winreg
