/-
  SLOTS: which values of a `BagMRU` key are part of its path.

  The path of a key is put together from its numeric values.  The test for a numeric name asks
  whether all characters are digits, which the empty name passes: the unnamed value of a key is
  taken for a slot, and its segment cannot be told from those of the real ones.

  1. **Visits** — the keys that the walk makes entries for (`bagKeys`), and that these are the keys
     at and below the probed paths (`mem_bagKeys`).
  2. **Segments** — what the values of a key contribute (`buildSlotPath_eq`).
  3. **Joined** — every segment has a character, so a further one makes the path longer
     (`length_joined`).
  4. **The path** — it is that of the slots exactly when no value has the empty name
     (`parse_path_iff`).
  5. **Readable trees** — on a hive that reads as a tree the parser ends (`parse_of_readsTree`); a
     built hive shows a key with an unnamed value.
-/
import Winreg.Artifacts.ShellBags
import Winreg.Core.PathCompose
import Winreg.Diff.Soundness
import Winreg.TestUtil.RoundTrip

namespace Winreg

open Rust Relation

namespace ShellBags

/-! ## Visits -/

/-- The keys of a walk with their paths, in the order of their entries. -/
def walkKeys (r : CellReader) :
    Nat → Key → Str → List (Key × Str) → Exec HiveError (List (Key × Str))
  | 0, _, _, _ => .timeout
  | n + 1, key, keyPath, bags => do
    match ← (key.subkeys r n).attempt with
    | .ok subkeys =>
      subkeys.foldlM (fun bags subkey =>
        walkKeys r n subkey (keyPath ++ '\\' :: subkey.name) bags) (bags ++ [(key, keyPath)])
    | .error _ => .ok (bags ++ [(key, keyPath)])

/-- The keys at and below one probed path. -/
def probeKeys (hive : Hive) (n : Nat) (bags : List (Key × Str)) (path : Str) :
    Exec HiveError (List (Key × Str)) := do
  match ← (hive.openKey n path).attempt with
  | .ok (some root) => walkKeys hive.reader n root path bags
  | _ => .ok bags

/-- The keys that `parse` makes entries for, with their paths. -/
def bagKeys (hive : Hive) (n : Nat) : Exec HiveError (List (Key × Str)) :=
  bagmruPaths.foldlM (probeKeys hive n) []

/-- The entries are those of the keys, in order. -/
def EntriesOf (env : ShellEnv) (r : CellReader) (entries : List ShellbagEntry)
    (bags : List (Key × Str)) : Prop :=
  List.Forall₂ (fun bag entry => keyEntry env r bag.1 bag.2 = .ok entry) bags entries

/-- One more entry, for one more key. -/
theorem EntriesOf.concat {env : ShellEnv} {r : CellReader} {entries : List ShellbagEntry}
    {bags : List (Key × Str)} (h : EntriesOf env r entries bags) {key : Key} {keyPath : Str}
    {entry : ShellbagEntry} (hentry : keyEntry env r key keyPath = .ok entry) :
    EntriesOf env r (entries ++ [entry]) (bags ++ [(key, keyPath)]) :=
  List.rel_append h (.cons hentry .nil)

/-- The walk adds the entries of the keys below, in order and each for its own key.  By induction on
    the fuel, for any key and any entries so far: the walk over the subkeys is a fold. -/
theorem walkKey_follows (env : ShellEnv) (r : CellReader) (n : Nat) :
    ∀ (key : Key) (keyPath : Str) {entries : List ShellbagEntry} {bags : List (Key × Str)},
      EntriesOf env r entries bags → Exec.Follows (EntriesOf env r)
        (walkKey env r n key keyPath entries) (walkKeys r n key keyPath bags) := by
  induction n with
  | zero =>
    intro key keyPath entries bags _ out hout
    cases hout
  | succ n ih =>
    intro key keyPath entries bags h out hout
    obtain ⟨entry, hentry, hrest⟩ := Exec.bind_eq_ok.mp hout
    have hnow := h.concat hentry
    revert hrest
    refine Exec.Follows.after _ (fun listed _ => ?_) out
    cases listed with
    | error e => exact Exec.Follows.ok hnow
    | ok subkeys =>
      exact Exec.Follows.foldlM_same
        (fun subkey _ _ _ h => ih subkey (keyPath ++ '\\' :: subkey.name) h) hnow

/-- **The entries of a run** are those of the keys that it visits. -/
theorem parse_follows (env : ShellEnv) (hive : Hive) (n : Nat) :
    Exec.Follows (EntriesOf env hive.reader) (parse env hive n) (bagKeys hive n) := by
  refine Exec.Follows.foldlM_same (fun path _ entries bags h => ?_) List.Forall₂.nil
  refine Exec.Follows.after _ fun opened _ => ?_
  match opened with
  | .ok (some root) => exact walkKey_follows env hive.reader n root path h
  | .ok none => exact Exec.Follows.ok h
  | .error _ => exact Exec.Follows.ok h

/-- A key at or below a probed path. -/
def IsBagKey (hive : Hive) (n : Nat) (key : Key) : Prop :=
  ∃ path ∈ bagmruPaths, ∃ root, hive.openKey n path = .ok (some root) ∧
    ReflTransGen (Kids hive.reader) root key

/-- What a fold adds to the keys is what its steps add. -/
theorem mem_foldlM_keys {α : Type} {step : List (Key × Str) → α → Exec HiveError (List (Key × Str))}
    {P : α → Key → Prop} (hstep : ∀ x bags out, step bags x = .ok out →
      ∀ k, k ∈ out.map Prod.fst ↔ k ∈ bags.map Prod.fst ∨ P x k) :
    ∀ {xs : List α} {bags out : List (Key × Str)}, xs.foldlM step bags = .ok out →
      ∀ k, k ∈ out.map Prod.fst ↔ k ∈ bags.map Prod.fst ∨ ∃ x ∈ xs, P x k
  | [], bags, out, hout, k => by
    obtain rfl : bags = out := Exec.ok.inj hout
    simp
  | x :: xs, bags, out, hout, k => by
    rw [List.foldlM_cons] at hout
    obtain ⟨next, hnext, hrest⟩ := Exec.bind_eq_ok.mp hout
    rw [mem_foldlM_keys hstep hrest k, hstep x bags next hnext k, or_assoc]
    simp

/-- The keys of a walk are the key itself and those below it. -/
theorem mem_walkKeys {r : CellReader} (n : Nat) : ∀ {key : Key} {keyPath : Str}
    {bags out : List (Key × Str)}, walkKeys r n key keyPath bags = .ok out →
      ∀ k, k ∈ out.map Prod.fst ↔ k ∈ bags.map Prod.fst ∨ ReflTransGen (Kids r) key k := by
  induction n with
  | zero =>
    intro key keyPath bags out hout
    cases hout
  | succ n ih =>
    intro key keyPath bags out hout k
    obtain ⟨listed, hlisted, hrest⟩ := Exec.bind_eq_ok.mp hout
    have hself : k ∈ (bags ++ [(key, keyPath)]).map Prod.fst ↔
        k ∈ bags.map Prod.fst ∨ k = key := by
      rw [List.map_append, List.mem_append, List.map_singleton, List.mem_singleton]
    rw [ReflTransGen.cases_head_iff]
    cases listed with
    | error e =>
      obtain rfl := Exec.ok.inj hrest
      have hnone : ∀ w, ¬ Kids r key w := fun w => not_kids_of_err (Exec.attempt_eq_error hlisted)
      rw [hself, eq_comm]
      exact or_congr_right ⟨Or.inl, fun h => h.resolve_right fun ⟨w, hw, _⟩ => hnone w hw⟩
    | ok subkeys =>
      have hbelow := mem_foldlM_keys (P := fun subkey k => ReflTransGen (Kids r) subkey k)
        (fun subkey bags out h k => ih h k) hrest k
      rw [hbelow, hself, or_assoc, eq_comm]
      refine or_congr_right (or_congr_right ?_)
      exact exists_congr fun subkey =>
        and_congr_left' (kids_iff_mem (Exec.attempt_eq_ok hlisted)).symm

/-- **The keys of a run** are those at and below the probed paths. -/
theorem mem_bagKeys {hive : Hive} {n : Nat} {bags : List (Key × Str)}
    (h : bagKeys hive n = .ok bags) (k : Key) :
    k ∈ bags.map Prod.fst ↔ IsBagKey hive n k := by
  have hstep : ∀ path bags out, probeKeys hive n bags path = .ok out →
      ∀ k, k ∈ out.map Prod.fst ↔ k ∈ bags.map Prod.fst ∨
        ∃ root, hive.openKey n path = .ok (some root) ∧
          ReflTransGen (Kids hive.reader) root k := by
    intro path bags out hout k
    obtain ⟨opened, hopened, hrest⟩ := Exec.bind_eq_ok.mp hout
    match opened with
    | .ok (some root) =>
      have hopen := Exec.attempt_eq_ok hopened
      rw [mem_walkKeys n hrest k, hopen]
      refine or_congr_right ⟨fun hreach => ⟨root, rfl, hreach⟩, ?_⟩
      rintro ⟨root', hroot', hreach⟩
      obtain rfl := Option.some.inj (Exec.ok.inj hroot')
      exact hreach
    | .ok none =>
      obtain rfl := Exec.ok.inj hrest
      rw [Exec.attempt_eq_ok hopened]
      refine ⟨Or.inl, fun hk => hk.resolve_right ?_⟩
      rintro ⟨root, hroot, _⟩
      cases Exec.ok.inj hroot
    | .error e =>
      obtain rfl := Exec.ok.inj hrest
      rw [Exec.attempt_eq_error hopened]
      refine ⟨Or.inl, fun hk => hk.resolve_right ?_⟩
      rintro ⟨root, hroot, _⟩
      cases hroot
  rw [mem_foldlM_keys hstep h k]
  unfold IsBagKey
  simp

/-! ## Segments -/

/-- The text of a slot that has no folder path. -/
def slotPreview (val : Value) : Str :=
  "BagMRU[slot=".toList ++ val.name ++ ", size=".toList ++ decimal val.dataSize.toNat ++
    " bytes]".toList

/-- The segment of one value: its folder path, or the preview. -/
def slotSegment (env : ShellEnv) (r : CellReader) (val : Value) : Str :=
  match val.rawData r with
  | .ok raw => if env.idlistPath raw ≠ [] then env.idlistPath raw else slotPreview val
  | _ => slotPreview val

/-- A slot always has a text to show. -/
theorem slotPreview_ne_nil (val : Value) : slotPreview val ≠ [] := by
  unfold slotPreview
  exact List.append_ne_nil_of_right_ne_nil _ (by decide)

/-- Every segment has a character. -/
theorem slotSegment_ne_nil (env : ShellEnv) (r : CellReader) (val : Value) :
    slotSegment env r val ≠ [] := by
  unfold slotSegment
  split
  · split
    · rename_i hpath
      exact hpath
    · exact slotPreview_ne_nil val
  · exact slotPreview_ne_nil val

/-- What is decoded of a slot is the segment that the item of the slot names. -/
theorem decodeSlot_eq {env : ShellEnv} {r : CellReader} {val : Value} {part : Str}
    (h : decodeSlot env r val.name val = .ok part) : part = slotSegment env r val := by
  obtain ⟨read, hread, hrest⟩ := Exec.bind_eq_ok.mp h
  unfold slotSegment
  cases read with
  | ok raw =>
    rw [Exec.attempt_eq_ok hread]
    dsimp only at hrest ⊢
    split at hrest
    · rename_i hpath
      rw [if_pos hpath]
      exact (Exec.ok.inj hrest).symm
    · rename_i hpath
      rw [if_neg hpath]
      exact (Exec.ok.inj hrest).symm
  | error e =>
    rw [Exec.attempt_eq_error hread]
    exact (Exec.ok.inj hrest).symm

/-- The segments of the values whose names pass a test, joined. -/
def joinedSlots (env : ShellEnv) (r : CellReader) (test : Str → Bool) (values : List Value) : Str :=
  List.intercalate "; ".toList ((values.filter fun val => test val.name).map (slotSegment env r))

/-- A name that is a slot: a nonempty string of ASCII digits. -/
def isNumeric (name : Str) : Bool := name ≠ [] && name.all Char.isDigit

/-- The path of a key as its slots spell it. -/
def slotPath (env : ShellEnv) (r : CellReader) (key : Key) : Str :=
  match key.values r with
  | .ok values => joinedSlots env r isNumeric values
  | _ => []

/-- The loop over the values collects the segments of those that pass the test of the source. -/
theorem foldlM_slots {env : ShellEnv} {r : CellReader} : ∀ {values : List Value}
    {parts out : List Str}, values.foldlM (fun parts val =>
      if isSlotName val.name then do
        let part ← decodeSlot env r val.name val
        .ok (parts ++ [part])
      else .ok parts) parts = .ok out →
    out = parts ++ (values.filter fun val => isSlotName val.name).map (slotSegment env r)
  | [], parts, out, h => by
    obtain rfl : parts = out := Exec.ok.inj h
    simp
  | val :: values, parts, out, h => by
    rw [List.foldlM_cons] at h
    obtain ⟨next, hnext, hrest⟩ := Exec.bind_eq_ok.mp h
    rw [foldlM_slots hrest]
    by_cases hslot : isSlotName val.name = true
    · rw [if_pos hslot] at hnext
      obtain ⟨part, hpart, hok⟩ := Exec.bind_eq_ok.mp hnext
      rw [← Exec.ok.inj hok, decodeSlot_eq hpart, List.filter_cons, if_pos hslot, List.map_cons,
        List.append_assoc, List.singleton_append]
    · rw [if_neg hslot] at hnext
      rw [← Exec.ok.inj hnext, List.filter_cons, if_neg hslot]

/-- **The path of a key** is the segments of the values that pass the test of the source. -/
theorem buildSlotPath_eq {env : ShellEnv} {r : CellReader} {key : Key} {path : Str}
    (h : buildSlotPath env r key = .ok path) :
    (∃ values, key.values r = .ok values ∧ path = joinedSlots env r isSlotName values) ∨
      (∃ e, key.values r = .err e) ∧ path = [] := by
  obtain ⟨listed, hlisted, hrest⟩ := Exec.bind_eq_ok.mp h
  cases listed with
  | error e => exact Or.inr ⟨⟨e, Exec.attempt_eq_error hlisted⟩, (Exec.ok.inj hrest).symm⟩
  | ok values =>
    obtain ⟨parts, hparts, hok⟩ := Exec.bind_eq_ok.mp hrest
    refine Or.inl ⟨values, Exec.attempt_eq_ok hlisted, ?_⟩
    rw [← Exec.ok.inj hok, foldlM_slots hparts]
    rfl

/-! ## Joined -/

/-- The characters of some segments, with a separator behind each. -/
def joinedWeight (parts : List Str) : Nat := (parts.map fun part => part.length + 2).sum

/-- The weight of the first part is added to that of the others. -/
theorem joinedWeight_cons (part : Str) (parts : List Str) :
    joinedWeight (part :: parts) = part.length + 2 + joinedWeight parts := List.sum_cons

/-- A joined text has no separator behind the last segment. -/
theorem length_joined : ∀ parts : List Str, parts ≠ [] →
    (List.intercalate "; ".toList parts).length + 2 = joinedWeight parts
  | [part], _ => by
    rw [List.intercalate_singleton]
    rfl
  | part :: next :: parts, _ => by
    have hrest := length_joined (next :: parts) (List.cons_ne_nil _ _)
    have hsep : "; ".toList.length = 2 := rfl
    rw [List.intercalate_cons_cons, List.length_append, List.length_append, joinedWeight_cons,
      ← hrest, hsep]
    omega

/-- Of two lists of segments, the one with more characters is joined to the longer text. -/
theorem length_joined_lt {parts parts' : List Str} (hne : ∀ part ∈ parts', part ≠ [])
    (h : joinedWeight parts < joinedWeight parts') :
    (List.intercalate "; ".toList parts).length < (List.intercalate "; ".toList parts').length := by
  cases parts' with
  | nil => exact absurd h (Nat.not_lt_zero _)
  | cons part' rest' =>
    have hlong := length_joined (part' :: rest') (List.cons_ne_nil _ _)
    have hpart : 0 < part'.length := List.length_pos_of_ne_nil (hne part' List.mem_cons_self)
    cases parts with
    | nil =>
      rw [joinedWeight_cons] at hlong
      show 0 < _
      omega
    | cons part rest =>
      have hshort := length_joined (part :: rest) (List.cons_ne_nil _ _)
      omega

/-- The test of the source passes the numeric names and the empty one. -/
theorem isSlotName_eq (name : Str) : isSlotName name = (isNumeric name || decide (name = [])) := by
  cases name with
  | nil => rfl
  | cons c name => simp [isSlotName, isNumeric]

/-- The segments that the source joins are those of the slots and those of the unnamed values. -/
theorem joinedWeight_slots (env : ShellEnv) (r : CellReader) (values : List Value) :
    joinedWeight ((values.filter fun val => isSlotName val.name).map (slotSegment env r)) =
      joinedWeight ((values.filter fun val => isNumeric val.name).map (slotSegment env r)) +
        joinedWeight ((values.filter fun val => val.name = []).map (slotSegment env r)) := by
  induction values with
  | nil => rfl
  | cons val values ih =>
    rw [List.filter_cons, List.filter_cons, List.filter_cons, isSlotName_eq]
    by_cases hname : val.name = []
    · have hnumeric : isNumeric val.name = false := by rw [hname]; rfl
      rw [hnumeric, decide_eq_true hname, Bool.false_or, if_pos rfl, if_neg Bool.false_ne_true,
        if_pos rfl, List.map_cons, List.map_cons, joinedWeight_cons, joinedWeight_cons, ih]
      omega
    · rw [decide_eq_false hname, Bool.or_false, if_neg Bool.false_ne_true]
      by_cases hnumeric : isNumeric val.name = true
      · rw [if_pos hnumeric, if_pos hnumeric, List.map_cons, List.map_cons, joinedWeight_cons,
          joinedWeight_cons, ih]
        omega
      · rw [if_neg hnumeric, if_neg hnumeric, ih]

/-- **The joined text** is that of the slots exactly when no value has the empty name. -/
theorem joinedSlots_eq_iff (env : ShellEnv) (r : CellReader) (values : List Value) :
    joinedSlots env r isSlotName values = joinedSlots env r isNumeric values ↔
      ∀ val ∈ values, val.name ≠ [] := by
  constructor
  · intro heq val hval hname
    have hmem : val ∈ values.filter fun val => val.name = [] :=
      List.mem_filter.mpr ⟨hval, decide_eq_true hname⟩
    have hunnamed : 0 < joinedWeight
        ((values.filter fun val => val.name = []).map (slotSegment env r)) := by
      obtain ⟨before, after, hsplit⟩ := List.append_of_mem hmem
      rw [hsplit, List.map_append, List.map_cons]
      unfold joinedWeight
      rw [List.map_append, List.sum_append, List.map_cons, List.sum_cons]
      omega
    have hlonger : (joinedSlots env r isNumeric values).length <
        (joinedSlots env r isSlotName values).length := by
      refine length_joined_lt ?_ (by rw [joinedWeight_slots]; omega)
      intro part hpart
      obtain ⟨val, _, rfl⟩ := List.mem_map.mp hpart
      exact slotSegment_ne_nil env r val
    rw [heq] at hlonger
    exact absurd hlonger (Nat.lt_irrefl _)
  · intro hnamed
    unfold joinedSlots
    rw [List.filter_congr fun val hval => by
      rw [isSlotName_eq, decide_eq_false (hnamed val hval), Bool.or_false]]

/-! ## The path -/

/-- **The path of every `BagMRU` key** is that of its slots exactly when none of its values has the
    empty name.  The entries stand for the keys of `bagKeys` one by one and in order: that walk takes
    the steps of `parse` and keeps the key and its path in place of the entry, so an entry cannot be
    that of another key. -/
theorem parse_path_iff {env : ShellEnv} {hive : Hive} {n : Nat} {entries : List ShellbagEntry}
    (h : parse env hive n = .ok entries) : ∃ bags : List (Key × Str),
      bagKeys hive n = .ok bags ∧
      (∀ key, key ∈ bags.map Prod.fst ↔ IsBagKey hive n key) ∧
      List.Forall₂ (fun bag entry => entry.keyPath = bag.2 ∧
        (entry.path = slotPath env hive.reader bag.1 ↔
          ∀ values, bag.1.values hive.reader = .ok values → ∀ val ∈ values, val.name ≠ []))
        bags entries := by
  obtain ⟨bags, hbags, hentries⟩ := parse_follows env hive n entries h
  refine ⟨bags, hbags, mem_bagKeys hbags, List.Forall₂.imp ?_ hentries⟩
  rintro ⟨key, keyPath⟩ entry hentry
  obtain ⟨order, _, hrest⟩ := Exec.bind_eq_ok.mp hentry
  obtain ⟨path, hpath, hok⟩ := Exec.bind_eq_ok.mp hrest
  obtain rfl := Exec.ok.inj hok
  refine ⟨rfl, ?_⟩
  show path = slotPath env hive.reader key ↔ _
  unfold slotPath
  rcases buildSlotPath_eq hpath with ⟨values, hvalues, rfl⟩ | ⟨⟨e, herr⟩, rfl⟩
  · dsimp only
    rw [hvalues]
    dsimp only
    rw [joinedSlots_eq_iff]
    constructor
    · intro hnamed values' hvalues'
      obtain rfl := Exec.ok.inj hvalues'
      exact hnamed
    · intro hnamed
      exact hnamed values rfl
  · dsimp only
    rw [herr]
    refine ⟨fun _ values hvalues => ?_, fun _ => rfl⟩
    cases hvalues

/-! ## Readable trees -/

section Readable

variable (env : ShellEnv) {r : CellReader}

/-- A slot with readable data is decoded to something. -/
theorem decodeSlot_of_rawData {val : Value} {raw : Bytes} (h : val.rawData r = .ok raw)
    (slot : Str) : ∃ part, decodeSlot env r slot val = .ok part := by
  unfold decodeSlot
  rw [h, Exec.attempt_ok, Exec.ok_bind]
  dsimp only
  split
  · exact ⟨_, rfl⟩
  · exact ⟨_, rfl⟩

/-- So a key with readable values has a path, by induction on its values. -/
theorem foldlM_slots_returns : ∀ {values : List Value},
    (∀ val ∈ values, ∃ raw, val.rawData r = .ok raw) → ∀ parts : List Str,
    ∃ out, values.foldlM (fun parts val =>
      if isSlotName val.name then do
        let part ← decodeSlot env r val.name val
        .ok (parts ++ [part])
      else (.ok parts : Exec HiveError (List Str))) parts = .ok out
  | [], _, parts => ⟨parts, rfl⟩
  | val :: values, h, parts => by
    obtain ⟨raw, hraw⟩ := h val List.mem_cons_self
    obtain ⟨part, hpart⟩ := decodeSlot_of_rawData env hraw val.name
    have hrest := foldlM_slots_returns fun val hval => h val (List.mem_cons_of_mem _ hval)
    rw [List.foldlM_cons]
    by_cases hslot : isSlotName val.name = true
    · rw [if_pos hslot, hpart]
      exact hrest (parts ++ [part])
    · rw [if_neg hslot]
      exact hrest parts

/-- A key whose values can be read has an entry. -/
theorem keyEntry_returns {key : Key} {values : List Value} (hvalues : key.values r = .ok values)
    (hdata : ∀ val ∈ values, ∃ raw, val.rawData r = .ok raw) (keyPath : Str) :
    ∃ entry, keyEntry env r key keyPath = .ok entry := by
  obtain ⟨order, horder⟩ : ∃ order, decodeMrulistex r key = .ok order := by
    unfold decodeMrulistex Key.value
    rw [hvalues, Exec.ok_bind, Exec.attempt_ok, Exec.ok_bind]
    cases hfind : values.find? fun v => toAsciiUppercase v.name =
      toAsciiUppercase "MRUListEx".toList with
    | none => exact ⟨[], rfl⟩
    | some val =>
      obtain ⟨raw, hraw⟩ := hdata val (List.mem_of_find?_eq_some hfind)
      dsimp only
      rw [hraw, Exec.attempt_ok, Exec.ok_bind]
      exact ⟨_, rfl⟩
  obtain ⟨parts, hparts⟩ := foldlM_slots_returns env hdata []
  have hpath : buildSlotPath env r key = .ok (List.intercalate "; ".toList parts) := by
    unfold buildSlotPath
    rw [hvalues, Exec.attempt_ok, Exec.ok_bind]
    dsimp only
    rw [hparts, Exec.ok_bind]
  unfold keyEntry
  rw [horder, Exec.ok_bind, hpath, Exec.ok_bind]
  exact ⟨_, rfl⟩

/-- Keys that are walked one after the other. -/
theorem foldlM_walkKey_evals {keyPath : Str} : ∀ {subkeys : List Key},
    (∀ subkey ∈ subkeys, ∀ path entries, ∃ out,
      Exec.Evals (fun n => walkKey env r n subkey path entries) (.ok out)) →
    ∀ entries : List ShellbagEntry, ∃ out, Exec.Evals (fun n => subkeys.foldlM
      (fun entries subkey => walkKey env r n subkey (keyPath ++ '\\' :: subkey.name) entries)
      entries) (.ok out)
  | [], _, entries => ⟨entries, Exec.Evals.const _⟩
  | subkey :: subkeys, h, entries => by
    obtain ⟨next, hnext⟩ := h subkey List.mem_cons_self (keyPath ++ '\\' :: subkey.name) entries
    obtain ⟨out, hout⟩ := foldlM_walkKey_evals
      (fun subkey hsub => h subkey (List.mem_cons_of_mem _ hsub)) next
    exact ⟨out, Exec.Evals.bind hnext hout⟩

/-- The walk over a readable key returns. -/
theorem walkKey_of_reads {key : Key} {t : KeyTree} (h : Reads r key t) : ∀ keyPath entries,
    ∃ out, Exec.Evals (fun n => walkKey env r n key keyPath entries) (.ok out) := by
  induction h with
  | @node key vals values kids children hvals hvalues hkids hlength _ ih =>
    intro keyPath entries
    have hdata : ∀ val ∈ vals, ∃ raw, val.rawData r = .ok raw := by
      intro val hval
      obtain ⟨v, _, hv⟩ := forall₂_left hvalues hval
      exact ⟨v.data, hv.data⟩
    obtain ⟨entry, hentry⟩ := keyEntry_returns env hvals hdata keyPath
    have hbelow : ∀ kid ∈ kids, ∀ path entries, ∃ out,
        Exec.Evals (fun n => walkKey env r n kid path entries) (.ok out) := by
      intro kid hkid
      obtain ⟨c, hc⟩ := exists_mem_zip hlength hkid
      exact ih (kid, c) hc
    obtain ⟨out, hout⟩ := @foldlM_walkKey_evals env r keyPath kids hbelow (entries ++ [entry])
    refine ⟨out, Exec.Evals.of_succ ?_⟩
    simp only [walkKey, hentry, Exec.ok_bind]
    exact Exec.Evals.bind hkids.attempt hout

/-- Every path opens a readable key, or none. -/
theorem openKey_of_readsTree {hive : Hive} {t : KeyTree} (h : hive.ReadsTree t) (path : Str) :
    ∃ found, Exec.Evals (fun n => hive.openKey n path) (.ok found) ∧
      ∀ key, found = some key → ∃ c, Reads hive.reader key c := by
  obtain ⟨root, hroot, hreads⟩ := h
  have hopen : ∀ n, hive.openKey n path = root.subkeyPath hive.reader n path := fun n => by
    rw [Hive.openKey, hroot, Exec.ok_bind]
  by_cases hparts : Key.pathParts path = []
  · refine ⟨none, ⟨0, fun n _ => ?_⟩, fun key hkey => by cases hkey⟩
    dsimp only
    rw [hopen, Key.subkeyPath, hparts]
  · obtain ⟨found, hfound, hrel⟩ := @descend_reads _ (Key.pathParts path) _ _ hreads
    refine ⟨found, hfound.congr fun n => ?_, ?_⟩
    · rw [hopen, Key.subkeyPath_eq_descend _ _ _ hparts]
    · rintro key rfl
      generalize t.atPath (Key.pathParts path) = c at hrel
      cases hrel with
      | some hkey => exact ⟨_, hkey⟩

/-- **A run over a hive that reads as a tree** returns. -/
theorem parse_of_readsTree {hive : Hive} {t : KeyTree} (h : hive.ReadsTree t) :
    ∃ entries, Exec.Evals (parse env hive) (.ok entries) := by
  have hfold : ∀ (paths : List Str) (entries : List ShellbagEntry), ∃ out,
      Exec.Evals (fun n => paths.foldlM (probe env hive n) entries) (.ok out) := by
    intro paths
    induction paths with
    | nil => exact fun entries => ⟨entries, Exec.Evals.const _⟩
    | cons path paths ih =>
      intro entries
      obtain ⟨next, hnext⟩ : ∃ next,
          Exec.Evals (fun n => probe env hive n entries path) (.ok next) := by
        obtain ⟨found, hopen, hreads⟩ := openKey_of_readsTree h path
        cases found with
        | none => exact ⟨entries, Exec.Evals.bind hopen.attempt (Exec.Evals.const _)⟩
        | some key =>
          obtain ⟨c, hc⟩ := hreads key rfl
          obtain ⟨out, hout⟩ := walkKey_of_reads env hc path entries
          exact ⟨out, Exec.Evals.bind hopen.attempt hout⟩
      obtain ⟨out, hout⟩ := ih next
      exact ⟨out, Exec.Evals.bind hnext hout⟩
  exact hfold bagmruPaths []

end Readable

/-! ## A built hive -/

/-- A `BagMRU` key with a slot and an unnamed value. -/
def bagBuilder : TestUtil.TestHiveBuilder where
  keys := ["Software\\Microsoft\\Windows\\Shell\\BagMRU".toList]
  values := [⟨"Software\\Microsoft\\Windows\\Shell\\BagMRU".toList, ['0'], 3, [1, 2]⟩,
    ⟨"Software\\Microsoft\\Windows\\Shell\\BagMRU".toList, [], 1, [0, 0]⟩]
  keyFiletime := 0

/-- The sample can be written. -/
theorem bagBuilder_valid : bagBuilder.Valid where
  components := by decide
  valueNames := by decide
  children p := by
    have hlen : (bagBuilder.childNames p).length ≤ bagBuilder.closure.length :=
      List.length_filterMap_le _ _
    have hfew : bagBuilder.closure.length ≤ 65535 := by decide
    exact hlen.trans hfew
  data := by decide

/-- The names of the values that a key of a tree has. -/
def valueNames (t : KeyTree) : List Str := t.values.map RegValue.name

/-- Some file opens as a hive that has this key: the key is opened by the first probed path, and has
    a value without a name. -/
theorem exists_bagHive : ∃ image hive key, Hive.fromBytes image = .ok hive ∧
    (∃ t, hive.ReadsTree t) ∧
    Exec.Evals (fun n => hive.openKey n "Software\\Microsoft\\Windows\\Shell\\BagMRU".toList)
      (.ok (some key)) ∧
    ∃ values, key.values hive.reader = .ok values ∧ ∃ val ∈ values, val.name = [] := by
  have hbuilt : bagBuilder.depth < 6 ∧ bagBuilder.planOf.totalFileSize < 2 ^ 31 ∧
      (bagBuilder.tree.atPath ["Software".toList, "Microsoft".toList, "Windows".toList,
        "Shell".toList, "BagMRU".toList]).map valueNames = some [['0'], []] := by decide
  obtain ⟨hdepth, hsize, hnames⟩ := hbuilt
  obtain ⟨plan, hplan, hreads⟩ := TestUtil.build_reads bagBuilder_valid hdepth
  obtain rfl : plan = bagBuilder.planOf :=
    Exec.ok.inj (hplan.symm.trans (TestUtil.plan_eq bagBuilder_valid hdepth))
  obtain ⟨image, hive, _, _, hopen, htree⟩ := hreads hsize
  obtain ⟨found, hfound, hrel⟩ := @Diff.openKey_reads hive _ htree ["Software".toList,
    "Microsoft".toList, "Windows".toList, "Shell".toList, "BagMRU".toList] (by decide) (by decide)
  obtain ⟨bag, hbag, hbagNames⟩ := Option.map_eq_some_iff.mp hnames
  rw [hbag] at hrel
  cases hrel with
  | @some key _ hkey =>
    refine ⟨image, hive, key, hopen, ⟨_, htree⟩, hfound, ?_⟩
    cases hkey with
    | @node _ vals values _ _ hvals hvalues =>
      have hunnamed : [] ∈ values.map RegValue.name := by
        rw [show values.map RegValue.name = [['0'], []] from hbagNames]
        decide
      obtain ⟨v, hv, hname⟩ := List.mem_map.mp hunnamed
      obtain ⟨val, hval, hsame⟩ := forall₂_right hvalues hv
      exact ⟨vals, hvals, val, hval, hsame.name.trans hname⟩

/-- A time library and a decoder of shell items that give nothing. -/
def noShell : ShellEnv := ⟨fun _ => none, fun _ => []⟩

/-- The paths of a run over a hive with a `BagMRU` key. -/
theorem parse_path_iff_bag : ∃ (hive : Hive) (n : Nat) (entries : List ShellbagEntry),
    parse noShell hive n = .ok entries ∧ ∃ bags : List (Key × Str),
      bagKeys hive n = .ok bags ∧
      (∀ key, key ∈ bags.map Prod.fst ↔ IsBagKey hive n key) ∧
      List.Forall₂ (fun bag entry => entry.keyPath = bag.2 ∧
        (entry.path = slotPath noShell hive.reader bag.1 ↔
          ∀ values, bag.1.values hive.reader = .ok values → ∀ val ∈ values, val.name ≠ []))
        bags entries := by
  obtain ⟨_, hive, _, _, ⟨t, htree⟩, _⟩ := exists_bagHive
  obtain ⟨entries, N, hparse⟩ := parse_of_readsTree noShell htree
  exact ⟨hive, N, entries, hparse N (Nat.le_refl N), parse_path_iff (hparse N (Nat.le_refl N))⟩

/-- **An unnamed value is taken for a slot**: the path of the `BagMRU` key of this hive is not that
    of its slots. -/
theorem parse_path_unnamed : ∃ image hive n entries key keyPath entry,
    Hive.fromBytes image = .ok hive ∧ parse noShell hive n = .ok entries ∧ IsBagKey hive n key ∧
    entry ∈ entries ∧ keyEntry noShell hive.reader key keyPath = .ok entry ∧
    entry.path ≠ slotPath noShell hive.reader key := by
  obtain ⟨image, hive, key, hopen, ⟨t, htree⟩, ⟨M, hkey⟩, values, hvalues, val, hval, hname⟩ :=
    exists_bagHive
  obtain ⟨entries, N, hparse⟩ := parse_of_readsTree noShell htree
  have hrun := hparse (max N M) (Nat.le_max_left N M)
  have hbag : IsBagKey hive (max N M) key :=
    ⟨_, List.mem_cons_self, key, hkey (max N M) (Nat.le_max_right N M), ReflTransGen.refl⟩
  obtain ⟨bags, hbags, hentries⟩ := parse_follows noShell hive _ entries hrun
  obtain ⟨⟨k, keyPath⟩, hmem, rfl⟩ := List.mem_map.mp ((mem_bagKeys hbags key).mpr hbag)
  obtain ⟨entry, hentry, hof⟩ := forall₂_left hentries hmem
  refine ⟨image, hive, _, entries, k, keyPath, entry, hopen, hrun, hbag, hentry, hof, ?_⟩
  obtain ⟨order, _, hrest⟩ := Exec.bind_eq_ok.mp hof
  obtain ⟨path, hpath, hok⟩ := Exec.bind_eq_ok.mp hrest
  obtain rfl := Exec.ok.inj hok
  show path ≠ slotPath noShell hive.reader k
  rcases buildSlotPath_eq hpath with ⟨values', hvalues', rfl⟩ | ⟨⟨e, herr⟩, _⟩
  · obtain rfl := Exec.ok.inj (hvalues.symm.trans hvalues')
    unfold slotPath
    dsimp only at hvalues
    rw [hvalues]
    dsimp only
    rw [Ne, joinedSlots_eq_iff]
    exact fun hnamed => hnamed val hval hname
  · cases hvalues.symm.trans herr

end ShellBags

end Winreg
