/-
  WALK AGREEMENT: the values of one key, walked alone and with the whole hive.

  `walk_values` goes down to a key along the path that `walk_keys` reports, and that path was read
  by going up the parent fields; `walk_all_values` takes the key from the iterator.  They agree
  where paths find their keys.  That of the root does not: it is empty, and an empty path opens no
  key.

  1. **One way to each key** — with consistent parent fields the iterator reaches every key once
     (`KeysBelow.nodup`).
  2. **Records of a path** — so the records with a path are those of the keys with this path, joined
     (`filter_walkAllValues`).
  3. **Paths** — where only the root has the flag `KEY_HIVE_ENTRY`, the path of a key below it opens
     the key (`openKey_keyPath`).
  4. **Agreement** — the walkers agree exactly if every path finds its keys, or by chance a key with
     equal records; where only the root has the flag, if the root has no values
     (`walkersAgree_iff`).
-/
import Winreg.Artifacts.LostKeys

namespace Winreg

open Rust Relation

namespace RegistryKeys

/-! ## One way to each key -/

section Ways

variable {r : CellReader} {root : Key}

/-- Siblings have no key below them in common. -/
theorem disjoint_of_siblings (tree : ConsistentTree r root) {names : List Str} {a k : Key}
    (ha : Below r root names a) {kids : List Key}
    (hkids : Exec.Evals (fun n => a.subkeys r n) (.ok kids)) {i j : Nat} (hi : i < kids.length)
    (hj : j < kids.length) (hreachI : ReflTransGen (Kids r) kids[i] k)
    (hreachJ : ReflTransGen (Kids r) kids[j] k) : i = j := by
  obtain ⟨restI, hbelowI⟩ :=
    (Below.kid ha ⟨kids, hkids, List.getElem_mem hi⟩).append hreachI
  obtain ⟨restJ, hbelowJ⟩ :=
    (Below.kid ha ⟨kids, hkids, List.getElem_mem hj⟩).append hreachJ
  have hnames := hbelowI.names_unique tree hbelowJ
  rw [List.append_assoc, List.append_assoc, List.append_cancel_left_eq] at hnames
  -- the one way down to `k` goes on from `a` with the name of one subkey
  have hname : kids[i].name = kids[j].name := (List.cons.inj hnames).1
  have hdistinct := tree.distinct a kids ha.reachable hkids
  have hsame : kids[i] = kids[j] := List.inj_on_of_nodup_map hdistinct (List.getElem_mem hi)
    (List.getElem_mem hj) (congrArg toAsciiUppercase hname)
  exact (hdistinct.of_map _).getElem_inj_iff.mp hsame

/-- **The tree holds every key once.** -/
theorem KeysBelow.nodup (tree : ConsistentTree r root) {key : Key} {t : Rose Key}
    (h : KeysBelow r key t) :
    ∀ {names : List Str}, Below r root names key → t.preorder.Nodup := by
  induction h with
  | @listed key kids children hkids hlength hchildren ih =>
    intro names hkey
    have hkid : ∀ i (hi : i < kids.length), Kids r key kids[i] := fun i hi =>
      ⟨kids, hkids, List.getElem_mem hi⟩
    have hmem : ∀ i (hi : i < kids.length) k, k ∈ children[i].preorder ↔
        ReflTransGen (Kids r) kids[i] k := fun i hi =>
      (hchildren _ (getElem_mem_zip hlength hi)).mem_preorder
    rw [Rose.preorder, List.nodup_cons, List.nodup_flatMap]
    refine ⟨fun hcycle => ?_, fun c hc => ?_, ?_⟩
    · -- the key is not below itself
      obtain ⟨c, hc, hin⟩ := List.mem_flatMap.mp hcycle
      obtain ⟨i, hi, rfl⟩ := List.getElem_of_mem hc
      have hi' : i < kids.length := by omega
      exact tree.acyclic key hkey.reachable
        (TransGen.head' (hkid i hi') ((hmem i hi' key).mp hin))
    · obtain ⟨i, hi, rfl⟩ := List.getElem_of_mem hc
      have hi' : i < kids.length := by omega
      exact ih _ (getElem_mem_zip hlength hi') (.kid hkey (hkid i hi'))
    · -- nor is any key below two of its subkeys
      rw [List.pairwise_iff_getElem]
      intro i j hi hj hij k hkI hkJ
      have hi' : i < kids.length := by omega
      have hj' : j < kids.length := by omega
      have heq := disjoint_of_siblings tree hkey hkids hi' hj' ((hmem i hi' k).mp hkI)
        ((hmem j hj' k).mp hkJ)
      omega
  | unread =>
    intro names _
    rw [Rose.preorder, List.flatMap_nil]
    exact List.nodup_singleton _

end Ways

/-! ## Records of a path -/

/-- Some value of the key is listed. -/
def HasValues (r : CellReader) (key : Key) : Prop :=
  ∃ value values, key.values r = .ok (value :: values)

section Records

variable {r : CellReader} {path : Str} {key : Key} {infos : List RegistryValueInfo}

/-- The records of a key are those of its values, where these can be listed. -/
theorem valueInfos_eq_ok (h : valueInfos r path key = .ok infos) :
    ((∃ e, key.values r = .err e) ∧ infos = []) ∨ ∃ values, key.values r = .ok values ∧
      List.Forall₂ (fun value info => valueToInfo r path value = .ok info) values infos := by
  unfold valueInfos at h
  cases hvalues : key.values r with
  | ok values =>
    rw [hvalues] at h
    exact .inr ⟨values, rfl, Exec.mapM_eq_ok h⟩
  | err e =>
    rw [hvalues] at h
    exact .inl ⟨⟨e, rfl⟩, (Exec.ok.inj h).symm⟩
  | panic => rw [hvalues] at h; cases h
  | timeout => rw [hvalues] at h; cases h

/-- A key without values has no records. -/
theorem valueInfos_empty (hempty : ¬ HasValues r key) (h : valueInfos r path key = .ok infos) :
    infos = [] := by
  obtain ⟨_, hinfos⟩ | ⟨values, hvalues, hall⟩ := valueInfos_eq_ok h
  · exact hinfos
  · cases values with
    | nil => exact List.forall₂_nil_left_iff.mp hall
    | cons value values => exact absurd ⟨value, values, hvalues⟩ hempty

/-- A key without values has nothing to report, whatever its path is called. -/
theorem valueInfos_of_empty (hempty : ¬ HasValues r key) (h : valueInfos r path key = .ok infos)
    (path' : Str) : valueInfos r path' key = .ok [] := by
  unfold valueInfos
  obtain ⟨⟨e, he⟩, _⟩ | ⟨values, hvalues, _⟩ := valueInfos_eq_ok h
  · rw [he]
    rfl
  · cases values with
    | nil =>
      rw [hvalues]
      rfl
    | cons value values => exact absurd ⟨value, values, hvalues⟩ hempty

/-- Every record of a key has the path of the key. -/
theorem keyPath_of_valueInfos (h : valueInfos r path key = .ok infos) :
    ∀ info ∈ infos, info.keyPath = path := by
  intro info hinfo
  obtain ⟨_, rfl⟩ | ⟨values, _, hall⟩ := valueInfos_eq_ok h
  · cases hinfo
  · obtain ⟨value, _, hvalue⟩ := forall₂_right hall hinfo
    obtain ⟨_, _, hinfo⟩ := Exec.bind_eq_ok.mp hvalue
    rw [← Exec.ok.inj hinfo]

end Records

section Paths

variable {hive : Hive} {root : Key}

/-- Where every listing in reach can be read, the iterator yields every key. -/
theorem keysOf_tree (tree : ConsistentTree hive.reader root) {t : Rose Key}
    (ht : KeysBelow hive.reader root t) :
    keysOf (t.levelOrder.map (yielded hive.reader)) = t.levelOrder :=
  keysOf_yielded fun key hkey => by
    obtain ⟨kids, hkids⟩ := tree.readable key ((ht.mem_levelOrder key).mp hkey)
    exact yielded_listed hkids

/-- The records of a key with this path: all of its records, or none. -/
def RecordsUnder (r : CellReader) (path : Str) (key : Key) (l : List RegistryValueInfo) : Prop :=
  (keyPath r key = .ok path ∧ valueInfos r path key = .ok l) ∨ (keyPath r key ≠ .ok path ∧ l = [])

/-- **The records with a path** are those of the keys with this path, joined. -/
theorem filter_walkAllValues (hroot : hive.rootKey = .ok root)
    (tree : ConsistentTree hive.reader root) {t : Rose Key} (ht : KeysBelow hive.reader root t)
    {all : List RegistryValueInfo} (hall : Exec.Evals (walkAllValues hive) (.ok all))
    (path : Str) : ∃ lists,
      List.Forall₂ (RecordsUnder hive.reader path) t.levelOrder lists ∧
      all.filter (fun info => info.keyPath = path) = lists.flatten := by
  obtain ⟨_, values, hvalues, rfl⟩ := (walkAllValues_evals_iff hroot ht).mp hall
  rw [keysOf_tree tree ht] at hvalues
  rw [List.filter_flatten]
  refine ⟨_, ?_, rfl⟩
  rw [List.forall₂_map_right_iff]
  refine hvalues.imp fun key infos hkey => ?_
  obtain ⟨path', hpath', hinfos⟩ := Exec.bind_eq_ok.mp hkey
  have hpaths := keyPath_of_valueInfos hinfos
  by_cases hsame : path' = path
  · subst hsame
    refine .inl ⟨hpath', ?_⟩
    rw [hinfos, List.filter_eq_self.mpr fun info hinfo => decide_eq_true (hpaths info hinfo)]
  · refine .inr ⟨fun hpath => hsame (Exec.ok.inj (hpath'.symm.trans hpath)), ?_⟩
    refine List.filter_eq_nil_iff.mpr fun info hinfo heq => hsame ?_
    exact (hpaths info hinfo).symm.trans (of_decide_eq_true heq)

/-- So they are the records of one key, if no other key with this path has values. -/
theorem filter_walkAllValues_single (hroot : hive.rootKey = .ok root)
    (tree : ConsistentTree hive.reader root) {all : List RegistryValueInfo}
    (hall : Exec.Evals (walkAllValues hive) (.ok all)) {k : Key}
    (hk : ReflTransGen (Kids hive.reader) root k) {path : Str}
    (hpath : keyPath hive.reader k = .ok path)
    (honly : ∀ other, ReflTransGen (Kids hive.reader) root other → other ≠ k →
      keyPath hive.reader other = .ok path → ¬ HasValues hive.reader other) :
    valueInfos hive.reader path k = .ok (all.filter fun info => info.keyPath = path) := by
  obtain ⟨t, ht⟩ := exists_keysBelow (noCycleFrom_iff_acc.mp tree.acyclic)
  obtain ⟨lists, hlists, hfilter⟩ := filter_walkAllValues hroot tree ht hall path
  have hmem : k ∈ t.levelOrder := (ht.mem_levelOrder k).mpr hk
  have hnodup : t.levelOrder.Nodup :=
    t.levelOrder_perm_preorder.nodup_iff.mpr (ht.nodup tree .root)
  obtain ⟨infos, _, ⟨_, hinfos⟩ | ⟨hother, _⟩⟩ := forall₂_left hlists hmem
  case inr => exact absurd hpath hother
  rw [hinfos, hfilter]
  refine congrArg Exec.ok (flatten_of_single hnodup hmem ?_).symm
  have hreached := (List.forall₂_and_left _ _).mpr
    ⟨fun key hkey => (ht.mem_levelOrder key).mp hkey, hlists⟩
  refine hreached.imp fun key l hkey => ?_
  obtain ⟨hkey, ⟨hsame, hl⟩ | ⟨hother, hl⟩⟩ := hkey
  · refine ⟨fun heq => ?_, fun hne => valueInfos_empty (honly key hkey hne hsame) hl⟩
    subst heq
    exact Exec.ok.inj (hl.symm.trans hinfos)
  · exact ⟨fun heq => absurd (heq ▸ hpath) hother, fun _ => hl⟩

/-! ## Paths -/

/-- No key is more than 513 keys below the root. -/
def WithinDepth (hive : Hive) (root : Key) : Prop :=
  ∀ names k, Below hive.reader root names k → names.length ≤ 513

/-- Where only the root is flagged its path is the empty one. -/
theorem keyPath_root (hflags : FlagsRoot hive.reader root) :
    keyPath hive.reader root = .ok [] :=
  if_pos ((hflags root ReflTransGen.refl).mpr rfl)

/-- The path of a key below the root opens the key. -/
theorem openKey_keyPath (hroot : hive.rootKey = .ok root) (tree : PathTree hive.reader root)
    (hdepth : WithinDepth hive root) {k : Key} (hk : ReflTransGen (Kids hive.reader) root k)
    (hne : k ≠ root) {path : Str} (hpath : keyPath hive.reader k = .ok path) :
    Exec.Evals (fun n => hive.openKey n path) (.ok (some k)) := by
  obtain ⟨names, hbelow⟩ := exists_below hk
  obtain ⟨path', hpath', hopen⟩ := openKey_path hroot tree hbelow hne (hdepth _ _ hbelow)
  have hflag : ¬ k.node.isRoot = true := mt (tree.hiveEntry k hk).mp hne
  unfold keyPath at hpath
  rw [if_neg hflag, hpath', Exec.unwrapOr_ok] at hpath
  obtain rfl := Exec.ok.inj hpath
  exact hopen

/-- An empty path opens no key. -/
theorem openKey_nil (hroot : hive.rootKey = .ok root) :
    Exec.Evals (fun n => hive.openKey n []) (.ok none) := by
  refine ⟨0, fun n _ => ?_⟩
  unfold Hive.openKey
  rw [hroot]
  rfl

/-- In a readable tree every path opens a key in reach, or none. -/
theorem exists_openKey (hroot : hive.rootKey = .ok root)
    (tree : ConsistentTree hive.reader root) (path : Str) : ∃ found,
      Exec.Evals (fun n => hive.openKey n path) (.ok found) ∧
      ∀ k, found = some k → ReflTransGen (Kids hive.reader) root k := by
  have hopen : ∀ n, hive.openKey n path = root.subkeyPath hive.reader n path := by
    intro n
    rw [Hive.openKey, hroot, Exec.ok_bind]
  by_cases hparts : Key.pathParts path = []
  · refine ⟨none, ⟨0, fun n _ => ?_⟩, fun k hk => by cases hk⟩
    refine (hopen n).trans ?_
    rw [Key.subkeyPath, hparts]
  · obtain ⟨found, hfound, hreach⟩ := exists_descend tree.readable (Key.pathParts path)
      ReflTransGen.refl
    refine ⟨found, hfound.congr fun n => ?_, hreach⟩
    rw [hopen, Key.subkeyPath]
    split
    · exact absurd ‹_› hparts
    · rfl

/-- What is walked where a path opens a key, or none. -/
theorem walkValues_some {path : Str} {k : Key} {r : Exec HiveError (List RegistryValueInfo)}
    (hopen : Exec.Evals (fun n => hive.openKey n path) (.ok (some k)))
    (hinfos : valueInfos hive.reader path k = r) : Exec.Evals (walkValues hive path) r :=
  Exec.Evals.bind hopen.attempt ⟨0, fun _ _ => hinfos⟩

/-- A path that opens nothing gives nothing. -/
theorem walkValues_none {path : Str}
    (hopen : Exec.Evals (fun n => hive.openKey n path) (.ok none)) :
    Exec.Evals (walkValues hive path) (.ok []) :=
  Exec.Evals.bind hopen.attempt (Exec.Evals.const _)

end Paths

/-! ## Agreement -/

section Agreement

variable {hive : Hive} {root : Key} {Timestamp : Type} (jiff : Jiff Timestamp)
  (strftime : Str → Timestamp → Option Str)

/-- **The walkers agree**: what `walk_values` records at the path of a reported key is what
    `walk_all_values` records with that path, and the values of the key are all among it. -/
def WalkersAgree (hive : Hive) (root : Key) : Prop :=
  ∃ infos all, Exec.Evals (walkKeys jiff strftime hive) (.ok infos) ∧
    Exec.Evals (walkAllValues hive) (.ok all) ∧ ∀ info ∈ infos,
      Exec.Evals (walkValues hive info.path)
        (.ok (all.filter fun value => value.keyPath = info.path)) ∧
      ∀ key values, ReflTransGen (Kids hive.reader) root key →
        keyInfo jiff strftime hive.reader key = .ok info → key.values hive.reader = .ok values →
        ∃ own, List.Forall₂ (fun value info' => valueToInfo hive.reader info.path value = .ok info')
            values own ∧ own.Sublist (all.filter fun value => value.keyPath = info.path)

/-- Reading the path and the values of every key in reach comes back. -/
def ReadsValues (hive : Hive) (root : Key) : Prop :=
  ∀ key, ReflTransGen (Kids hive.reader) root key →
    ∃ infos, keyValues hive.reader key = .ok infos

/-- A path finds its keys: those with values that have the path, and no other one. -/
structure FindsKeys (hive : Hive) (root : Key) (path : Str) : Prop where
  /-- The path opens every key with values that has it. -/
  opens : ∀ key, ReflTransGen (Kids hive.reader) root key → keyPath hive.reader key = .ok path →
    HasValues hive.reader key → Exec.Evals (fun n => hive.openKey n path) (.ok (some key))
  /-- A key with values that it opens has this path. -/
  named : ∀ opened, Exec.Evals (fun n => hive.openKey n path) (.ok (some opened)) →
    HasValues hive.reader opened → keyPath hive.reader opened = .ok path

/-- A path opens a key that does not have it, and the values of this key happen to be recorded
    as those of the keys with the path. -/
def FindsEqual (hive : Hive) (root : Key) (path : Str) : Prop :=
  ∃ opened t lists, Exec.Evals (fun n => hive.openKey n path) (.ok (some opened)) ∧
    keyPath hive.reader opened ≠ .ok path ∧ KeysBelow hive.reader root t ∧
    List.Forall₂ (RecordsUnder hive.reader path) t.levelOrder lists ∧
    valueInfos hive.reader path opened = .ok lists.flatten

variable {jiff strftime} in
/-- The path that is reported of a key is the one that is computed for it. -/
theorem keyPath_of_keyInfo {r : CellReader} {key : Key} {info : RegistryKeyInfo}
    (h : keyInfo jiff strftime r key = .ok info) : keyPath r key = .ok info.path := by
  obtain ⟨path, hpath, hinfo⟩ := Exec.bind_eq_ok.mp h
  rw [hpath, ← Exec.ok.inj hinfo]

/-- The values of a key are all among what is recorded with its path. -/
theorem own_sublist (hroot : hive.rootKey = .ok root) (tree : ConsistentTree hive.reader root)
    {all : List RegistryValueInfo} (hall : Exec.Evals (walkAllValues hive) (.ok all)) {k : Key}
    (hk : ReflTransGen (Kids hive.reader) root k) {path : Str}
    (hpath : keyPath hive.reader k = .ok path) {values : List Value}
    (hvalues : k.values hive.reader = .ok values) :
    ∃ own, List.Forall₂ (fun value info => valueToInfo hive.reader path value = .ok info)
      values own ∧ own.Sublist (all.filter fun info => info.keyPath = path) := by
  obtain ⟨t, ht⟩ := exists_keysBelow (noCycleFrom_iff_acc.mp tree.acyclic)
  obtain ⟨lists, hlists, hfilter⟩ := filter_walkAllValues hroot tree ht hall path
  obtain ⟨own, hmem, ⟨_, hown⟩ | ⟨hother, _⟩⟩ :=
    forall₂_left hlists ((ht.mem_levelOrder k).mpr hk)
  case inr => exact absurd hpath hother
  obtain ⟨⟨e, he⟩, _⟩ | ⟨values', hvalues', hrecords⟩ := valueInfos_eq_ok hown
  · cases hvalues.symm.trans he
  · obtain rfl := Exec.ok.inj (hvalues.symm.trans hvalues')
    rw [hfilter]
    exact ⟨own, hrecords, List.sublist_flatten_of_mem hmem⟩

/-- A path that finds its keys: the walk of the path gives what is recorded with it. -/
theorem walkValues_of_findsKeys (hroot : hive.rootKey = .ok root)
    (tree : ConsistentTree hive.reader root) (hreads : ReadsValues hive root)
    {all : List RegistryValueInfo} (hall : Exec.Evals (walkAllValues hive) (.ok all)) {k : Key}
    (hk : ReflTransGen (Kids hive.reader) root k) {path : Str}
    (hpath : keyPath hive.reader k = .ok path) (h : FindsKeys hive root path) :
    Exec.Evals (walkValues hive path) (.ok (all.filter fun info => info.keyPath = path)) := by
  by_cases hvalued : ∃ s, ReflTransGen (Kids hive.reader) root s ∧
      keyPath hive.reader s = .ok path ∧ HasValues hive.reader s
  · -- the one key with this path and values is the key that the path opens
    obtain ⟨s, hs, hspath, hsvalues⟩ := hvalued
    have hopen := h.opens s hs hspath hsvalues
    refine walkValues_some hopen (filter_walkAllValues_single hroot tree hall hs hspath ?_)
    intro other hother hne hopath hovalues
    exact hne (Option.some.inj (Exec.ok.inj ((h.opens other hother hopath hovalues).unique hopen)))
  · -- no record has this path, and the path opens no key with values
    have hnone : ∀ other, ReflTransGen (Kids hive.reader) root other →
        keyPath hive.reader other = .ok path → ¬ HasValues hive.reader other :=
      fun other hother hopath hovalues => hvalued ⟨other, hother, hopath, hovalues⟩
    have hinfos := filter_walkAllValues_single hroot tree hall hk hpath
      fun other hother _ => hnone other hother
    rw [valueInfos_empty (hnone k hk hpath) hinfos]
    obtain ⟨found, hfound, hreach⟩ := exists_openKey hroot tree path
    cases found with
    | none => exact walkValues_none hfound
    | some opened =>
      have hopened := hreach opened rfl
      have hempty : ¬ HasValues hive.reader opened := fun hovalues =>
        hnone opened hopened (h.named opened hfound hovalues) hovalues
      obtain ⟨infos, hread⟩ := hreads opened hopened
      obtain ⟨_, _, hread⟩ := Exec.bind_eq_ok.mp hread
      exact walkValues_some hfound (valueInfos_of_empty hempty hread path)

/-- The records of a key with a path are one list. -/
theorem RecordsUnder.unique {r : CellReader} {path : Str} {key : Key}
    {l l' : List RegistryValueInfo} (h : RecordsUnder r path key l)
    (h' : RecordsUnder r path key l') : l = l' := by
  obtain ⟨hsame, hl⟩ | ⟨hother, hl⟩ := h
  · obtain ⟨_, hl'⟩ | ⟨hother, _⟩ := h'
    · exact Exec.ok.inj (hl.symm.trans hl')
    · exact absurd hsame hother
  · obtain ⟨hsame, _⟩ | ⟨_, hl'⟩ := h'
    · exact absurd hsame hother
    · rw [hl, hl']

/-- A key with values that has a path is the only one, and the path opens it, where the records of
    the opened key are all that have the path. -/
theorem eq_of_filter_walkAllValues (hroot : hive.rootKey = .ok root)
    (tree : ConsistentTree hive.reader root) {all : List RegistryValueInfo}
    (hall : Exec.Evals (walkAllValues hive) (.ok all)) {path : Str} {opened : Key}
    (hopened : ReflTransGen (Kids hive.reader) root opened)
    (hpath : keyPath hive.reader opened = .ok path)
    (hinfos : valueInfos hive.reader path opened =
      .ok (all.filter fun info => info.keyPath = path))
    {k : Key} (hk : ReflTransGen (Kids hive.reader) root k)
    (hkpath : keyPath hive.reader k = .ok path) (hvalues : HasValues hive.reader k) :
    k = opened := by
  by_contra hne
  obtain ⟨t, ht⟩ := exists_keysBelow (noCycleFrom_iff_acc.mp tree.acyclic)
  obtain ⟨lists, hlists, hfilter⟩ := filter_walkAllValues hroot tree ht hall path
  obtain ⟨u, v, hu, hv, hle⟩ := length_add_le_flatten hlists ((ht.mem_levelOrder k).mpr hk)
    ((ht.mem_levelOrder opened).mpr hopened) hne
  have hv' : v = lists.flatten := hv.unique (.inl ⟨hpath, hfilter ▸ hinfos⟩)
  -- so the key has no record, although it has a value
  have hempty : u = [] := List.length_eq_zero_iff.mp (by rw [hv'] at hle; omega)
  obtain ⟨value, values, hlisted⟩ := hvalues
  obtain ⟨_, hu⟩ | ⟨hother, _⟩ := hu
  · obtain ⟨⟨e, he⟩, _⟩ | ⟨values', hlisted', hrecords⟩ := valueInfos_eq_ok hu
    · cases hlisted.symm.trans he
    · obtain rfl := Exec.ok.inj (hlisted.symm.trans hlisted')
      rw [hempty] at hrecords
      cases hrecords
  · exact hother hkpath

/-- **The walk of a path gives what is recorded with it** only if the path finds its keys, or a key
    of another path with equal records. -/
theorem finds_of_walkValues (hroot : hive.rootKey = .ok root)
    (tree : ConsistentTree hive.reader root) {all : List RegistryValueInfo}
    (hall : Exec.Evals (walkAllValues hive) (.ok all)) {path : Str}
    (heval : Exec.Evals (walkValues hive path)
      (.ok (all.filter fun info => info.keyPath = path))) :
    FindsKeys hive root path ∨ FindsEqual hive root path := by
  obtain ⟨t, ht⟩ := exists_keysBelow (noCycleFrom_iff_acc.mp tree.acyclic)
  obtain ⟨lists, hlists, hfilter⟩ := filter_walkAllValues hroot tree ht hall path
  obtain ⟨found, hfound, hreach⟩ := exists_openKey hroot tree path
  cases found with
  | none =>
    -- nothing is walked, so no key with values has the path
    have hnone := Exec.ok.inj (heval.unique (walkValues_none hfound))
    refine .inl ⟨fun key hkey hpath hvalues => ?_, fun opened hopen _ => ?_⟩
    · obtain ⟨value, values, hlisted⟩ := hvalues
      obtain ⟨own, hown, hsub⟩ := own_sublist hroot tree hall hkey hpath hlisted
      rw [hnone, List.sublist_nil] at hsub
      subst hsub
      cases hown
    · cases Exec.ok.inj (hfound.unique hopen)
  | some opened =>
    have hinfos := (walkValues_some hfound rfl).unique heval
    by_cases hpath : keyPath hive.reader opened = .ok path
    · refine .inl ⟨fun key hkey hkpath hvalues => ?_, fun opened' hopen' _ => ?_⟩
      · rw [eq_of_filter_walkAllValues hroot tree hall (hreach opened rfl) hpath hinfos hkey hkpath
          hvalues]
        exact hfound
      · obtain rfl := Option.some.inj (Exec.ok.inj (hfound.unique hopen'))
        exact hpath
    · exact .inr ⟨opened, t, lists, hfound, hpath, ht, hlists, hfilter ▸ hinfos⟩

/-- The walk of a path that opens a key with equal records. -/
theorem walkValues_of_findsEqual (hroot : hive.rootKey = .ok root)
    (tree : ConsistentTree hive.reader root) {all : List RegistryValueInfo}
    (hall : Exec.Evals (walkAllValues hive) (.ok all)) {path : Str}
    (h : FindsEqual hive root path) :
    Exec.Evals (walkValues hive path) (.ok (all.filter fun info => info.keyPath = path)) := by
  obtain ⟨opened, t, lists, hopen, _, ht, hlists, hinfos⟩ := h
  obtain ⟨lists', hlists', hfilter⟩ := filter_walkAllValues hroot tree ht hall path
  have hunique : Relator.RightUnique (RecordsUnder hive.reader path) :=
    fun _ _ _ => RecordsUnder.unique
  obtain rfl : lists = lists' := hunique.forall₂ hlists hlists'
  rw [hfilter]
  exact walkValues_some hopen hinfos

/-- The walkers agree exactly if what they read comes back, and the path of every key finds its
    keys, or a key with equal records. -/
theorem walkersAgree_iff_finds (hroot : hive.rootKey = .ok root)
    (tree : ConsistentTree hive.reader root) :
    WalkersAgree jiff strftime hive root ↔ ReadsValues hive root ∧
      ∀ key path, ReflTransGen (Kids hive.reader) root key →
        keyPath hive.reader key = .ok path →
          FindsKeys hive root path ∨ FindsEqual hive root path := by
  obtain ⟨t, ht⟩ := exists_keysBelow (noCycleFrom_iff_acc.mp tree.acyclic)
  have hkeys := keysOf_tree tree ht
  constructor
  · rintro ⟨infos, all, hinfos, hall, hagree⟩
    have hwalk := ((walkKeys_evals_iff jiff strftime hroot ht).mp hinfos).2
    obtain ⟨_, values, hvalues, _⟩ := (walkAllValues_evals_iff hroot ht).mp hall
    rw [hkeys] at hwalk hvalues
    refine ⟨fun key hkey => ?_, fun key path hkey hpath => ?_⟩
    · obtain ⟨vs, _, hvs⟩ := forall₂_left hvalues ((ht.mem_levelOrder key).mpr hkey)
      exact ⟨vs, hvs⟩
    · -- the key is reported with its path
      obtain ⟨info, hmem, hinfo⟩ := forall₂_left hwalk ((ht.mem_levelOrder key).mpr hkey)
      obtain rfl := Exec.ok.inj (hpath.symm.trans (keyPath_of_keyInfo hinfo))
      exact finds_of_walkValues hroot tree hall (hagree info hmem).1
  · -- from the keys that the paths find back to the two walks
    rintro ⟨hreads, hfinds⟩
    have hcycle : hive.NoKeyCycle := Hive.noKeyCycle_of_root hroot tree.acyclic
    have hread : ReadsAll hive := by
      refine ⟨by rw [hroot]; exact nofun, fun root' key h hkey => ?_, fun root' key h hkey => ?_⟩
      · obtain rfl := Exec.ok.inj (hroot.symm.trans h)
        exact tree.readable key hkey
      · obtain rfl := Exec.ok.inj (hroot.symm.trans h)
        exact hreads key hkey
    -- everything can be read, so both walks come back
    have hwalks := walksAll_of_readsAll jiff strftime hcycle hread
    obtain ⟨infos, hinfos, _⟩ := hwalks.keys
    obtain ⟨all, hall, _⟩ := hwalks.values
    have hwalk := ((walkKeys_evals_iff jiff strftime hroot ht).mp hinfos).2
    rw [hkeys] at hwalk
    refine ⟨infos, all, hinfos, hall, fun info hinfo =>
      ⟨?_, fun key values hkey hown hlisted => ?_⟩⟩
    · obtain ⟨key, hmem, hown⟩ := forall₂_right hwalk hinfo
      have hkey := (ht.mem_levelOrder key).mp hmem
      rcases hfinds key _ hkey (keyPath_of_keyInfo hown) with h | h
      · exact walkValues_of_findsKeys hroot tree hreads hall hkey (keyPath_of_keyInfo hown) h
      · exact walkValues_of_findsEqual hroot tree hall h
    · exact own_sublist hroot tree hall hkey (keyPath_of_keyInfo hown) hlisted

/-- Where only the root has the flag, every path finds its keys but that of the root. -/
theorem finds_iff_of_flags (hroot : hive.rootKey = .ok root)
    (tree : ConsistentTree hive.reader root) (hdepth : WithinDepth hive root)
    (hflags : FlagsRoot hive.reader root) :
    (∀ key path, ReflTransGen (Kids hive.reader) root key → keyPath hive.reader key = .ok path →
      FindsKeys hive root path ∨ FindsEqual hive root path) ↔
    ∀ values, root.values hive.reader = .ok values → values = [] := by
  have hnone := openKey_nil hroot
  constructor
  · intro h values hvalues
    rcases h root [] ReflTransGen.refl (keyPath_root hflags) with h | ⟨opened, _, _, hopen, _⟩
    · cases values with
      | nil => rfl
      | cons value values =>
        have hopen := h.opens root ReflTransGen.refl (keyPath_root hflags) ⟨value, values, hvalues⟩
        cases Exec.ok.inj (hopen.unique hnone)
    · cases Exec.ok.inj (hopen.unique hnone)
  · intro hempty key path hkey hpath
    refine .inl ⟨fun other hother hopath hovalues => ?_, fun opened hopen _ => ?_⟩
    · refine openKey_keyPath hroot ⟨tree, hflags⟩ hdepth hother ?_ hopath
      rintro rfl
      obtain ⟨value, values, hvalues⟩ := hovalues
      cases hempty _ hvalues
    · rcases eq_or_ne key root with rfl | hne
      · obtain rfl := Exec.ok.inj (hpath.symm.trans (keyPath_root hflags))
        cases Exec.ok.inj (hopen.unique hnone)
      · have hopen' := openKey_keyPath hroot ⟨tree, hflags⟩ hdepth hkey hne hpath
        obtain rfl := Option.some.inj (Exec.ok.inj (hopen.unique hopen'))
        exact hpath

/-- **When the walkers agree**: exactly if reading the values of every key comes back and every path
    finds its keys, or a key with equal records.  Where only the root has the flag, this means that
    the root has no values that can be listed.  One walker names the keys by their parents, the
    other opens these names again; so they can differ only where a name does not lead back to its
    key. -/
theorem walkersAgree_iff (hroot : hive.rootKey = .ok root)
    (tree : ConsistentTree hive.reader root) (hdepth : WithinDepth hive root) :
    (WalkersAgree jiff strftime hive root ↔ ReadsValues hive root ∧
      ∀ key path, ReflTransGen (Kids hive.reader) root key →
        keyPath hive.reader key = .ok path →
          FindsKeys hive root path ∨ FindsEqual hive root path) ∧
    (FlagsRoot hive.reader root → (WalkersAgree jiff strftime hive root ↔ ReadsValues hive root ∧
      ∀ values, root.values hive.reader = .ok values → values = [])) := by
  have hiff := walkersAgree_iff_finds jiff strftime hroot tree
  refine ⟨hiff, fun hflags => hiff.trans ?_⟩
  rw [finds_iff_of_flags hroot tree hdepth hflags]

end Agreement

/-- The walkers agree on the hive with the keys `A` and `A\B`. -/
theorem walkersAgree_iff_nested :
    WalkersAgree (⟨some, fun _ => none⟩ : Jiff Int) (fun _ _ => none) nestedHive nestedRoot := by
  obtain ⟨hroot, ha, _⟩ := nested_subkeys
  have hA : Below nestedHive.reader nestedRoot [nestedA.name] nestedA :=
    .kid .root ⟨_, hroot, List.mem_singleton_self _⟩
  have hB : Below nestedHive.reader nestedRoot [nestedA.name, nestedB.name] nestedB :=
    .kid hA ⟨_, ha, List.mem_singleton_self _⟩
  have hdepth : WithinDepth nestedHive nestedRoot := fun names k h => by
    rcases nested_reachable h.reachable with rfl | rfl | rfl
    · rw [h.names_unique nested_pathTree.consistent .root]
      exact Nat.zero_le _
    · rw [h.names_unique nested_pathTree.consistent hA]
      exact show 1 ≤ 513 by decide
    · rw [h.names_unique nested_pathTree.consistent hB]
      exact show 2 ≤ 513 by decide
  have hiff := walkersAgree_iff (⟨some, fun _ => none⟩ : Jiff Int) (fun _ _ => none) nested_rootKey
    nested_pathTree.consistent hdepth
  refine (hiff.2 nested_pathTree.hiveEntry).mpr
    ⟨fun key hkey => nested_readsAll.visited _ key nested_rootKey hkey, fun values h => ?_⟩
  exact (Exec.ok.inj h).symm

/-- A root with the value `V`, and no subkeys. -/
def valuedRoot : Key := ⟨nkRecord ⟨0x24⟩ 0 0xFFFFFFFF 1 112 [], ⟨32⟩⟩
/-- The value of the root. -/
def rootValue : Value := ⟨⟨1, 0x80000004, 0x2A, .dword, ⟨1⟩, [0x56]⟩, ⟨120⟩⟩

/-- The cells of the sample. -/
def valuedCells : Bytes :=
  cellBytes (-80) valuedRoot.node.toBytes ++ (cellBytes (-8) (u32Bytes 120) ++
    cellBytes (-32) (vkRecordBytes 0x80000004 0x2A 4 [0x56] ++ List.replicate 7 0))

/-- A hive whose root has a value. -/
def valuedHive : Hive := oneBinHive 32 valuedCells

/-- What the hive reads as: its root, no subkeys, one value. -/
theorem valued_reads : valuedRoot.AtOffset valuedHive.reader ∧
    valuedHive.rootKey = .ok valuedRoot ∧
    Exec.Evals (fun n => valuedRoot.subkeys valuedHive.reader n) (.ok []) ∧
    valuedRoot.values valuedHive.reader = .ok [rootValue] := by
  have hcells : valuedCells.length = 120 := by decide
  have hread : valuedRoot.AtOffset valuedHive.reader :=
    Hive.readCell_oneBin 0 80 (by omega) rfl (by decide) (by omega) (by decide)
      (by decide)
  have hreadV : valuedHive.reader.readCell rootValue.offset = .ok (.keyValue rootValue.vk) :=
    Hive.readCell_oneBin 88 32 (by omega) rfl (by decide) (by omega) (by decide)
      (by decide)
  have hlist : valuedHive.reader.readCellRaw ⟨112⟩ =
      .ok (⟨-(8 : Nat)⟩, bytesAt valuedCells 84 4) :=
    Hive.readCellRaw_oneBin (k := 80) (by omega) rfl (by decide) (by omega) (by decide)
  have hoff : rootValue.offset = ⟨leU32 (bytesAt valuedCells 84 4) 0⟩ := by decide
  refine ⟨hread, Hive.rootKey_eq hread rfl, ⟨0, fun _ _ => rfl⟩, ?_⟩
  refine values_of_listed rfl (by simp) rfl hlist (by decide) fun i hi => ?_
  obtain rfl : i = 0 := by simpa using hi
  exact ⟨hoff, hreadV⟩

/-- No key is below that root. -/
theorem valued_below {names : List Str} {k : Key}
    (h : Below valuedHive.reader valuedRoot names k) : names = [] ∧ k = valuedRoot := by
  induction h with
  | root => exact ⟨rfl, rfl⟩
  | kid _ hkid ih =>
    obtain ⟨rfl, rfl⟩ := ih
    obtain ⟨kids, hkids, hmem⟩ := hkid
    obtain rfl := Exec.ok.inj (hkids.unique valued_reads.2.2.1)
    cases hmem

/-- Its tree of paths: the root alone. -/
theorem valued_pathTree : PathTree valuedHive.reader valuedRoot := by
  obtain ⟨hread, _, hkids, _⟩ := valued_reads
  have honly : ∀ {k}, ReflTransGen (Kids valuedHive.reader) valuedRoot k → k = valuedRoot :=
    fun hk => (exists_below hk).elim fun _ h => (valued_below h).2
  have hno : ∀ k, ¬ Kids valuedHive.reader valuedRoot k := fun k hk =>
    absurd (valued_below (.kid .root hk)).1 (List.cons_ne_nil _ _)
  refine ⟨⟨hread, fun k hk => ?_, fun k hk hcycle => ?_, fun a b hreach hkid => ?_,
    fun k hk hne => absurd (honly hk) hne, fun a kids hreach hkids' => ?_⟩, fun k hk => ?_⟩
  · obtain rfl := honly hk
    exact ⟨_, hkids⟩
  · obtain rfl := honly hk
    obtain ⟨b, hb, _⟩ := TransGen.head'_iff.mp hcycle
    exact hno b hb
  · obtain rfl := honly hreach
    exact absurd hkid (hno b)
  · obtain rfl := honly hreach
    obtain rfl := Exec.ok.inj (hkids'.unique hkids)
    exact List.nodup_nil
  · obtain rfl := honly hk
    decide

/-- The value of the root is found by one walker only. -/
theorem walkersAgree_fails_valued :
    Hive.fromBytes (oneBinImage 32 valuedCells) = .ok valuedHive ∧
    valuedHive.rootKey = .ok valuedRoot ∧ PathTree valuedHive.reader valuedRoot ∧
    WithinDepth valuedHive valuedRoot ∧
    Exec.Evals (walkAllValues valuedHive)
      (.ok [⟨[], ['V'], "REG_DWORD".toList, "0x0000002A (42)".toList, 4⟩]) ∧
    Exec.Evals (walkValues valuedHive []) (.ok []) ∧
    ¬ WalkersAgree (⟨some, fun _ => none⟩ : Jiff Int) (fun _ _ => none) valuedHive valuedRoot := by
  obtain ⟨_, hroot, hkids, hvalues⟩ := valued_reads
  have hdepth : WithinDepth valuedHive valuedRoot := fun names k h => by
    rw [(valued_below h).1]
    exact Nat.zero_le _
  refine ⟨Hive.fromBytes_oneBinImage (by decide), hroot, valued_pathTree, hdepth, ?_,
    walkValues_none (openKey_nil hroot), fun h => ?_⟩
  · have ht : KeysBelow valuedHive.reader valuedRoot (.node valuedRoot []) :=
      .listed hkids rfl fun p hp => absurd hp List.not_mem_nil
    have hrecord : keyValues valuedHive.reader valuedRoot =
        .ok [⟨[], ['V'], "REG_DWORD".toList, "0x0000002A (42)".toList, 4⟩] := by
      rw [keyValues, keyPath_root valued_pathTree.hiveEntry, Exec.ok_bind, valueInfos, hvalues]
      rfl
    refine (walkAllValues_evals_iff hroot ht).mpr ⟨fun k hk => ?_, ?_⟩
    · obtain ⟨_, hbelow⟩ := exists_below hk
      obtain ⟨_, rfl⟩ := valued_below hbelow
      exact ⟨_, .inl ⟨[], rfl⟩, hkids⟩
    · rw [keysOf_tree valued_pathTree.consistent ht,
        show (Rose.node valuedRoot []).levelOrder = [valuedRoot] by
          simp [Rose.levelOrder, Rose.height, Rose.level, Rose.value]]
      exact ⟨[_], .cons hrecord .nil, rfl⟩
  · have hfinds := ((walkersAgree_iff_finds _ _ hroot valued_pathTree.consistent).mp h).2
    have hempty := (finds_iff_of_flags hroot valued_pathTree.consistent hdepth
      valued_pathTree.hiveEntry).mp hfinds _ hvalues
    cases hempty

end RegistryKeys

end Winreg
