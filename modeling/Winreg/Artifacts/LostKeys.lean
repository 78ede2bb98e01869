/-
  LOST KEYS: which keys of a hive the walkers report.

  The iterator yields the error of a subkey list in place of the key that has it, and the walkers
  skip errors.  So a key whose own subkey list cannot be read is not reported, nor are its values,
  although the key itself and its values could be read.

  1. **Keys in reach** — `KeysBelow r key t`: the tree of the keys that are reached along the subkey
     lists that can be read; the iterator yields this tree, with errors for some keys
     (`KeysBelow.unrolls`).
  2. **Walks** — a walk comes back exactly when every listing in reach does and its visits do
     (`walk_evals_iff`).
  3. **Nothing is lost** exactly when every key in reach has a readable subkey list and can be
     visited (`walksAll_iff`).
-/
import Winreg.Artifacts.RegistryKeys

namespace Winreg

open Rust Relation

namespace RegistryKeys

/-! ## Keys in reach -/

/-- The keys below a key, along the subkey lists that can be read. -/
inductive KeysBelow (r : CellReader) : Key → Rose Key → Prop where
  | listed {key : Key} {kids : List Key} {children : List (Rose Key)}
      (hkids : Exec.Evals (fun n => key.subkeys r n) (.ok kids))
      (hlength : kids.length = children.length)
      (hchildren : ∀ p ∈ kids.zip children, KeysBelow r p.1 p.2) :
      KeysBelow r key (.node key children)
  | unread {key : Key} (h : ∀ kids, ¬ Exec.Evals (fun n => key.subkeys r n) (.ok kids)) :
      KeysBelow r key (.node key [])

section Tree

variable {r : CellReader}

/-- Where no cycle is in reach the keys below a key are a finite tree. -/
theorem exists_keysBelow {key : Key} (hacc : Acc (flip (Kids r)) key) :
    ∃ t, KeysBelow r key t := by
  induction hacc with
  | intro key _ ih =>
    by_cases h : ∃ kids, Exec.Evals (fun n => key.subkeys r n) (.ok kids)
    · obtain ⟨kids, hkids⟩ := h
      obtain ⟨children, hall⟩ := exists_forall₂ fun kid hkid => ih kid ⟨kids, hkids, hkid⟩
      obtain ⟨hlength, hzip⟩ := List.forall₂_iff_zip.mp hall
      exact ⟨_, .listed hkids hlength fun p hp => hzip hp⟩
    · exact ⟨_, .unread fun kids hkids => h ⟨kids, hkids⟩⟩

/-- The tree holds the keys in reach. -/
theorem KeysBelow.mem_preorder {key : Key} {t : Rose Key} (h : KeysBelow r key t) :
    ∀ k, k ∈ t.preorder ↔ ReflTransGen (Kids r) key k := by
  induction h with
  | @listed key kids children hkids hlength hchildren ih =>
    intro k
    rw [Rose.preorder, List.mem_cons, List.mem_flatMap]
    constructor
    · rintro (rfl | ⟨c, hc, hk⟩)
      · exact ReflTransGen.refl
      · obtain ⟨i, hi, rfl⟩ := List.getElem_of_mem hc
        have hpair := getElem_mem_zip hlength (by omega : i < kids.length)
        exact ReflTransGen.head ⟨kids, hkids, List.getElem_mem (by omega)⟩
          ((ih _ hpair k).mp hk)
    · intro hreach
      rcases ReflTransGen.cases_head hreach with rfl | ⟨kid, ⟨kids', hkids', hmem⟩, hrest⟩
      · exact .inl rfl
      · obtain rfl := Exec.ok.inj (hkids.unique hkids')
        obtain ⟨i, hi, rfl⟩ := List.getElem_of_mem hmem
        exact .inr ⟨children[i], List.getElem_mem (by omega),
          (ih _ (getElem_mem_zip hlength hi) k).mpr hrest⟩
  | @unread key h =>
    intro k
    rw [Rose.preorder, List.flatMap_nil, List.mem_singleton]
    constructor
    · rintro rfl
      exact ReflTransGen.refl
    · intro hreach
      rcases ReflTransGen.cases_head hreach with rfl | ⟨kid, ⟨kids, hkids, _⟩, _⟩
      · rfl
      · exact absurd hkids (h kids)

/-- The level order has exactly the keys in reach. -/
theorem KeysBelow.mem_levelOrder {key : Key} {t : Rose Key} (h : KeysBelow r key t) (k : Key) :
    k ∈ t.levelOrder ↔ ReflTransGen (Kids r) key k :=
  t.levelOrder_perm_preorder.mem_iff.trans (h.mem_preorder k)

open Classical in
/-- What the iterator yields for a key: the key, or the error of its subkey list. -/
noncomputable def yielded (r : CellReader) (key : Key) : IterItem :=
  if h : ∃ e, Exec.Evals (fun n => key.subkeys r n) (.err e) then .error h.choose else .ok key

/-- A key whose listing returns is yielded. -/
theorem yielded_listed {key : Key} {kids : List Key}
    (h : Exec.Evals (fun n => key.subkeys r n) (.ok kids)) : yielded r key = .ok key :=
  dif_neg fun ⟨_, he⟩ => by cases h.unique he

/-- Otherwise its error is, and the key is lost. -/
theorem yielded_failed {key : Key} {e : HiveError}
    (h : Exec.Evals (fun n => key.subkeys r n) (.err e)) : yielded r key = .error e := by
  have hex : ∃ e, Exec.Evals (fun n => key.subkeys r n) (.err e) := ⟨e, h⟩
  rw [yielded, dif_pos hex, Exec.err.inj (hex.choose_spec.unique h)]

/-- **The iterator yields the keys in reach**, some of them as errors. -/
theorem KeysBelow.unrolls {key : Key} {t : Rose Key} (h : KeysBelow r key t) :
    ListingsReturn r key → Unrolls r key (t.map (yielded r)) := by
  induction h with
  | @listed key kids children hkids hlength hchildren ih =>
    intro hlist
    have hall : List.Forall₂ (Unrolls r) kids (children.map (Rose.map (yielded r))) := by
      rw [List.forall₂_map_right_iff]
      refine List.forall₂_iff_zip.mpr ⟨hlength, fun {kid c} hp => ih _ hp ?_⟩
      exact hlist.of_kids ⟨kids, hkids, (List.of_mem_zip hp).1⟩
    obtain ⟨hlength', hzip⟩ := List.forall₂_iff_zip.mp hall
    rw [Rose.map, yielded_listed hkids]
    exact .listed hkids hlength' fun p hp => hzip hp
  | @unread key h =>
    intro hlist
    obtain ⟨x, hret, hev⟩ := hlist key ReflTransGen.refl
    rcases hret with ⟨kids, rfl⟩ | ⟨e, rfl⟩
    · exact absurd hev (h kids)
    · rw [Rose.map, List.map_nil, yielded_failed hev]
      exact .failed hev

end Tree

/-! ## Walks -/

section Walks

variable {hive : Hive} {root : Key} {t : Rose Key} {σ : Type}
  {visit : σ → Key → Exec HiveError σ} {acc res : σ}

/-- **When a walk comes back**: every listing in reach does, and the visits of the keys that the
    iterator yields do. -/
theorem walk_evals_iff (hroot : hive.rootKey = .ok root) (ht : KeysBelow hive.reader root t) :
    Exec.Evals (walk hive visit acc) (.ok res) ↔ ListingsReturn hive.reader root ∧
      (keysOf (t.levelOrder.map (yielded hive.reader))).foldlM visit acc = .ok res := by
  have hwalk : ∀ n, walk hive visit acc n =
      Exec.loop (forPass (BfsIter.next hive.reader n) visit) n ([root], acc) := by
    intro n
    rw [walk, hroot, Exec.attempt_ok, Exec.ok_bind]
  have hfold : ListingsReturn hive.reader root → ∃ N, ∀ n, N ≤ n → walk hive visit acc n =
      (keysOf (t.levelOrder.map (yielded hive.reader))).foldlM visit acc := by
    intro hlist
    have hyields := yields_levelOrder (ht.unrolls hlist)
    rw [Rose.levelOrder_map] at hyields
    obtain ⟨N, hN⟩ := forKeys_yields hyields acc
    exact ⟨N, fun n hn => (hwalk n).trans (hN n n hn hn)⟩
  constructor
  · -- a walk that comes back has listed everything, so it is the fold
    rintro ⟨M, hM⟩
    have hlist : ListingsReturn hive.reader root :=
      listingsReturn_of_forKeys ((hwalk M).symm.trans (hM M (Nat.le_refl M)))
    obtain ⟨N, hN⟩ := hfold hlist
    exact ⟨hlist, (hN (max M N) (by omega)).symm.trans (hM (max M N) (by omega))⟩
  · rintro ⟨hlist, hok⟩
    obtain ⟨N, hN⟩ := hfold hlist
    exact ⟨N, fun n hn => (hN n hn).trans hok⟩

end Walks

/-! ## Nothing is lost -/

section Records

variable {hive : Hive} {root : Key} {t : Rose Key} {Timestamp : Type} (jiff : Jiff Timestamp)
  (strftime : Str → Timestamp → Option Str)

/-- The records of `walk_keys` are those of the keys that the iterator yields. -/
theorem walkKeys_evals_iff (hroot : hive.rootKey = .ok root) (ht : KeysBelow hive.reader root t)
    {infos : List RegistryKeyInfo} :
    Exec.Evals (walkKeys jiff strftime hive) (.ok infos) ↔ ListingsReturn hive.reader root ∧
      List.Forall₂ (fun key info => keyInfo jiff strftime hive.reader key = .ok info)
        (keysOf (t.levelOrder.map (yielded hive.reader))) infos := by
  refine (walk_evals_iff hroot ht).trans (and_congr_right fun _ => ?_)
  refine (Exec.foldlM_collect_eq_ok_iff (g := fun info => [info])).trans ?_
  simp only [List.nil_append, List.flatMap_singleton']
  exact ⟨fun ⟨_, hys, h⟩ => h ▸ hys, fun h => ⟨infos, h, rfl⟩⟩

/-- The records of `walk_all_values` are those of the values of these keys. -/
theorem walkAllValues_evals_iff (hroot : hive.rootKey = .ok root)
    (ht : KeysBelow hive.reader root t) {infos : List RegistryValueInfo} :
    Exec.Evals (walkAllValues hive) (.ok infos) ↔ ListingsReturn hive.reader root ∧
      ∃ values, List.Forall₂ (fun key vs => keyValues hive.reader key = .ok vs)
        (keysOf (t.levelOrder.map (yielded hive.reader))) values ∧ infos = values.flatten := by
  refine (walk_evals_iff hroot ht).trans (and_congr_right fun _ => ?_)
  refine (Exec.foldlM_collect_eq_ok_iff (g := id)).trans ?_
  simp only [List.nil_append, List.flatMap_id]

/-- **Nothing is lost**: both walkers come back, with a record for every key in reach, as often as
    it is reached, and with the records of all values of these keys that can be listed. -/
structure WalksAll (hive : Hive) : Prop where
  keys : ∃ infos, Exec.Evals (walkKeys jiff strftime hive) (.ok infos) ∧
    ∀ root t, hive.rootKey = .ok root → KeysBelow hive.reader root t →
      ∃ expected, List.Forall₂ (fun key info => keyInfo jiff strftime hive.reader key = .ok info)
        t.levelOrder expected ∧ expected.Subperm infos
  values : ∃ infos, Exec.Evals (walkAllValues hive) (.ok infos) ∧
    ∀ root t, hive.rootKey = .ok root → KeysBelow hive.reader root t →
      ∃ expected, List.Forall₂ (fun key vs => keyValues hive.reader key = .ok vs)
        t.levelOrder expected ∧ expected.flatten.Subperm infos

/-- Every key in reach of the root has a subkey list that can be read, and reading the root, the
    paths and the values of these keys comes back. -/
structure ReadsAll (hive : Hive) : Prop where
  root : hive.rootKey ≠ .panic
  listed : ∀ root key, hive.rootKey = .ok root → ReflTransGen (Kids hive.reader) root key →
    ∃ kids, Exec.Evals (fun n => key.subkeys hive.reader n) (.ok kids)
  visited : ∀ root key, hive.rootKey = .ok root → ReflTransGen (Kids hive.reader) root key →
    ∃ infos, keyValues hive.reader key = .ok infos

/-- Keys that are all yielded as keys. -/
theorem keysOf_yielded {r : CellReader} {keys : List Key}
    (h : ∀ key ∈ keys, yielded r key = .ok key) : keysOf (keys.map (yielded r)) = keys := by
  unfold keysOf
  rw [List.filterMap_map]
  have hsome : ∀ key ∈ keys, (Except.toOption ∘ yielded r) key = some key := fun key hkey => by
    rw [Function.comp_apply, h key hkey]
    rfl
  rw [List.filterMap_congr hsome, List.filterMap_some]

/-- No key is lost only if no key in reach is yielded as an error. -/
theorem yielded_of_walksAll (h : WalksAll jiff strftime hive) (hroot : hive.rootKey = .ok root)
    (ht : KeysBelow hive.reader root t) :
    ListingsReturn hive.reader root ∧ ∀ key ∈ t.levelOrder, yielded hive.reader key = .ok key := by
  obtain ⟨infos, hwalk, hall⟩ := h.keys
  obtain ⟨expected, hexpected, hsub⟩ := hall root t hroot ht
  obtain ⟨hlist, hinfos⟩ := (walkKeys_evals_iff jiff strftime hroot ht).mp hwalk
  refine ⟨hlist, fun key hkey => ?_⟩
  -- as many items are keys as there are keys in reach
  have hle := hsub.length_le
  rw [← hexpected.length_eq, ← hinfos.length_eq] at hle
  have hfull : (keysOf (t.levelOrder.map (yielded hive.reader))).length =
      (t.levelOrder.map (yielded hive.reader)).length :=
    Nat.le_antisymm (List.length_filterMap_le _ _) (by rwa [List.length_map])
  have hsome := List.filterMap_length_eq_length.mp hfull (yielded hive.reader key)
    (List.mem_map_of_mem hkey)
  by_cases hfails : ∃ e, Exec.Evals (fun n => key.subkeys hive.reader n) (.err e)
  · obtain ⟨e, he⟩ := hfails
    rw [yielded_failed he] at hsome
    cases hsome
  · exact dif_neg hfails

/-- A walk that has met every key has listed every key. -/
theorem readsAll_of_walksAll (hcycle : hive.NoKeyCycle) (h : WalksAll jiff strftime hive) :
    ReadsAll hive := by
  have htree : ∀ root, hive.rootKey = .ok root → ∃ t, KeysBelow hive.reader root t :=
    fun root hroot => exists_keysBelow (noCycleFrom_iff_acc.mp (hcycle root hroot))
  refine ⟨fun hpanic => ?_, fun root key hroot hkey => ?_, fun root key hroot hkey => ?_⟩
  · obtain ⟨infos, ⟨n, hn⟩, _⟩ := h.keys
    have hwalk : walkKeys jiff strftime hive n = .panic := by
      rw [walkKeys, walk, hpanic]
      rfl
    cases hwalk.symm.trans (hn n (Nat.le_refl n))
  · obtain ⟨t, ht⟩ := htree root hroot
    obtain ⟨hlist, hyielded⟩ := yielded_of_walksAll jiff strftime h hroot ht
    obtain ⟨x, hret, hev⟩ := hlist key hkey
    rcases hret with ⟨kids, rfl⟩ | ⟨e, rfl⟩
    · exact ⟨kids, hev⟩
    · have hitem := hyielded key ((ht.mem_levelOrder key).mpr hkey)
      rw [yielded_failed hev] at hitem
      cases hitem
  · obtain ⟨t, ht⟩ := htree root hroot
    obtain ⟨_, hyielded⟩ := yielded_of_walksAll jiff strftime h hroot ht
    obtain ⟨infos, hwalk, _⟩ := h.values
    obtain ⟨_, values, hvalues, _⟩ := (walkAllValues_evals_iff hroot ht).mp hwalk
    rw [keysOf_yielded hyielded] at hvalues
    obtain ⟨infos, _, hinfos⟩ := forall₂_left hvalues ((ht.mem_levelOrder key).mpr hkey)
    exact ⟨infos, hinfos⟩

/-- Where all listings in reach can be read, all keys in reach are yielded. -/
theorem ReadsAll.yielded (h : ReadsAll hive) (hroot : hive.rootKey = .ok root)
    (ht : KeysBelow hive.reader root t) : ListingsReturn hive.reader root ∧
      keysOf (t.levelOrder.map (yielded hive.reader)) = t.levelOrder := by
  refine ⟨fun key hkey => ?_, keysOf_yielded fun key hkey => ?_⟩
  · obtain ⟨kids, hkids⟩ := h.listed root key hroot hkey
    exact ⟨_, .inl ⟨kids, rfl⟩, hkids⟩
  · obtain ⟨kids, hkids⟩ := h.listed root key hroot ((ht.mem_levelOrder key).mp hkey)
    exact yielded_listed hkids

/-- A walk of a hive without a root key gives what it starts with. -/
theorem walk_rootless {σ : Type} {visit : σ → Key → Exec HiveError σ} {acc : σ} {e : HiveError}
    (h : hive.rootKey = .err e) : Exec.Evals (walk hive visit acc) (.ok acc) :=
  ⟨0, fun n _ => by rw [walk, h]; rfl⟩

/-- And where every key can be listed the walk meets all of them. -/
theorem walksAll_of_readsAll (hcycle : hive.NoKeyCycle) (h : ReadsAll hive) :
    WalksAll jiff strftime hive := by
  cases hroot : hive.rootKey with
  | panic => exact absurd hroot h.root
  | timeout => exact absurd hroot hive.rootKey_ne_timeout
  | err e =>
    refine ⟨⟨[], walk_rootless hroot, fun root t hok => ?_⟩,
      ⟨[], walk_rootless hroot, fun root t hok => ?_⟩⟩
    · cases hroot.symm.trans hok
    · cases hroot.symm.trans hok
  | ok root =>
    -- without a cycle the keys in reach form a finite tree
    obtain ⟨t, ht⟩ := exists_keysBelow (noCycleFrom_iff_acc.mp (hcycle root hroot))
    obtain ⟨hlist, hkeys⟩ := h.yielded hroot ht
    have hvisit : ∀ key ∈ t.levelOrder, ∃ infos, keyValues hive.reader key = .ok infos :=
      fun key hkey => h.visited root key hroot ((ht.mem_levelOrder key).mp hkey)
    constructor
    · obtain ⟨infos, hinfos⟩ : ∃ infos, List.Forall₂ (fun key info =>
          keyInfo jiff strftime hive.reader key = .ok info) t.levelOrder infos := by
        refine exists_forall₂ fun key hkey => ?_
        obtain ⟨_, hvalues⟩ := hvisit key hkey
        obtain ⟨path, hpath, _⟩ := Exec.bind_eq_ok.mp hvalues
        exact ⟨_, Exec.bind_eq_ok.mpr ⟨path, hpath, rfl⟩⟩
      have hwalk := (walkKeys_evals_iff jiff strftime hroot ht).mpr ⟨hlist, hkeys.symm ▸ hinfos⟩
      refine ⟨infos, hwalk, fun root' t' hroot' ht' => ?_⟩
      obtain rfl := Exec.ok.inj (hroot.symm.trans hroot')
      obtain ⟨_, hall⟩ := (walkKeys_evals_iff jiff strftime hroot ht').mp hwalk
      rw [(h.yielded hroot ht').2] at hall
      exact ⟨infos, hall, List.Subperm.refl infos⟩
    · obtain ⟨values, hvalues⟩ := exists_forall₂ hvisit
      have hwalk := (walkAllValues_evals_iff hroot ht).mpr
        ⟨hlist, values, hkeys.symm ▸ hvalues, rfl⟩
      refine ⟨values.flatten, hwalk, fun root' t' hroot' ht' => ?_⟩
      obtain rfl := Exec.ok.inj (hroot.symm.trans hroot')
      obtain ⟨_, values', hall, hsame⟩ := (walkAllValues_evals_iff hroot ht').mp hwalk
      rw [(h.yielded hroot ht').2] at hall
      exact ⟨values', hall, hsame ▸ List.Subperm.refl _⟩

/-- **When nothing is lost**: exactly when every key in reach has a subkey list that can be read,
    and everything read of these keys comes back.  A key whose listing fails is yielded as an error
    in its own place, so it is lost itself and not only what is below it. -/
theorem walksAll_iff (hcycle : hive.NoKeyCycle) : WalksAll jiff strftime hive ↔ ReadsAll hive :=
  ⟨readsAll_of_walksAll jiff strftime hcycle, walksAll_of_readsAll jiff strftime hcycle⟩

end Records

/-- Every key of the sample can be listed. -/
theorem nested_readsAll : ReadsAll nestedHive := by
  refine ⟨by rw [nested_rootKey]; exact nofun, fun root key h hkey => ?_,
    fun root key h hkey => ?_⟩
  · obtain rfl := Exec.ok.inj (nested_rootKey.symm.trans h)
    exact nested_pathTree.readable key hkey
  · obtain rfl := Exec.ok.inj (nested_rootKey.symm.trans h)
    have hno : ∀ path, valueInfos nestedHive.reader path key = .ok [] := by
      rcases nested_reachable hkey with rfl | rfl | rfl <;> exact fun path => rfl
    obtain ⟨names, hbelow⟩ := exists_below hkey
    exact ⟨[], Exec.bind_eq_ok.mpr ⟨_, keyPath_below nested_pathTree hbelow, hno _⟩⟩

/-- Nothing is lost of the hive with the keys `A` and `A\B`. -/
theorem walksAll_iff_nested :
    nestedHive.NoKeyCycle ∧
      WalksAll (⟨some, fun _ => none⟩ : Jiff Int) (fun _ _ => none) nestedHive := by
  have hcycle : nestedHive.NoKeyCycle :=
    Hive.noKeyCycle_of_root nested_rootKey nested_pathTree.acyclic
  exact ⟨hcycle, (walksAll_iff _ _ hcycle).mpr nested_readsAll⟩

/-- A key whose index cell is behind the end of the file. -/
theorem walksAll_fails_failing :
    Hive.fromBytes (oneBinImage 32 failingCells) = .ok failingHive ∧ failingHive.NoKeyCycle ∧
    ReflTransGen (Kids failingHive.reader) failingRoot failingB ∧
    failingB.values failingHive.reader = .ok [] ∧
    Exec.Evals (walkKeys (⟨some, fun _ => none⟩ : Jiff Int) (fun _ _ => none) failingHive)
      (.ok [⟨[], [], none, 2, 0⟩, ⟨['A'], ['A'], none, 1, 0⟩, ⟨['C'], ['C'], none, 0, 0⟩]) ∧
    ¬ WalksAll (⟨some, fun _ => none⟩ : Jiff Int) (fun _ _ => none) failingHive := by
  obtain ⟨hroot, ha, hb, hc⟩ := failing_subkeys
  have hB : Kids failingHive.reader failingRoot failingB := ⟨_, hroot, by simp⟩
  refine ⟨Hive.fromBytes_oneBinImage (by decide +kernel), failing_noKeyCycle,
    ReflTransGen.single hB, rfl, ?_, fun h => ?_⟩
  · have ht : KeysBelow failingHive.reader failingRoot
        (.node failingRoot [.node failingA [.node failingC []], .node failingB []]) := by
      refine .listed hroot rfl fun p hp => ?_
      rcases List.mem_cons.mp hp with rfl | hp
      · refine .listed ha rfl fun p hp => ?_
        obtain rfl := List.mem_singleton.mp hp
        exact .listed hc rfl fun p hp => absurd hp List.not_mem_nil
      · obtain rfl := List.mem_singleton.mp hp
        exact .unread fun kids hkids => by cases hkids.unique hb
    have hitems : (Rose.levelOrder (.node failingRoot [.node failingA [.node failingC []],
        .node failingB []])).map (yielded failingHive.reader) =
        [.ok failingRoot, .ok failingA, .error (.cellOverflow ⟨8192⟩ 0 8192), .ok failingC] := by
      simp [Rose.levelOrder, Rose.height, Rose.level, Rose.value, Rose.children, List.range_succ,
        yielded_listed hroot, yielded_listed ha, yielded_listed hc, yielded_failed hb]
    refine (walkKeys_evals_iff _ _ failing_rootKey ht).mpr ⟨failing_unrolls.listingsReturn, ?_⟩
    rw [hitems]
    exact .cons rfl (.cons rfl (.cons rfl .nil))
  · obtain ⟨kids, hkids⟩ := (readsAll_of_walksAll _ _ failing_noKeyCycle h).listed failingRoot
      failingB failing_rootKey (ReflTransGen.single hB)
    cases hkids.unique hb

end RegistryKeys

end Winreg
