/-
  SOUNDNESS OF A DIFF: every entry says something true of the two hives.

  1. **Paths** — the text of a path opens, in a hive that reads as a tree, the key at that path of
     the tree, whatever the case of its names (`openKey_reads`).
  2. **Details** — the changes between two lists of values are exactly the values by which they
     differ, each listed once (`exactDetails_valueChanges`).
  3. **Changes** — `Change.Sound l r` is what a change says about two trees; the crux is that the
     changes of a pair of subkeys stay sound seen from the parents (`Change.Sound.under`), so all
     changes are (`changes_sound`).
  4. **Counters** — the counters of a result are the numbers of its entries and details of each
     kind (`foldl_count_eq_tally`).
-/
import Winreg.Core.Path
import Winreg.Diff.Same

namespace Winreg

open Rust

/-! ## Paths -/

/-- Below the root, names are nonempty and contain no backslash. -/
inductive KeyTree.Named : KeyTree → Prop where
  | node {name : Str} {values : List RegValue} {children : List KeyTree}
      (hnames : ∀ c ∈ children, c.name ≠ [] ∧ '\\' ∉ c.name)
      (hbelow : ∀ c ∈ children, Named c) : Named (.node name values children)

/-- A child has a name that can stand in a path. -/
theorem KeyTree.Named.names {t c : KeyTree} (h : t.Named) (hc : c ∈ t.children) :
    c.name ≠ [] ∧ '\\' ∉ c.name := by
  cases h with
  | node hnames _ => exact hnames c hc

/-- The condition is inherited by every child. -/
theorem KeyTree.Named.of_mem {t c : KeyTree} (h : t.Named) (hc : c ∈ t.children) : c.Named := by
  cases h with
  | node _ hbelow => exact hbelow c hc

/-- The key at a path, whatever the case of the names on it. -/
def KeyTree.atPath (t : KeyTree) (path : List Str) : Option KeyTree :=
  t.at? (path.map toAsciiUppercase)

/-- Opening a path gives a key that reads as this tree, or no key. -/
def Hive.Opens (hive : Hive) (path : Str) (t : Option KeyTree) : Prop :=
  ∃ found, Exec.Evals (fun n => hive.openKey n path) (.ok found) ∧
    Option.Rel (Reads hive.reader) found t

/-- Searching two related lists finds related elements. -/
theorem find?_rel {α β : Type} {R : α → β → Prop} {p : α → Bool} {q : β → Bool}
    (hpq : ∀ x y, R x y → p x = q y) {xs : List α} {ys : List β} (h : List.Forall₂ R xs ys) :
    Option.Rel R (xs.find? p) (ys.find? q) := by
  induction h with
  | nil => exact .none
  | @cons x y xs ys hxy _ ih =>
    rw [List.find?_cons, List.find?_cons, hpq x y hxy]
    cases q y with
    | true => exact .some hxy
    | false => exact ih

/-- One step down finds the child with the name. -/
theorem subkey_reads {r : CellReader} {key : Key} {t : KeyTree} (h : Reads r key t) (name : Str) :
    ∃ found, Exec.Evals (fun n => key.subkey r n name) (.ok found) ∧
      Option.Rel (Reads r) found (t.child (toAsciiUppercase name)) := by
  cases h with
  | node hvals hvalues hkids hlength hchildren =>
    refine ⟨_, Exec.Evals.bind hkids (Exec.Evals.const _), ?_⟩
    refine find?_rel (fun kid c hkid => ?_) (forall₂_of_zip hlength hchildren)
    rw [hkid.name_eq]
    rfl

/-- **The walk down** along some names ends at the key that the tree has there. -/
theorem descend_reads {r : CellReader} : ∀ {path : List Str} {key : Key} {t : KeyTree},
    Reads r key t → ∃ found, Exec.Evals (fun n => Key.descend r n key path) (.ok found) ∧
      Option.Rel (Reads r) found (t.atPath path)
  | [], key, t, h => ⟨some key, Exec.Evals.const _, .some h⟩
  | name :: path, key, t, h => by
    obtain ⟨found, hfound, hrel⟩ := subkey_reads h name
    have hat : t.atPath (name :: path) =
        (t.child (toAsciiUppercase name)).bind fun c => c.atPath path := rfl
    rw [hat]
    generalize t.child (toAsciiUppercase name) = next at hrel
    cases hrel with
    | none => exact ⟨none, Exec.Evals.bind hfound (Exec.Evals.const _), .none⟩
    | some hkid =>
      obtain ⟨last, hlast, hrest⟩ := @descend_reads r path _ _ hkid
      exact ⟨last, Exec.Evals.bind hfound hlast, hrest⟩

namespace Diff

/-- The text of a path is its names joined by backslashes. -/
theorem pathText_eq {path : List Str} (hpath : ∀ name ∈ path, name ≠ [] ∧ '\\' ∉ name) :
    pathText [] path = ['\\'].intercalate path := by
  cases path with
  | nil => rfl
  | cons name path =>
    have hjoin : ∀ current next, current ≠ [] → childPath current next = current ++ '\\' :: next :=
      fun _ _ h => if_neg h
    rw [intercalate_cons]
    exact foldl_append_separated hjoin path (hpath name List.mem_cons_self).1

/-- The text of the path of a key below the root is not empty. -/
theorem pathText_ne_nil {path : List Str} (hne : path ≠ [])
    (hpath : ∀ name ∈ path, name ≠ [] ∧ '\\' ∉ name) : pathText [] path ≠ [] := by
  rw [pathText_eq hpath]
  cases path with
  | nil => exact absurd rfl hne
  | cons name path =>
    rw [intercalate_cons]
    exact List.append_ne_nil_of_left_ne_nil (hpath name List.mem_cons_self).1 _

/-- **Opening the text of a path** opens the key at that path of the tree. -/
theorem openKey_reads {hive : Hive} {t : KeyTree} (h : hive.ReadsTree t) {path : List Str}
    (hne : path ≠ []) (hpath : ∀ name ∈ path, name ≠ [] ∧ '\\' ∉ name) :
    hive.Opens (pathText [] path) (t.atPath path) := by
  obtain ⟨root, hroot, hreads⟩ := h
  obtain ⟨found, hfound, hrel⟩ := @descend_reads _ path _ _ hreads
  refine ⟨found, hfound.congr fun n => ?_, hrel⟩
  rw [pathText_eq hpath, Hive.openKey, hroot, Exec.ok_bind, Key.subkeyPath,
    pathParts_intercalate hpath]
  cases path with
  | nil => exact absurd rfl hne
  | cons name path => rfl

/-! ## Details -/

/-- A value by which two keys differ. -/
inductive Differs (ls rs : List RegValue) : ValueDiff → Prop where
  | added {r : RegValue} (hr : r ∈ rs) (alone : ∀ l ∈ ls, l.foldedName ≠ r.foldedName) :
      Differs ls rs ⟨r.name, .added r.snapshot⟩
  | removed {l : RegValue} (hl : l ∈ ls) (alone : ∀ r ∈ rs, l.foldedName ≠ r.foldedName) :
      Differs ls rs ⟨l.name, .removed l.snapshot⟩
  | changed {l r : RegValue} (hl : l ∈ ls) (hr : r ∈ rs) (same : l.foldedName = r.foldedName)
      (differ : l.data ≠ r.data ∨ l.dataType ≠ r.dataType) :
      Differs ls rs ⟨l.name, .changed l.snapshot r.snapshot⟩

/-- The details are the values by which two keys differ, each name listed once. -/
structure ExactDetails (ls rs : List RegValue) (details : List ValueDiff) : Prop where
  nodup : (details.map fun d => toAsciiUppercase d.name).Nodup
  mem : ∀ d, d ∈ details ↔ Differs ls rs d

/-- What is recorded of a pair or of a value alone is a value by which the keys differ. -/
theorem mem_valueChanges {ls rs : List RegValue} (hl : (ls.map RegValue.foldedName).Nodup)
    (hr : (rs.map RegValue.foldedName).Nodup) (d : ValueDiff) :
    d ∈ valueChanges ls rs ↔ Differs ls rs d := by
  unfold valueChanges
  rw [List.mem_flatMap]
  constructor
  · rintro ⟨x, hx, hd⟩
    cases x with
    | both l r =>
      obtain ⟨hlmem, hrmem, hname⟩ := (both_mem_joinByKey hl hr).mp hx
      unfold valueChange at hd
      dsimp only at hd
      -- a pair is recorded only where its types or its data differ
      split at hd
      · rename_i hdiffer
        rw [List.mem_singleton.mp hd]
        exact .changed hlmem hrmem hname hdiffer
      · cases hd
    | left l =>
      obtain ⟨hlmem, halone⟩ := (left_mem_joinByKey hl hr).mp hx
      rw [List.mem_singleton.mp hd]
      exact .removed hlmem halone
    | right r =>
      obtain ⟨hrmem, halone⟩ := (right_mem_joinByKey hl hr).mp hx
      rw [List.mem_singleton.mp hd]
      exact .added hrmem halone
  · intro hd
    cases hd with
    | @added r hrmem halone =>
      exact ⟨.right r, (right_mem_joinByKey hl hr).mpr ⟨hrmem, halone⟩, List.mem_singleton_self _⟩
    | @removed l hlmem halone =>
      exact ⟨.left l, (left_mem_joinByKey hl hr).mpr ⟨hlmem, halone⟩, List.mem_singleton_self _⟩
    | @changed l r hlmem hrmem hname hdiffer =>
      refine ⟨.both l r, (both_mem_joinByKey hl hr).mpr ⟨hlmem, hrmem, hname⟩, ?_⟩
      unfold valueChange
      dsimp only
      rw [if_pos hdiffer]
      exact List.mem_singleton_self _

/-- Lists of at most one element each, one after the other, are a part of the list of what these
    elements would be. -/
theorem flatMap_sublist_map {α β : Type} {f : α → β} {g : α → List β} : ∀ {xs : List α},
    (∀ x ∈ xs, (g x).Sublist [f x]) → (xs.flatMap g).Sublist (xs.map f)
  | [], _ => List.Sublist.slnil
  | x :: xs, h => by
    rw [List.flatMap_cons, List.map_cons, ← List.singleton_append]
    exact (h x List.mem_cons_self).append
      (flatMap_sublist_map fun y hy => h y (List.mem_cons_of_mem x hy))

/-- An element of the join is recorded once, under its name, if it is recorded. -/
theorem valueChange_names (x : Aligned RegValue RegValue) :
    ((valueChange x).map fun d => toAsciiUppercase d.name).Sublist
      [x.key RegValue.foldedName RegValue.foldedName] := by
  cases x with
  | both l r =>
    unfold valueChange
    dsimp only
    split
    · exact List.Sublist.refl _
    · exact List.nil_sublist _
  | left l => exact List.Sublist.refl _
  | right r => exact List.Sublist.refl _

/-- **The details are exact.** -/
theorem exactDetails_valueChanges {ls rs : List RegValue}
    (hl : (ls.map RegValue.foldedName).Nodup) (hr : (rs.map RegValue.foldedName).Nodup) :
    ExactDetails ls rs (valueChanges ls rs) where
  nodup := by
    unfold valueChanges
    rw [List.map_flatMap]
    exact (nodup_keys_joinByKey hl hr).sublist
      (flatMap_sublist_map fun x _ => valueChange_names x)
  mem := mem_valueChanges hl hr

/-! ## Changes -/

/-- The names on the way to the key of a change. -/
def Change.path : Change → List Str
  | .modified path _ _ => path
  | .removed path => path
  | .added path => path

/-- What a change says about two trees. -/
def Change.Sound (l r : KeyTree) : Change → Prop
  | .added path => l.atPath path = none ∧ ∃ b, r.atPath path = some b
  | .removed path => (∃ a, l.atPath path = some a) ∧ r.atPath path = none
  | .modified path name details => ∃ a b, l.atPath path = some a ∧ r.atPath path = some b ∧
    name = a.name ∧ ExactDetails a.values b.values details

/-- The names on the way to the key of a change can be joined to a path. -/
def Change.Plain (c : Change) : Prop := ∀ name ∈ c.path, name ≠ [] ∧ '\\' ∉ name

/-- Moving a change under a key puts the key's name in front of its path. -/
theorem Change.path_under (name : Str) (c : Change) : (c.under name).path = name :: c.path := by
  cases c <;> rfl

/-- The key below a child. -/
theorem atPath_cons {t c : KeyTree} (ht : t.Distinct) (hc : c ∈ t.children) {name : Str}
    (hname : toAsciiUppercase name = c.foldedName) (path : List Str) :
    t.atPath (name :: path) = c.atPath path := by
  have hchild : t.child (toAsciiUppercase name) = some c :=
    (findByKey_eq_some ht.children).mpr ⟨hc, hname.symm⟩
  show ((t.child (toAsciiUppercase name)).bind fun c => c.atPath path) = _
  rw [hchild]
  rfl

/-- No key below a name that no child has. -/
theorem atPath_eq_none {t : KeyTree} {name : Str}
    (h : ∀ c ∈ t.children, c.foldedName ≠ toAsciiUppercase name) (path : List Str) :
    t.atPath (name :: path) = none := by
  have hchild : t.child (toAsciiUppercase name) = none := findByKey_eq_none.mpr h
  show ((t.child (toAsciiUppercase name)).bind fun c => c.atPath path) = _
  rw [hchild]
  rfl

/-- **A sound change of two subkeys** is sound seen from their parents. -/
theorem Change.Sound.under {l r a b : KeyTree} (dl : l.Distinct) (dr : r.Distinct)
    (ha : a ∈ l.children) (hb : b ∈ r.children) (hname : a.foldedName = b.foldedName) {c : Change}
    (h : c.Sound a b) : (c.under a.name).Sound l r := by
  have hleft : ∀ path, l.atPath (a.name :: path) = a.atPath path := atPath_cons dl ha rfl
  have hright : ∀ path, r.atPath (a.name :: path) = b.atPath path := atPath_cons dr hb hname
  cases c with
  | added path => exact ⟨(hleft path).trans h.1, h.2.imp fun _ hat => (hright path).trans hat⟩
  | removed path => exact ⟨h.1.imp fun _ hat => (hleft path).trans hat, (hright path).trans h.2⟩
  | modified path name details =>
    obtain ⟨a', b', hl, hr, hrest⟩ := h
    exact ⟨a', b', (hleft path).trans hl, (hright path).trans hr, hrest⟩

/-- The changes below two keys, without the change of the keys themselves. -/
def changesBelow (l r : KeyTree) : List Change :=
  (joinByKey KeyTree.foldedName KeyTree.foldedName l.children r.children).flatMap keyChange

/-- The changes of two trees: the roots' own, then those below. -/
theorem changes_eq (l r : KeyTree) : l.changes r =
    modifiedBy l.name (valueChanges l.values r.values) ++ changesBelow l r := by
  cases l with
  | node name lvals lkids =>
    cases r with
    | node rname rvals rkids => exact changes_node name rname lvals rvals lkids rkids

/-- The change of a pair of keys, or of a key without a counterpart. -/
theorem keyChange_sound {l r : KeyTree} (dl : l.Distinct) (dr : r.Distinct) (nl : l.Named)
    (nr : r.Named)
    (hpair : ∀ a ∈ l.children, ∀ b ∈ r.children, ∀ c ∈ a.changes b, c.Sound a b ∧ c.Plain) :
    ∀ c ∈ changesBelow l r, c.Sound l r ∧ c.Plain ∧ c.path ≠ [] := by
  intro c hc
  obtain ⟨x, hx, hcx⟩ := List.mem_flatMap.mp hc
  have hsingle : ∀ {name : Str}, (name ≠ [] ∧ '\\' ∉ name) → ∀ n ∈ [name], n ≠ [] ∧ '\\' ∉ n :=
    fun h n hn => List.mem_singleton.mp hn ▸ h
  cases x with
  | both a b =>
    -- the change lies below the pair, under the name of the left key
    obtain ⟨ha, hb, hname⟩ := (both_mem_joinByKey dl.children dr.children).mp hx
    obtain ⟨c', hc', rfl⟩ := List.mem_map.mp hcx
    obtain ⟨hsound, hplain⟩ := hpair a ha b hb c' hc'
    refine ⟨hsound.under dl dr ha hb hname, ?_, ?_⟩
    · unfold Change.Plain
      rw [Change.path_under]
      exact List.forall_mem_cons.mpr ⟨nl.names ha, hplain⟩
    · rw [Change.path_under]
      exact List.cons_ne_nil _ _
  | left a =>
    obtain ⟨ha, halone⟩ := (left_mem_joinByKey dl.children dr.children).mp hx
    rw [List.mem_singleton.mp hcx]
    exact ⟨⟨⟨a, atPath_cons dl ha rfl []⟩, atPath_eq_none (fun b hb => (halone b hb).symm) []⟩,
      hsingle (nl.names ha), List.cons_ne_nil _ _⟩
  | right b =>
    obtain ⟨hb, halone⟩ := (right_mem_joinByKey dl.children dr.children).mp hx
    rw [List.mem_singleton.mp hcx]
    exact ⟨⟨atPath_eq_none halone [], ⟨b, atPath_cons dr hb rfl []⟩⟩,
      hsingle (nr.names hb), List.cons_ne_nil _ _⟩

/-- **The changes between two trees are sound.** -/
theorem changes_sound {l : KeyTree} (dl : l.Distinct) : ∀ {r : KeyTree}, r.Distinct → l.Named →
    r.Named → ∀ c ∈ l.changes r, c.Sound l r ∧ c.Plain := by
  induction dl with
  | @node name lvals lkids hvalues hchildren hbelow ih =>
    intro r dr nl nr c hc
    have dl : (KeyTree.node name lvals lkids).Distinct := .node hvalues hchildren hbelow
    rw [changes_eq] at hc
    rcases List.mem_append.mp hc with hc | hc
    · unfold modifiedBy at hc
      split at hc
      · rw [List.mem_singleton.mp hc]
        exact ⟨⟨_, r, rfl, rfl, rfl, exactDetails_valueChanges dl.values dr.values⟩,
          fun n hn => absurd hn List.not_mem_nil⟩
      · cases hc
    · obtain ⟨hsound, hplain, _⟩ := keyChange_sound dl dr nl nr (fun a ha b hb c' hc' =>
        ih a ha (dr.of_mem b hb) (nl.of_mem ha) (nr.of_mem hb) c' hc') c hc
      exact ⟨hsound, hplain⟩

/-! ## Counters -/

/-- A value that is only in the right hive. -/
def isAdded : ValueDiffKind → Bool
  | .added _ => true
  | .removed _ => false
  | .changed _ _ => false

/-- A value that is only in the left hive. -/
def isRemoved : ValueDiffKind → Bool
  | .added _ => false
  | .removed _ => true
  | .changed _ _ => false

/-- A value that both hives have, with different data. -/
def isChanged : ValueDiffKind → Bool
  | .added _ => false
  | .removed _ => false
  | .changed _ _ => true

/-- The numbers of entries and of details of each kind. -/
def tally (entries : List DiffEntry) : DiffStats where
  keysAdded := entries.countP fun e => e.kind = .keyAdded
  keysRemoved := entries.countP fun e => e.kind = .keyRemoved
  keysModified := entries.countP fun e => e.kind = .keyModified
  valuesAdded := (entries.flatMap DiffEntry.details).countP fun d => isAdded d.kind
  valuesRemoved := (entries.flatMap DiffEntry.details).countP fun d => isRemoved d.kind
  valuesChanged := (entries.flatMap DiffEntry.details).countP fun d => isChanged d.kind

/-- Counting the value changes of one key. -/
theorem foldl_countValueDiff_eq (details : List ValueDiff) : ∀ stats : DiffStats,
    details.foldl countValueDiff stats = { stats with
      valuesAdded := stats.valuesAdded + details.countP fun d => isAdded d.kind
      valuesRemoved := stats.valuesRemoved + details.countP fun d => isRemoved d.kind
      valuesChanged := stats.valuesChanged + details.countP fun d => isChanged d.kind } := by
  induction details with
  | nil => exact fun _ => rfl
  | cons d details ih =>
    intro stats
    rw [List.foldl_cons, ih]
    unfold countValueDiff
    cases hkind : d.kind with
    | added v => simp [hkind, isAdded, isRemoved, isChanged]; omega
    | removed v => simp [hkind, isAdded, isRemoved, isChanged]; omega
    | changed v w => simp [hkind, isAdded, isRemoved, isChanged]; omega

/-- One more entry. -/
theorem tally_concat (entries : List DiffEntry) (c : Change) :
    tally (entries ++ [c.entry []]) = c.count (tally entries) := by
  cases c with
  | added path => simp [tally, Change.entry, Change.count]
  | removed path => simp [tally, Change.entry, Change.count]
  | modified path name details =>
    simp [tally, Change.entry, Change.count, foldl_countValueDiff_eq]

/-- **The counters are the numbers of entries and details** of each kind. -/
theorem foldl_count_eq_tally (cs : List Change) :
    cs.foldl Change.count {} = tally (cs.map (Change.entry [])) := by
  induction cs using List.reverseRecOn with
  | nil => rfl
  | append_singleton cs c ih =>
    rw [List.foldl_append, ih, List.map_append, List.map_singleton, tally_concat]
    rfl

/-! ## Soundness -/

/-- An entry below the root says something true of the two hives. -/
structure EntrySound (left right : Hive) (e : DiffEntry) : Prop where
  added : e.kind = .keyAdded → e.details = [] ∧ left.Opens e.path none ∧
    ∃ b, right.Opens e.path (some b)
  removed : e.kind = .keyRemoved → e.details = [] ∧ (∃ a, left.Opens e.path (some a)) ∧
    right.Opens e.path none
  modified : e.kind = .keyModified → ∃ a b, left.Opens e.path (some a) ∧
    right.Opens e.path (some b) ∧ ExactDetails a.values b.values e.details

/-- A result is sound: it has the entry of the roots, if their values differ, and then entries that
    are sound; and its counters are the numbers of its entries and details. -/
structure ResultSound (left right : Hive) (tl tr : KeyTree) (result : DiffResult) : Prop where
  entries : ∃ details below, ExactDetails tl.values tr.values details ∧
    result.entries = rootEntry tl.name details ++ below ∧
    ∀ e ∈ below, EntrySound left right e
  stats : result.stats = tally result.entries

/-- A sound change below the roots gives a sound entry. -/
theorem entrySound_of_change {left right : Hive} {tl tr : KeyTree} (hl : left.ReadsTree tl)
    (hr : right.ReadsTree tr) {c : Change} (hsound : c.Sound tl tr) (hplain : c.Plain)
    (hne : c.path ≠ []) : EntrySound left right (c.entry []) := by
  have hleft := openKey_reads hl hne hplain
  have hright := openKey_reads hr hne hplain
  cases c with
  | added path =>
    obtain ⟨hnone, b, hsome⟩ := hsound
    refine ⟨fun _ => ⟨rfl, hnone ▸ hleft, b, hsome ▸ hright⟩, fun h => ?_, fun h => ?_⟩
    · cases h
    · cases h
  | removed path =>
    obtain ⟨⟨a, hsome⟩, hnone⟩ := hsound
    refine ⟨fun h => ?_, fun _ => ⟨rfl, ⟨a, hsome ▸ hleft⟩, hnone ▸ hright⟩, fun h => ?_⟩
    · cases h
    · cases h
  | modified path name details =>
    obtain ⟨a, b, ha, hb, _, hdetails⟩ := hsound
    refine ⟨fun h => ?_, fun h => ?_, fun _ => ?_⟩
    · cases h
    · cases h
    · have hpath : (Change.entry [] (.modified path name details)).path = pathText [] path :=
        if_neg (pathText_ne_nil hne hplain)
      rw [hpath]
      exact ⟨a, b, ha ▸ hleft, hb ▸ hright, hdetails⟩

/-- **A diff is sound**: each entry tells of a real difference.  An added or removed key opens on
    the one side and not on the other, a modified key opens on both, its details are the differences
    of the values, and the counts are those of the entries. -/
theorem diffHives_sound {left right : Hive} {tl tr : KeyTree} (hl : left.ReadsTree tl)
    (hr : right.ReadsTree tr) (dl : tl.Distinct) (dr : tr.Distinct) (nl : tl.Named) (nr : tr.Named)
    (leftLabel rightLabel : Str) :
    ∃ result, Exec.Evals (fun n => diffHives n left right leftLabel rightLabel) (.ok result) ∧
      ResultSound left right tl tr result := by
  refine ⟨_, diffHives_reads hl hr leftLabel rightLabel, ⟨valueChanges tl.values tr.values,
    (changesBelow tl tr).map (Change.entry []), exactDetails_valueChanges dl.values dr.values,
    ?_, fun e he => ?_⟩, foldl_count_eq_tally _⟩
  · show (tl.changes tr).map (Change.entry []) = _
    rw [changes_eq, List.map_append]
    refine congrArg (· ++ _) ?_
    unfold modifiedBy rootEntry
    split <;> rfl
  · obtain ⟨c, hc, rfl⟩ := List.mem_map.mp he
    obtain ⟨hsound, hplain, hne⟩ := keyChange_sound dl dr nl nr (fun a ha b hb c' hc' =>
      changes_sound (dl.of_mem a ha) (dr.of_mem b hb) (nl.of_mem ha) (nr.of_mem hb) c' hc') c hc
    exact entrySound_of_change hl hr hsound hplain hne

/-- There are no names in the bare tree that could be wrong. -/
theorem bareTree_named : bareTree.Named :=
  .node (fun _ hc => absurd hc List.not_mem_nil) fun _ hc => absurd hc List.not_mem_nil

/-- The names `A` and `B` can stand in paths. -/
theorem nestedTree_named : nestedTree.Named := by
  refine .node (fun a ha => ?_) fun a ha => ?_
  · obtain rfl := List.mem_singleton.mp ha
    exact ⟨by decide, by decide⟩
  · obtain rfl := List.mem_singleton.mp ha
    refine .node (fun b hb => ?_) fun b hb => ?_
    · obtain rfl := List.mem_singleton.mp hb
      exact ⟨by decide, by decide⟩
    · obtain rfl := List.mem_singleton.mp hb
      exact .node (fun _ hc => absurd hc List.not_mem_nil)
        fun _ hc => absurd hc List.not_mem_nil

/-- The two samples: the one entry of their diff is the key `A`, which the right hive has and the
    left one lacks. -/
theorem diffHives_sound_nested :
    ∃ result, Exec.Evals (fun n => diffHives n bareHive nestedHive [] []) (.ok result) ∧
      ResultSound bareHive nestedHive bareTree nestedTree result :=
  diffHives_sound bareHive_readsTree nestedHive_readsTree bareTree_distinct nestedTree_distinct
    bareTree_named nestedTree_named [] []

end Diff

end Winreg
