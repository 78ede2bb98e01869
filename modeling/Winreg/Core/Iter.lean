/-
  KEY ITERATORS: breadth-first and depth-first traversal of the registry tree.

  Both iterators keep a worklist of keys.  `next` takes one key, lists its subkeys, puts them into
  the worklist and yields the key; when the listing fails, the error is yielded instead.  Neither
  remembers which keys it has visited.

  1. **Iterators** — `BfsIter.next` takes from the front and puts at the back, `DfsIter.next` takes
     from the back and puts the subkeys there in reverse order; `drain` calls `next` to the end.
  2. **The key graph** — `Kids r a b`: `b` is among the subkeys of `a`.
     Lookups by name and by path only move along it.
  3. **Ending** — a drain ends exactly when every key of the worklist is accessible in that graph
     (`drain_ends_iff`), whichever end the keys are taken from.
-/
import Winreg.Core.IndexWalk

namespace Winreg

open Rust Relation

/-! ## Iterators -/

/-- What `next` yields: nothing at the end, else an item and the worklist that is left. -/
abbrev IterStep := Option (Except HiveError Key × List Key)

namespace BfsIter

/-- `BfsIter::next` on the queue. -/
def next (r : CellReader) (n : Nat) (queue : List Key) : Exec HiveError IterStep :=
  match queue with
  | [] => .ok none
  | key :: rest => do
    match ← (key.subkeys r n).attempt with
    | .ok children => .ok (some (.ok key, rest ++ children))
    | .error e => .ok (some (.error e, rest))

end BfsIter

namespace DfsIter

/-- `DfsIter::next` on the stack, whose top is the end of the list. -/
def next (r : CellReader) (n : Nat) (stack : List Key) : Exec HiveError IterStep :=
  match stack.getLast? with
  | none => .ok none
  | some key => do
    let rest := stack.dropLast
    match ← (key.subkeys r n).attempt with
    | .ok children => .ok (some (.ok key, rest ++ children.reverse))
    | .error e => .ok (some (.error e, rest))

end DfsIter

/-- One call of `next` in a drain; the state is the worklist and the items so far. -/
def drainPass (next : List Key → Exec HiveError IterStep)
    (s : List Key × List (Except HiveError Key)) :
    Exec HiveError (Exec.Pass (List Key × List (Except HiveError Key))
      (List (Except HiveError Key))) := do
  match ← next s.1 with
  | none => .ok (.leave s.2)
  | some (item, pending) => .ok (.again (pending, s.2 ++ [item]))

/-- Call `next` until it yields nothing. -/
def drain (next : Nat → List Key → Exec HiveError IterStep) (n : Nat) (start : List Key) :
    Exec HiveError (List (Except HiveError Key)) :=
  Exec.loop (drainPass (next n)) n (start, [])

/-- All items of `iter_bfs`. -/
def Hive.iterBfs (hive : Hive) (n : Nat) : Exec HiveError (List (Except HiveError Key)) := do
  let root ← hive.rootKey
  drain (BfsIter.next hive.reader) n [root]

/-- All items of `iter_dfs`. -/
def Hive.iterDfs (hive : Hive) (n : Nat) : Exec HiveError (List (Except HiveError Key)) := do
  let root ← hive.rootKey
  drain (DfsIter.next hive.reader) n [root]

/-! ## The key graph -/

/-- `b` is among the subkeys of `a`. -/
def Kids (r : CellReader) (a b : Key) : Prop :=
  ∃ children, Exec.Evals (fun n => a.subkeys r n) (.ok children) ∧ b ∈ children

/-- Listing the subkeys of every key in reach of `k` comes back. -/
def ListingsReturn (r : CellReader) (k : Key) : Prop :=
  ∀ w, ReflTransGen (Kids r) k w →
    ∃ x : Exec HiveError (List Key), x.Returns ∧ Exec.Evals (fun n => w.subkeys r n) x

/-- The condition speaks about every key in reach, so it goes on holding further down. -/
theorem ListingsReturn.of_reachable {r : CellReader} {k w : Key} (h : ListingsReturn r k)
    (hw : ReflTransGen (Kids r) k w) : ListingsReturn r w :=
  fun v hv => h v (hw.trans hv)

/-- In particular for the subkeys. -/
theorem ListingsReturn.of_kids {r : CellReader} {k w : Key} (h : ListingsReturn r k)
    (hw : Kids r k w) : ListingsReturn r w :=
  fun v hv => h v (ReflTransGen.head hw hv)

/-- The key is the parsed `nk` cell at its offset. -/
def Key.AtOffset (r : CellReader) (k : Key) : Prop := r.readCell k.offset = .ok (.keyNode k.node)

/-- A key is settled by its offset: what is read there is read once. -/
theorem Key.AtOffset.unique {r : CellReader} {v w : Key} (hv : v.AtOffset r) (hw : w.AtOffset r)
    (h : v.offset = w.offset) : v = w := by
  obtain ⟨nodeV, off⟩ := v
  obtain ⟨nodeW, _⟩ := w
  obtain rfl : off = _ := h
  have heq : (Exec.ok (Cell.keyNode nodeV) : Exec HiveError Cell) = .ok (.keyNode nodeW) :=
    hv.symm.trans hw
  obtain rfl := Cell.keyNode.inj (Exec.ok.inj heq)
  rfl

/-- The key at the root offset is the root key. -/
theorem Hive.rootKey_eq {hive : Hive} {root : Key} (h : root.AtOffset hive.reader)
    (hoff : hive.rootCellOffset = root.offset) : hive.rootKey = .ok root := by
  unfold Hive.rootKey Key.fromCellOffset
  rw [hoff, show hive.reader.readCell root.offset = _ from h]
  rfl

/-- The keys that are pushed are the parsed cells at their offsets. -/
theorem atOffset_of_foldlM_pushKey {r : CellReader} : ∀ (offsets : List CellOffset)
    (keys res : List Key), offsets.foldlM (Key.pushKey r) keys = .ok res →
      (∀ k ∈ keys, k.AtOffset r) → ∀ k ∈ res, k.AtOffset r := by
  intro offsets
  induction offsets with
  | nil =>
    intro keys res h hkeys
    obtain rfl : keys = res := by simpa using h
    exact hkeys
  | cons off offsets ih =>
    intro keys res h hkeys
    rw [List.foldlM_cons] at h
    obtain ⟨keys', hpush, hrest⟩ := Exec.bind_eq_ok.mp h
    refine ih keys' res hrest ?_
    obtain ⟨cell, hcell, hmatch⟩ := Exec.bind_eq_ok.mp hpush
    split at hmatch
    · rename_i nk
      obtain rfl : keys ++ [⟨nk, off⟩] = keys' := by simpa using hmatch
      intro k hk
      rcases List.mem_append.mp hk with hk | hk
      · exact hkeys k hk
      · rw [List.mem_singleton.mp hk]; exact hcell
    · obtain rfl : keys = keys' := by simpa using hmatch
      exact hkeys

/-- A listed key is the one at its offset. -/
theorem Kids.atOffset {r : CellReader} {a b : Key} (h : Kids r a b) : b.AtOffset r := by
  obtain ⟨children, ⟨n, hn⟩, hb⟩ := h
  have hrun : a.subkeys r n = .ok children := hn n (Nat.le_refl n)
  by_cases hl : a.ListsSubkeys
  · rw [subkeys_of_lists hl] at hrun
    obtain ⟨offsets, _, hfold⟩ := Exec.bind_eq_ok.mp hrun
    exact atOffset_of_foldlM_pushKey offsets [] children hfold (by simp) b hb
  · rw [subkeys_of_not_lists hl] at hrun
    obtain rfl : [] = children := by simpa using hrun
    cases hb

/-- Finitely many keys are in reach: below the start, a key is determined by its offset. -/
instance finite_reachable (r : CellReader) (k : Key) :
    Finite {w // ReflTransGen (Kids r) k w} := by
  refine Finite.of_injective (β := Option CellOffset)
    (fun w => if w.1 = k then none else some w.1.offset) ?_
  have hat : ∀ w, ReflTransGen (Kids r) k w → w ≠ k → w.AtOffset r := by
    intro w hw hne
    rcases ReflTransGen.cases_tail hw with heq | ⟨u, _, hu⟩
    · exact absurd heq hne
    · exact hu.atOffset
  rintro ⟨v, hv⟩ ⟨w, hw⟩ h
  dsimp only at h
  by_cases hvk : v = k <;> by_cases hwk : w = k
  · exact Subtype.ext (hvk.trans hwk.symm)
  · rw [if_pos hvk, if_neg hwk] at h; cases h
  · rw [if_neg hvk, if_pos hwk] at h; cases h
  · rw [if_neg hvk, if_neg hwk] at h
    exact Subtype.ext ((hat v hv hvk).unique (hat w hw hwk) (Option.some.inj h))

/-! ## Navigation stays in the graph -/

section Navigation

variable {r : CellReader}

/-- A listing that comes back shows the subkeys in the graph. -/
theorem kids_iff_mem {key w : Key} {n : Nat} {children : List Key}
    (h : key.subkeys r n = .ok children) : Kids r key w ↔ w ∈ children := by
  have hne : key.subkeys r n ≠ .timeout := by rw [h]; exact nofun
  have hlists := h ▸ (subkeys_grows key).evals hne
  constructor
  · rintro ⟨children', hlists', hw⟩
    rwa [Exec.ok.inj (hlists'.unique hlists)] at hw
  · intro hw
    exact ⟨children, hlists, hw⟩

/-- A key whose listing fails has no subkeys in the graph. -/
theorem not_kids_of_err {key w : Key} {n : Nat} {e : HiveError} (h : key.subkeys r n = .err e) :
    ¬ Kids r key w := by
  rintro ⟨children, hlists, _⟩
  have hne : key.subkeys r n ≠ .timeout := by rw [h]; exact nofun
  have hfails := h ▸ (subkeys_grows key).evals hne
  cases hlists.unique hfails

/-- A subkey that is found by name is one of those listed. -/
theorem subkey_eq_some {key w : Key} {n : Nat} {name : Str}
    (h : key.subkey r n name = .ok (some w)) : Kids r key w := by
  obtain ⟨keys, hkeys, hfind⟩ := Exec.bind_eq_ok.mp h
  have hmem : w ∈ keys := List.mem_of_find?_eq_some (by simpa using hfind)
  exact (kids_iff_mem hkeys).mpr hmem

/-- More fuel never changes the result of a lookup. -/
theorem subkey_grows (key : Key) (name : Str) : Exec.Grows fun n => key.subkey r n name :=
  fun n => Exec.Refines.bind (subkeys_grows key n) fun _ => Exec.Refines.refl _

/-- A lookup ends where the listing does. -/
theorem subkey_ends {key : Key} (h : ListingsReturn r key) (name : Str) :
    Exec.Ends fun n => key.subkey r n name := by
  obtain ⟨x, hx, hev⟩ := h key ReflTransGen.refl
  simp only [Key.subkey]
  exact Exec.Ends.bind (subkeys_grows key) (fun _ => Exec.grows_const _) (hev.ends hx.ne_timeout)
    fun _ _ _ => ⟨0, by simp⟩

/-- Descending ends at a key in reach. -/
theorem descend_eq_some {n : Nat} : ∀ (parts : List Str) {key w : Key},
    Key.descend r n key parts = .ok (some w) → ReflTransGen (Kids r) key w := by
  intro parts
  induction parts with
  | nil =>
    intro key w h
    obtain rfl : key = w := by simpa [Key.descend] using h
    exact ReflTransGen.refl
  | cons part rest ih =>
    intro key w h
    obtain ⟨found, hfound, hrest⟩ := Exec.bind_eq_ok.mp h
    cases found with
    | none => cases hrest
    | some next => exact ReflTransGen.head (subkey_eq_some hfound) (ih hrest)

/-- The same for a way down, by induction on the path. -/
theorem descend_grows : ∀ (parts : List Str) (key : Key),
    Exec.Grows fun n => Key.descend r n key parts
  | [], _ => Exec.grows_const _
  | part :: rest, key => fun n => Exec.Refines.bind (subkey_grows key part n) fun found => by
    cases found with
    | none => exact Exec.Refines.refl _
    | some next => exact descend_grows rest next n

/-- A way down ends: each key on it is in reach of the first. -/
theorem descend_ends : ∀ (parts : List Str) {key : Key}, ListingsReturn r key →
    Exec.Ends fun n => Key.descend r n key parts := by
  intro parts
  induction parts with
  | nil => exact fun _ => ⟨0, by simp [Key.descend]⟩
  | cons part rest ih =>
    intro key h
    simp only [Key.descend]
    refine Exec.Ends.bind (subkey_grows key part) (fun found => ?_) (subkey_ends h part)
      fun n found hfound => ?_
    · cases found with
      | none => exact Exec.grows_const _
      | some next => exact descend_grows rest next
    · cases found with
      | none => exact ⟨0, by simp⟩
      | some next => exact ih (h.of_kids (subkey_eq_some hfound))

end Navigation

/-- Listing the subkeys of every key in reach of the root comes back. -/
def Hive.SubkeysReturn (hive : Hive) : Prop :=
  ∀ root, hive.rootKey = .ok root → ListingsReturn hive.reader root

/-- No key in reach of the root lists itself or an ancestor. -/
def Hive.NoKeyCycle (hive : Hive) : Prop :=
  ∀ root, hive.rootKey = .ok root → NoCycleFrom (Kids hive.reader) root

/-- It is enough that no cycle is in reach of the root key. -/
theorem Hive.noKeyCycle_of_root {hive : Hive} {root : Key} (hroot : hive.rootKey = .ok root)
    (h : NoCycleFrom (Kids hive.reader) root) : hive.NoKeyCycle := by
  intro root' hroot'
  obtain rfl := Exec.ok.inj (hroot.symm.trans hroot')
  exact h

/-- Reading the root needs no fuel. -/
theorem Hive.rootKey_ne_timeout (hive : Hive) : hive.rootKey ≠ .timeout := by
  have hread : (hive.reader.readCell hive.rootCellOffset).Avoids .timeout :=
    hive.readCell_ne_timeout _
  refine hread.bind fun cell _ => ?_
  split
  · exact .ok _
  · exact .err _

/-- A key that is found by a path is in reach. -/
theorem subkeyPath_eq_some {r : CellReader} {n : Nat} {key w : Key} {path : Str}
    (h : key.subkeyPath r n path = .ok (some w)) : ReflTransGen (Kids r) key w := by
  unfold Key.subkeyPath at h
  split at h
  · cases h
  · exact descend_eq_some _ h

/-- More fuel never changes the result of a path lookup. -/
theorem subkeyPath_grows {r : CellReader} (key : Key) (path : Str) :
    Exec.Grows fun n => key.subkeyPath r n path := by
  intro n
  unfold Key.subkeyPath
  dsimp only
  split
  · exact Exec.Refines.refl _
  · exact descend_grows _ key n

/-- A path lookup ends where the listings in reach do. -/
theorem subkeyPath_ends {r : CellReader} {key : Key} (h : ListingsReturn r key) (path : Str) :
    Exec.Ends fun n => key.subkeyPath r n path := by
  unfold Key.subkeyPath
  split
  · exact ⟨0, by simp⟩
  · exact descend_ends _ h

/-- The same from the root of a hive. -/
theorem openKey_grows (hive : Hive) (path : Str) : Exec.Grows fun n => hive.openKey n path :=
  fun n => Exec.Refines.bind (Exec.Refines.refl _) fun root => subkeyPath_grows root path n

/-- Opening a key ends when all listings do. -/
theorem openKey_ends {hive : Hive} (h : hive.SubkeysReturn) (path : Str) :
    Exec.Ends fun n => hive.openKey n path := by
  simp only [Hive.openKey]
  exact Exec.Ends.bind (Exec.grows_const _) (fun root => subkeyPath_grows root path)
    (Exec.ends_const_iff.mpr hive.rootKey_ne_timeout) fun _ root hroot =>
      subkeyPath_ends (h root hroot) path

/-- An opened key is in reach of the root. -/
theorem openKey_eq_some {hive : Hive} {n : Nat} {path : Str} {w : Key}
    (h : hive.openKey n path = .ok (some w)) :
    ∃ root, hive.rootKey = .ok root ∧ ReflTransGen (Kids hive.reader) root w := by
  obtain ⟨root, hroot, hpath⟩ := Exec.bind_eq_ok.mp h
  exact ⟨root, hroot, subkeyPath_eq_some hpath⟩

/-! ## Ending -/

/-- What the two iterators share: some key leaves the worklist and its subkeys come in, in any
    places. -/
def TakesOne (r : CellReader) (next : Nat → List Key → Exec HiveError IterStep) : Prop :=
  (∀ n, next n [] = .ok none) ∧
  ∀ pending, pending ≠ [] → ∃ key rest, pending.Perm (key :: rest) ∧
    ∃ place : List Key → List Key, (∀ children, (place children).Perm (rest ++ children)) ∧
      ∀ n, next n pending = ((key.subkeys r n).attempt >>= fun
        | .ok children => .ok (some (.ok key, place children))
        | .error e => .ok (some (.error e, rest)))

/-- One call of the breadth-first iterator takes one key and lists its subkeys. -/
theorem BfsIter.takesOne (r : CellReader) : TakesOne r (BfsIter.next r) := by
  refine ⟨fun n => rfl, fun pending hne => ?_⟩
  cases pending with
  | nil => exact absurd rfl hne
  | cons key rest =>
    exact ⟨key, rest, List.Perm.refl _, fun children => rest ++ children,
      fun children => List.Perm.refl _, fun n => rfl⟩

/-- So does one call of the depth-first iterator. -/
theorem DfsIter.takesOne (r : CellReader) : TakesOne r (DfsIter.next r) := by
  refine ⟨fun n => rfl, fun pending hne => ?_⟩
  have hsplit := List.dropLast_append_getLast hne
  refine ⟨pending.getLast hne, pending.dropLast, ?_, fun children =>
    pending.dropLast ++ children.reverse, fun children =>
      List.Perm.append_left _ (List.reverse_perm children), fun n => ?_⟩
  · have hperm := List.perm_append_singleton (pending.getLast hne) pending.dropLast
    rwa [hsplit] at hperm
  · unfold DfsIter.next
    rw [List.getLast?_eq_some_getLast hne]

/-- A pass over a worklist with a key to take: it needs the listing of that key and nothing else. -/
theorem drainPass_cons {r : CellReader} {next : Nat → List Key → Exec HiveError IterStep}
    (h : TakesOne r next) {pending : List Key} (hne : pending ≠ [])
    (items : List (Except HiveError Key)) :
    ∃ key rest, pending.Perm (key :: rest) ∧
      ∃ place : List Key → List Key, (∀ children, (place children).Perm (rest ++ children)) ∧
      ∀ n, drainPass (next n) (pending, items) = ((key.subkeys r n).attempt >>= fun
        | .ok children => .ok (.again (place children, items ++ [.ok key]))
        | .error e => .ok (.again (rest, items ++ [.error e]))) := by
  obtain ⟨key, rest, hperm, place, hplace, hnext⟩ := h.2 pending hne
  refine ⟨key, rest, hperm, place, hplace, fun n => ?_⟩
  unfold drainPass
  rw [hnext n, bind_assoc]
  refine congrArg _ (funext fun x => ?_)
  cases x <;> rfl

/-- A key whose listings come back, with a finite tree below it. -/
structure Drains (r : CellReader) (key : Key) : Prop where
  listings : ListingsReturn r key
  acc : Acc (flip (Kids r)) key

/-- Where draining from a key ends, it ends from each subkey. -/
theorem Drains.kid {r : CellReader} {key child : Key} (h : Drains r key)
    (hkid : Kids r key child) : Drains r child :=
  ⟨h.listings.of_kids hkid, h.acc.inv hkid⟩

/-- **One pass** over such keys puts the subkeys of one of them in its place. -/
theorem drainPass_shrinks {r : CellReader} {next : Nat → List Key → Exec HiveError IterStep}
    (h : TakesOne r next) {pending : List Key} (hne : pending ≠ [])
    (hdrains : ∀ k ∈ pending, Drains r k) (items : List (Except HiveError Key)) :
    ∃ pending' items',
      Exec.Evals (fun n => drainPass (next n) (pending, items)) (.ok (.again (pending', items'))) ∧
        (∀ k ∈ pending', Drains r k) ∧ Shrinks (Kids r) pending' pending := by
  obtain ⟨key, rest, hperm, place, hplace, hpass⟩ := drainPass_cons h hne items
  have hmem : ∀ k, k ∈ pending ↔ k = key ∨ k ∈ rest :=
    fun k => hperm.mem_iff.trans List.mem_cons
  have hkey : Drains r key := hdrains key ((hmem key).mpr (Or.inl rfl))
  have hrest : ∀ k ∈ rest, Drains r k := fun k hk => hdrains k ((hmem k).mpr (Or.inr hk))
  have hacc : ∀ k ∈ pending, Acc (flip (Kids r)) k := fun k hk => (hdrains k hk).acc
  obtain ⟨x, hret, hev⟩ := hkey.listings key ReflTransGen.refl
  rcases hret with ⟨children, rfl⟩ | ⟨e, rfl⟩
  · have hkids : ∀ k ∈ children, Kids r key k := fun k hk => ⟨children, hev, hk⟩
    refine ⟨place children, items ++ [.ok key],
      (Exec.Evals.bind hev.attempt (Exec.Evals.const _)).congr hpass, fun k hk => ?_,
      hacc, key, rest, children, hperm, hplace children, hkids⟩
    rcases List.mem_append.mp ((hplace children).mem_iff.mp hk) with hk | hk
    · exact hrest k hk
    · exact hkey.kid (hkids k hk)
  · refine ⟨rest, items ++ [.error e],
      (Exec.Evals.bind hev.attempt (Exec.Evals.const _)).congr hpass, hrest,
      hacc, key, rest, [], hperm, ?_, by simp⟩
    rw [List.append_nil]

/-- A worklist of accessible keys is drained. -/
theorem drain_ends {r : CellReader} {next : Nat → List Key → Exec HiveError IterStep}
    (h : TakesOne r next) {start : List Key} (hlist : ∀ k ∈ start, ListingsReturn r k)
    (hacc : ∀ k ∈ start, Acc (flip (Kids r)) k) : Exec.Ends fun n => drain next n start := by
  have hwf : WellFounded fun t s : List Key × List (Except HiveError Key) =>
      Shrinks (Kids r) t.1 s.1 := InvImage.wf Prod.fst wellFounded_shrinks
  have hstep : ∀ s : List Key × List (Except HiveError Key), (∀ k ∈ s.1, Drains r k) →
      ∃ x, x ≠ .timeout ∧ Exec.Evals (fun n => drainPass (next n) s) x ∧
        ∀ t, x = .ok (.again t) → (∀ k ∈ t.1, Drains r k) ∧ Shrinks (Kids r) t.1 s.1 := by
    rintro ⟨pending, items⟩ hdrains
    by_cases hne : pending = []
    · subst hne
      refine ⟨.ok (.leave items), by simp, ⟨0, fun n _ => ?_⟩, fun t ht => by cases ht⟩
      dsimp only
      rw [drainPass, h.1 n]
      rfl
    · obtain ⟨pending', items', hev, hdrains', hshrinks⟩ := drainPass_shrinks h hne hdrains items
      refine ⟨.ok (.again (pending', items')), by simp, hev, fun t ht => ?_⟩
      obtain rfl : (pending', items') = t := by simpa using ht
      exact ⟨hdrains', hshrinks⟩
  obtain ⟨x, hx, N, hN⟩ := Exec.loop_evals_of_acc _ hstep (start, []) (hwf.apply _)
    fun k hk => ⟨hlist k hk, hacc k hk⟩
  exact ⟨N, fun ht => hx ((hN N N (Nat.le_refl N) (Nat.le_refl N)).symm.trans ht)⟩

/-- An inaccessible key keeps the drain going for ever. -/
theorem drain_diverges {r : CellReader} {next : Nat → List Key → Exec HiveError IterStep}
    (h : TakesOne r next) {start : List Key} (hlist : ∀ k ∈ start, ListingsReturn r k)
    (hacc : ∃ k ∈ start, ¬ Acc (flip (Kids r)) k) : Exec.Diverges fun n => drain next n start := by
  intro n
  refine Exec.loop_timeout_of_stays (fun s : List Key × List (Except HiveError Key) =>
    (∀ k ∈ s.1, ListingsReturn r k) ∧ ∃ k ∈ s.1, ¬ Acc (flip (Kids r)) k) ?_ n (start, [])
    ⟨hlist, hacc⟩
  rintro ⟨pending, items⟩ ⟨hlist, stuck, hstuck, hnot⟩
  have hne : pending ≠ [] := List.ne_nil_of_mem hstuck
  obtain ⟨key, rest, hperm, place, hplace, hpass⟩ := drainPass_cons h hne items
  have hmem : ∀ k, k ∈ pending ↔ k = key ∨ k ∈ rest :=
    fun k => hperm.mem_iff.trans List.mem_cons
  by_cases ht : key.subkeys r n = .timeout
  · exact Or.inl (by rw [hpass n, ht]; rfl)
  -- the listing of the key taken has ended, so it has come back
  obtain ⟨x, hret, hev⟩ := hlist key ((hmem key).mpr (Or.inl rfl)) key ReflTransGen.refl
  have hrun : key.subkeys r n = x := ((subkeys_grows key).evals ht).unique hev
  refine Or.inr ?_
  rcases hret with ⟨children, rfl⟩ | ⟨e, rfl⟩
  · refine ⟨(place children, items ++ [.ok key]), by rw [hpass n, hrun]; rfl, fun k hk => ?_, ?_⟩
    · rcases List.mem_append.mp ((hplace children).mem_iff.mp hk) with hk | hk
      · exact hlist k ((hmem k).mpr (Or.inr hk))
      · exact (hlist key ((hmem key).mpr (Or.inl rfl))).of_kids ⟨children, hev, hk⟩
    · rcases (hmem stuck).mp hstuck with rfl | hrest
      · obtain ⟨w, ⟨children', hev', hw⟩, hnot'⟩ := exists_not_acc hnot
        obtain rfl : children' = children := by simpa using hev'.unique hev
        exact ⟨w, (hplace _).mem_iff.mpr (List.mem_append_right _ hw), hnot'⟩
      · exact ⟨stuck, (hplace _).mem_iff.mpr (List.mem_append_left _ hrest), hnot⟩
  · refine ⟨(rest, items ++ [.error e]), by rw [hpass n, hrun]; rfl,
      fun k hk => hlist k ((hmem k).mpr (Or.inr hk)), ?_⟩
    rcases (hmem stuck).mp hstuck with rfl | hrest
    · -- a key whose listing fails has no subkeys, so it is accessible
      obtain ⟨w, ⟨children, hev', _⟩, _⟩ := exists_not_acc hnot
      have := hev'.unique hev
      cases this
    · exact ⟨stuck, hrest, hnot⟩

/-- **When a drain ends**: exactly when every key of the worklist is accessible. -/
theorem drain_ends_iff {r : CellReader} {next : Nat → List Key → Exec HiveError IterStep}
    (h : TakesOne r next) {start : List Key} (hlist : ∀ k ∈ start, ListingsReturn r k) :
    (Exec.Ends fun n => drain next n start) ↔ ∀ k ∈ start, Acc (flip (Kids r)) k := by
  constructor
  · intro hends k hk
    by_contra hnot
    exact Exec.ends_iff_not_diverges.mp hends (drain_diverges h hlist ⟨k, hk, hnot⟩)
  · exact drain_ends h hlist

end Winreg
