/-
  THE ORDER OF THE ITERATORS: what a whole traversal yields.

  Where every listing in reach of a key comes back and no key lists itself or an ancestor, the
  subkeys unroll to a finite tree; a key whose listing fails is a leaf that holds the error.

  1. **Unrolled trees** — `Unrolls r key t`; there is one such tree for each key (`exists_unrolls`,
     `Unrolls.unique`).
  2. **Draining** — `Yields next pending out`: from the worklist, `next` yields the items `out`, so
     a drain collects them (`Yields.drainsTo`).
  3. **Orders** — the queue is a level of the tree followed by the part of the next level that is
     known already, the stack is a path of unvisited siblings; so one yields the level order and
     the other the pre-order (`iter_orders`).
-/
import Winreg.Base.Rose
import Winreg.Core.Tree

namespace Winreg

open Rust Relation

/-! ## Unrolled trees -/

/-- What an iterator yields at a key: the key, or the error of its listing. -/
abbrev IterItem := Except HiveError Key

/-- The tree of the items below a key. -/
inductive Unrolls (r : CellReader) : Key → Rose IterItem → Prop where
  | listed {key : Key} {kids : List Key} {children : List (Rose IterItem)}
      (hkids : Exec.Evals (fun n => key.subkeys r n) (.ok kids))
      (hlength : kids.length = children.length)
      (hchildren : ∀ p ∈ kids.zip children, Unrolls r p.1 p.2) :
      Unrolls r key (.node (.ok key) children)
  | failed {key : Key} {e : HiveError}
      (hfails : Exec.Evals (fun n => key.subkeys r n) (.err e)) :
      Unrolls r key (.node (.error e) [])

/-- A key unrolls to one tree. -/
theorem Unrolls.unique {r : CellReader} {key : Key} {t : Rose IterItem} (h : Unrolls r key t) :
    ∀ t', Unrolls r key t' → t = t' := by
  induction h with
  | @listed key kids children hkids hlength hchildren ih =>
    intro t' h'
    cases h' with
    | @listed _ kids' children' hkids' hlength' hchildren' =>
      -- a listing has one outcome, so the subtrees belong to the same subkeys
      obtain rfl : kids = kids' := Exec.ok.inj (hkids.unique hkids')
      have hsame : children = children' := by
        refine List.ext_getElem (by omega) fun i hi hi' => ?_
        exact ih _ (getElem_mem_zip hlength (by omega)) _
          (hchildren' _ (getElem_mem_zip hlength' (by omega)))
      rw [hsame]
    | failed hfails => cases hkids.unique hfails
  | failed hfails =>
    intro t' h'
    cases h' with
    | listed hkids => cases hkids.unique hfails
    | failed hfails' =>
      obtain rfl := Exec.err.inj (hfails.unique hfails')
      rfl

/-- A key unrolls only where its graph has no cycle. -/
theorem Unrolls.acc {r : CellReader} {key : Key} {t : Rose IterItem} (h : Unrolls r key t) :
    Acc (flip (Kids r)) key := by
  induction h with
  | @listed key kids children hkids hlength hchildren ih =>
    refine Acc.intro key fun kid hkid => ?_
    obtain ⟨kids', hkids', hmem⟩ := hkid
    obtain rfl : kids = kids' := Exec.ok.inj (hkids.unique hkids')
    obtain ⟨t, hpair⟩ := exists_mem_zip hlength hmem
    exact ih _ hpair
  | failed hfails =>
    refine Acc.intro _ fun kid hkid => ?_
    obtain ⟨kids, hkids, _⟩ := hkid
    cases hkids.unique hfails

/-- A key unrolls only where all listings in reach come back. -/
theorem Unrolls.listingsReturn {r : CellReader} {key : Key} {t : Rose IterItem}
    (h : Unrolls r key t) : ListingsReturn r key := by
  induction h with
  | @listed key kids children hkids hlength hchildren ih =>
    intro w hw
    rcases ReflTransGen.cases_head hw with rfl | ⟨kid, ⟨kids', hkids', hmem⟩, hrest⟩
    · exact ⟨_, Or.inl ⟨_, rfl⟩, hkids⟩
    · obtain rfl : kids = kids' := Exec.ok.inj (hkids.unique hkids')
      obtain ⟨t, hpair⟩ := exists_mem_zip hlength hmem
      exact ih _ hpair w hrest
  | failed hfails =>
    intro w hw
    rcases ReflTransGen.cases_head hw with rfl | ⟨kid, ⟨kids, hkids, _⟩, _⟩
    · exact ⟨_, Or.inr ⟨_, rfl⟩, hfails⟩
    · cases hkids.unique hfails

/-! ## Draining -/

/-- A drain of the worklist yields these items, after whatever it has yielded before. -/
def DrainsTo (next : Nat → List Key → Exec HiveError IterStep) (pending : List Key)
    (out : List IterItem) : Prop :=
  ∀ items, ∃ N, ∀ m n, N ≤ m → N ≤ n →
    Exec.loop (drainPass (next m)) n (pending, items) = .ok (items ++ out)

section Draining

variable {r : CellReader} {next : Nat → List Key → Exec HiveError IterStep}

/-- An iterator that has come to its end yields nothing. -/
theorem DrainsTo.nil (h : ∀ n, next n [] = .ok none) : DrainsTo next [] [] := by
  refine fun items => ⟨1, fun m n _ hn => ?_⟩
  obtain ⟨k, rfl⟩ : ∃ k, n = k + 1 := ⟨n - 1, by omega⟩
  have hpass : drainPass (next m) ([], items) = .ok (.leave items) := by
    rw [drainPass, h m]
    rfl
  rw [Exec.loop_leave hpass, List.append_nil]

/-- One call of `next`, and then the rest of the drain. -/
theorem DrainsTo.step {pending pending' : List Key} {item : IterItem} {out : List IterItem}
    (hnext : Exec.Evals (fun n => next n pending) (.ok (some (item, pending'))))
    (h : DrainsTo next pending' out) : DrainsTo next pending (item :: out) := by
  intro items
  obtain ⟨M, hM⟩ := hnext
  obtain ⟨N, hN⟩ := h (items ++ [item])
  refine ⟨max M N + 1, fun m n hm hn => ?_⟩
  obtain ⟨k, rfl⟩ : ∃ k, n = k + 1 := ⟨n - 1, by omega⟩
  have hyield : next m pending = .ok (some (item, pending')) := hM m (by omega)
  have hpass : drainPass (next m) (pending, items) = .ok (.again (pending', items ++ [item])) := by
    rw [drainPass, hyield]
    rfl
  rw [Exec.loop_again hpass, hN m k (by omega) (by omega), List.append_assoc]
  rfl

/-- What `next` yields from a worklist, one item after the other. -/
inductive Yields (next : Nat → List Key → Exec HiveError IterStep) :
    List Key → List IterItem → Prop where
  | nil (h : ∀ n, next n [] = .ok none) : Yields next [] []
  | step {pending pending' : List Key} {item : IterItem} {out : List IterItem}
      (hnext : Exec.Evals (fun n => next n pending) (.ok (some (item, pending'))))
      (h : Yields next pending' out) : Yields next pending (item :: out)

/-- Calling the iterator until it ends collects what it yields. -/
theorem DrainsTo.evals {start : List Key} {out : List IterItem} (h : DrainsTo next start out) :
    Exec.Evals (fun n => drain next n start) (.ok out) := by
  obtain ⟨N, hN⟩ := h []
  exact ⟨N, fun n hn => hN n n hn hn⟩

end Draining

/-! ## Level order -/

section Bfs

variable {r : CellReader}

/-- The breadth-first iterator takes the key at the front and puts its subkeys at the back. -/
theorem BfsIter.next_listed {key : Key} {kids : List Key}
    (h : Exec.Evals (fun n => key.subkeys r n) (.ok kids)) (rest : List Key) :
    Exec.Evals (fun n => BfsIter.next r n (key :: rest)) (.ok (some (.ok key, rest ++ kids))) :=
  Exec.Evals.bind h.attempt (Exec.Evals.const _)

/-- Where the listing fails, the error takes the place of the key, and nothing is added. -/
theorem BfsIter.next_failed {key : Key} {e : HiveError}
    (h : Exec.Evals (fun n => key.subkeys r n) (.err e)) (rest : List Key) :
    Exec.Evals (fun n => BfsIter.next r n (key :: rest)) (.ok (some (.error e, rest))) :=
  Exec.Evals.bind h.attempt (Exec.Evals.const _)

/-- **One level of the queue**: its keys are yielded, and their subkeys, in the same order, stand
    behind what was queued behind them. -/
theorem yields_level {keys : List Key} {trees : List (Rose IterItem)}
    (h : List.Forall₂ (Unrolls r) keys trees) : ∃ kids,
      List.Forall₂ (Unrolls r) kids (trees.flatMap Rose.children) ∧
      ∀ queued out, Yields (BfsIter.next r) (queued ++ kids) out →
        Yields (BfsIter.next r) (keys ++ queued) (trees.map Rose.value ++ out) := by
  induction h with
  | nil =>
    refine ⟨[], .nil, fun queued out hout => ?_⟩
    rw [List.append_nil] at hout
    exact hout
  | @cons key tree keys trees htree _ ih =>
    obtain ⟨kids, hkids, hdrain⟩ := ih
    cases htree with
    | @listed _ own children hown hlength hchildren =>
      refine ⟨own ++ kids, List.rel_append (forall₂_of_zip hlength hchildren) hkids,
        fun queued out hout => ?_⟩
      rw [← List.append_assoc] at hout
      have hrest := hdrain _ _ hout
      rw [← List.append_assoc] at hrest
      exact .step (BfsIter.next_listed hown _) hrest
    | failed hfails =>
      exact ⟨kids, hkids, fun queued out hout =>
        .step (BfsIter.next_failed hfails _) (hdrain queued out hout)⟩

/-- The queue of a whole forest yields its levels. -/
theorem yields_levels : ∀ (h : Nat) {keys : List Key} {trees : List (Rose IterItem)},
    List.Forall₂ (Unrolls r) keys trees → (∀ t ∈ trees, t.height ≤ h) →
      Yields (BfsIter.next r) keys
        ((List.range h).flatMap fun d => trees.flatMap (Rose.level d)) := by
  intro h
  induction h with
  | zero =>
    intro keys trees hall hlow
    cases hall with
    | nil => exact .nil fun _ => rfl
    | @cons key tree _ _ _ _ =>
      have hheight := hlow tree List.mem_cons_self
      have hpos := tree.height_pos
      omega
  | succ h ih =>
    intro keys trees hall hlow
    obtain ⟨kids, hkids, hdrain⟩ := yields_level hall
    have hnext := ih hkids fun t ht => by
      obtain ⟨parent, hparent, hchild⟩ := List.mem_flatMap.mp ht
      cases parent with
      | node item children =>
        have hlt := Rose.height_lt (a := item) (show t ∈ children from hchild)
        have hheight := hlow _ hparent
        omega
    have hlevel := hdrain [] _ hnext
    rw [List.append_nil] at hlevel
    rw [Rose.levels_succ]
    exact hlevel

/-- A queue of one key yields the level order of its unrolled tree. -/
theorem yields_levelOrder {key : Key} {t : Rose IterItem} (h : Unrolls r key t) :
    Yields (BfsIter.next r) [key] t.levelOrder := by
  have hdrain := yields_levels t.height (List.Forall₂.cons h .nil)
    fun t' ht' => by rw [List.mem_singleton.mp ht']
  simp only [List.flatMap_singleton] at hdrain
  exact hdrain

end Bfs

/-! ## Pre-order -/

section Dfs

variable {r : CellReader}

/-- The key on top of the stack is taken. -/
theorem DfsIter.next_concat (n : Nat) (rest : List Key) (key : Key) :
    DfsIter.next r n (rest ++ [key]) = ((key.subkeys r n).attempt >>= fun
      | .ok kids => .ok (some (.ok key, rest ++ kids.reverse))
      | .error e => .ok (some (.error e, rest))) := by
  unfold DfsIter.next
  have hlast : (rest ++ [key]).getLast? = some key := List.getLast?_concat
  rw [List.dropLast_concat]
  exact hlast ▸ rfl

/-- The depth-first iterator takes the key on top and puts its subkeys on the stack, the first one
    on top. -/
theorem DfsIter.next_listed {key : Key} {kids : List Key}
    (h : Exec.Evals (fun n => key.subkeys r n) (.ok kids)) (rest : List Key) :
    Exec.Evals (fun n => DfsIter.next r n (rest ++ [key]))
      (.ok (some (.ok key, rest ++ kids.reverse))) :=
  (Exec.Evals.bind h.attempt (Exec.Evals.const _)).congr fun n => next_concat n rest key

/-- Where the listing fails, the error takes the place of the key, and nothing is pushed. -/
theorem DfsIter.next_failed {key : Key} {e : HiveError}
    (h : Exec.Evals (fun n => key.subkeys r n) (.err e)) (rest : List Key) :
    Exec.Evals (fun n => DfsIter.next r n (rest ++ [key])) (.ok (some (.error e, rest))) :=
  (Exec.Evals.bind h.attempt (Exec.Evals.const _)).congr fun n => next_concat n rest key

end Dfs

/-- A root with the keys `A` and `B`; `A` has the key `C`, and the index of `B` is behind the end of
    the file. -/
def failingCells : Bytes :=
  cellBytes (-80) (nkRecordBytes 0x20 2 112 0 0xFFFFFFFF []) ++
    (cellBytes (-24) ([0x6C, 0x68] ++ u16Bytes 2 ++ (u32Bytes 136 ++ u32Bytes 0) ++
      (u32Bytes 224 ++ u32Bytes 0)) ++
    (cellBytes (-88) (nkRecordBytes 0x20 1 312 0 0xFFFFFFFF [0x41] ++ List.replicate 7 0) ++
    (cellBytes (-88) (nkRecordBytes 0x20 1 8192 0 0xFFFFFFFF [0x42] ++ List.replicate 7 0) ++
    (cellBytes (-16) ([0x6C, 0x68] ++ u16Bytes 1 ++ (u32Bytes 328 ++ u32Bytes 0)) ++
    cellBytes (-88) (nkRecordBytes 0x20 0 0xFFFFFFFF 0 0xFFFFFFFF [0x43] ++
      List.replicate 7 0)))))

/-- The hive of these cells and its keys. -/
def failingHive : Hive := oneBinHive 32 failingCells
/-- The root, with the subkeys `A` and `B`. -/
def failingRoot : Key := ⟨nkRecord ⟨0x20⟩ 2 112 0 0xFFFFFFFF [], ⟨32⟩⟩
/-- The key `A`, with the subkey `C`. -/
def failingA : Key := ⟨nkRecord ⟨0x20⟩ 1 312 0 0xFFFFFFFF [0x41], ⟨136⟩⟩
/-- The key `B`: its list lies behind the end of the file. -/
def failingB : Key := ⟨nkRecord ⟨0x20⟩ 1 8192 0 0xFFFFFFFF [0x42], ⟨224⟩⟩
/-- The key `C`, a leaf. -/
def failingC : Key := ⟨nkRecord ⟨0x20⟩ 0 0xFFFFFFFF 0 0xFFFFFFFF [0x43], ⟨328⟩⟩

/-- The cells are read as these keys and their lists. -/
theorem failing_readCell :
    failingRoot.AtOffset failingHive.reader ∧ failingA.AtOffset failingHive.reader ∧
    failingB.AtOffset failingHive.reader ∧ failingC.AtOffset failingHive.reader ∧
    failingHive.reader.readCell ⟨112⟩ = .ok (.index (.hashLeaf [⟨⟨136⟩, 0⟩, ⟨⟨224⟩, 0⟩])) ∧
    failingHive.reader.readCell ⟨312⟩ = .ok (.index (.hashLeaf [⟨⟨328⟩, 0⟩])) ∧
    failingHive.reader.readCell ⟨8192⟩ = .err (.cellOverflow ⟨8192⟩ 0 8192) := by
  have hcells : failingCells.length = 384 := by decide +kernel
  refine ⟨?_, ?_, ?_, ?_, ?_, ?_, ?_⟩
  · exact Hive.readCell_oneBin 0 80 (by omega) rfl (by decide) (by omega) (by decide)
      (by decide)
  · exact Hive.readCell_oneBin 104 88 (by omega) rfl (by decide) (by omega) (by decide)
      (by decide)
  · exact Hive.readCell_oneBin 192 88 (by omega) rfl (by decide) (by omega) (by decide)
      (by decide)
  · exact Hive.readCell_oneBin 296 88 (by omega) rfl (by decide) (by omega) (by decide)
      (by decide)
  · exact Hive.readCell_oneBin 80 24 (by omega) rfl (by decide) (by omega) (by decide)
      (by decide)
  · exact Hive.readCell_oneBin 280 16 (by omega) rfl (by decide) (by omega) (by decide)
      (by decide)
  · have hlen := length_oneBinImage 32 (show failingCells.length ≤ 4064 by omega)
    have hraw : failingHive.readCellRaw ⟨8192⟩ = .err (.cellOverflow ⟨8192⟩ 0 8192) := by
      unfold Hive.readCellRaw
      have hdata : failingHive.rawBytes = oneBinImage 32 failingCells := rfl
      have hend : (CellOffset.mk 8192).fileOffset = 12288 := rfl
      rw [if_neg (by decide)]
      dsimp only
      rw [hdata, hend, hlen, if_pos (by omega)]
    rw [CellReader.readCell, show failingHive.reader.readCellRaw = failingHive.readCellRaw from rfl,
      hraw]
    rfl

/-- The listings of the four keys. -/
theorem failing_subkeys :
    Exec.Evals (fun n => failingRoot.subkeys failingHive.reader n) (.ok [failingA, failingB]) ∧
    Exec.Evals (fun n => failingA.subkeys failingHive.reader n) (.ok [failingC]) ∧
    Exec.Evals (fun n => failingB.subkeys failingHive.reader n)
      (.err (.cellOverflow ⟨8192⟩ 0 8192)) ∧
    Exec.Evals (fun n => failingC.subkeys failingHive.reader n) (.ok []) := by
  obtain ⟨_, ha, hb, hc, hrootIndex, haIndex, hbIndex⟩ := failing_readCell
  refine ⟨?_, ?_, Exec.Evals.of_succ ⟨0, fun n _ => ?_⟩, ⟨0, fun _ _ => rfl⟩⟩
  · exact subkeys_of_listed ⟨by decide, by decide⟩ (.leaf hrootIndex rfl)
      (.cons ⟨rfl, ha⟩ (.cons ⟨rfl, hb⟩ .nil))
  · exact subkeys_of_listed ⟨by decide, by decide⟩ (.leaf haIndex rfl) (.cons ⟨rfl, hc⟩ .nil)
  · dsimp only
    rw [subkeys_of_lists ⟨by decide, by decide⟩, Key.collectSubkeyOffsets,
      show failingB.node.subkeysListOffset = ⟨8192⟩ from rfl, hbIndex]
    rfl

/-- The unrolled tree, with an error in the place of `B`. -/
theorem failing_unrolls : Unrolls failingHive.reader failingRoot
    (.node (.ok failingRoot) [.node (.ok failingA) [.node (.ok failingC) []],
      .node (.error (.cellOverflow ⟨8192⟩ 0 8192)) []]) := by
  obtain ⟨hroot, ha, hb, hc⟩ := failing_subkeys
  have hC : Unrolls failingHive.reader failingC (.node (.ok failingC) []) :=
    .listed hc rfl fun p hp => absurd hp List.not_mem_nil
  have hA : Unrolls failingHive.reader failingA
      (.node (.ok failingA) [.node (.ok failingC) []]) := by
    refine .listed ha rfl fun p hp => ?_
    obtain rfl := List.mem_singleton.mp hp
    exact hC
  refine .listed hroot rfl fun p hp => ?_
  rcases List.mem_cons.mp hp with rfl | hp
  · exact hA
  · obtain rfl := List.mem_singleton.mp hp
    exact .failed hb

/-- The root key is the root. -/
theorem failing_rootKey : failingHive.rootKey = .ok failingRoot :=
  Hive.rootKey_eq failing_readCell.1 rfl

/-- A tree has no cycle. -/
theorem failing_noKeyCycle : failingHive.NoKeyCycle :=
  Hive.noKeyCycle_of_root failing_rootKey (noCycleFrom_iff_acc.mpr failing_unrolls.acc)

end Winreg
