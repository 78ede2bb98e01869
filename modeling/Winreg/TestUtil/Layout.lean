/-
  THE FIRST PASS allocates the cells of the roles.

  1. **Allocating** — the allocator after some allocations is determined by the bodies given to it
     (`Allocator.ofBodies`): the cells stand one behind the other.
  2. **Stretches** — each loop of the first pass allocates its stretch of `roles`; a loop whose
     rounds do so does so as a whole (`foldl_alloc`).
  3. **The plan** — so the first pass succeeds, and its maps give the ids of the roles
     (`plan_eq`).
  4. **Where the cells are** — the place of a role, and its address; places do not overlap.
  5. **What the maps hold** — the id that each map gives for a key, a value or a data cell.
-/
import Winreg.TestUtil.Roles

namespace Winreg.TestUtil

open Rust

/-! ## Allocating -/

/-- The cells of some bodies, one behind the other from `pos` on. -/
def layOut (pos : Nat) : List Bytes → List AllocatedCell
  | [] => []
  | x :: xs => ⟨pos, align8 (4 + x.length), x⟩ :: layOut (pos + align8 (4 + x.length)) xs

/-- The bytes that the cells of some bodies take. -/
def extent (bodies : List Bytes) : Nat := (bodies.map fun x => align8 (4 + x.length)).sum

/-- Two lists of bodies take the room of both. -/
theorem extent_append (xs ys : List Bytes) : extent (xs ++ ys) = extent xs + extent ys := by
  unfold extent
  rw [List.map_append, List.sum_append]

/-- The second list is laid out behind the first. -/
theorem layOut_append : ∀ (xs ys : List Bytes) (pos : Nat),
    layOut pos (xs ++ ys) = layOut pos xs ++ layOut (pos + extent xs) ys := by
  intro xs ys
  induction xs with
  | nil => exact fun _ => rfl
  | cons x xs ih =>
    intro pos
    have hextent : extent (x :: xs) = align8 (4 + x.length) + extent xs := by
      unfold extent
      rw [List.map_cons, List.sum_cons]
    rw [List.cons_append, layOut, ih, hextent, Nat.add_assoc]
    rfl

theorem length_layOut : ∀ (xs : List Bytes) (pos : Nat), (layOut pos xs).length = xs.length := by
  intro xs
  induction xs with
  | nil => exact fun _ => rfl
  | cons x xs ih => exact fun pos => congrArg Nat.succ (ih _)

/-- The allocator that has been given some bodies. -/
def Allocator.ofBodies (keyFiletime : UInt64) (bodies : List Bytes) : Allocator :=
  ⟨extent bodies, layOut 0 bodies, keyFiletime⟩

/-- **One allocation** puts the new cell behind the others. -/
theorem Allocator.alloc_ofBodies (keyFiletime : UInt64) (bodies : List Bytes) (x : Bytes) :
    (ofBodies keyFiletime bodies).alloc x =
      (bodies.length, ofBodies keyFiletime (bodies ++ [x])) := by
  have hextent : extent (bodies ++ [x]) = extent bodies + align8 (4 + x.length) :=
    extent_append bodies [x]
  unfold alloc ofBodies
  dsimp only
  rw [length_layOut, layOut_append, hextent, Nat.zero_add]
  rfl

/-! ## Stretches -/

section Stretches

variable {b : TestHiveBuilder}

/-- The allocator that has been given the bodies of some roles. -/
def TestHiveBuilder.allocated (b : TestHiveBuilder) (rs : List Role) : Allocator :=
  .ofBodies b.keyFiletime (rs.map b.initial)

/-- The role that comes next has the next id. -/
theorem idOf_of_split {before after : List Role} {r : Role} (h : b.roles = before ++ r :: after) :
    b.idOf r = before.length := by
  have hnodup := nodup_roles b
  rw [h] at hnodup
  have hr : r ∉ before := fun hmem =>
    (List.nodup_append.mp hnodup).2.2 r hmem r List.mem_cons_self rfl
  unfold TestHiveBuilder.idOf
  rw [h, List.idxOf_append_of_notMem hr, List.idxOf_cons_self, Nat.add_zero]

/-- **Allocating the next role.** -/
theorem alloc_role {before after : List Role} {r : Role} (h : b.roles = before ++ r :: after) :
    (b.allocated before).alloc (b.initial r) = (b.idOf r, b.allocated (before ++ [r])) := by
  unfold TestHiveBuilder.allocated
  rw [Allocator.alloc_ofBodies, List.length_map, idOf_of_split h, List.map_append]
  rfl

/-- **A loop allocates its stretch** when each of its rounds does; `state before done` is the
    state of the loop when the roles `before` have cells and the jobs `done` are done. -/
theorem foldl_alloc {σ J : Type} {step : σ → J → σ} {owns : J → List Role}
    {state : List Role → List J → σ} : ∀ {jobs : List J}
    (_hstep : ∀ j ∈ jobs, ∀ before done after, b.roles = before ++ (owns j ++ after) →
      step (state before done) j = state (before ++ owns j) (done ++ [j]))
    {before : List Role} {done : List J} {after : List Role},
    b.roles = before ++ (jobs.flatMap owns ++ after) →
      jobs.foldl step (state before done) = state (before ++ jobs.flatMap owns) (done ++ jobs) := by
  intro jobs
  induction jobs with
  | nil =>
    intro _ before done after _
    rw [List.flatMap_nil, List.append_nil, List.append_nil, List.foldl_nil]
  | cons j jobs ih =>
    intro hstep before done after h
    rw [List.flatMap_cons, List.append_assoc] at h
    have hnext : b.roles = (before ++ owns j) ++ (jobs.flatMap owns ++ after) := by
      rw [h, List.append_assoc]
    rw [List.foldl_cons, hstep j List.mem_cons_self before done _ h,
      ih (fun j' hj' => hstep j' (List.mem_cons_of_mem j hj')) hnext, List.flatMap_cons,
      List.append_assoc, List.append_assoc]
    rfl

/-- A loop that allocates one cell a round. -/
theorem foldl_alloc_one {σ J : Type} {step : σ → J → σ} {role : J → Role}
    {state : List Role → List J → σ} {jobs : List J}
    (hstep : ∀ j ∈ jobs, ∀ before done after, b.roles = before ++ role j :: after →
      step (state before done) j = state (before ++ [role j]) (done ++ [j]))
    {before after : List Role} (h : b.roles = before ++ (jobs.map role ++ after)) :
    jobs.foldl step (state before []) = state (before ++ jobs.map role) jobs := by
  have hmap : jobs.map role = jobs.flatMap fun j => [role j] := List.map_eq_flatMap
  rw [hmap] at h ⊢
  exact foldl_alloc (fun j hj before done after h => hstep j hj before done after h) h

/-- The segments of a value. -/
theorem allocSegments_eq {before after : List Role} {x : Item}
    (h : b.roles = before ++ ((List.range x.segmentCount).map (Role.segment x) ++ after)) :
    allocSegments (b.allocated before) (chunks bigDataSegmentSize x.value.data) =
      ((List.range x.segmentCount).map (fun k => b.idOf (.segment x k)),
        b.allocated (before ++ (List.range x.segmentCount).map (Role.segment x))) := by
  unfold allocSegments chunks
  rw [← x.segmentCount_eq, List.foldl_map]
  refine @foldl_alloc_one b _ _ _ _ (fun before done =>
    (done.map (fun k => b.idOf (.segment x k)), b.allocated before)) _ ?_ before after h
  intro k _ before done after h
  have halloc := alloc_role h
  dsimp only
  unfold Allocator.allocData
  rw [show bytesAt _ _ _ = b.initial (.segment x k) from rfl, halloc, List.map_append]
  rfl

/-! ### Values -/

/-- The `db` cell of a big value, its segment list and its segments. -/
def TestHiveBuilder.bigDataLink (b : TestHiveBuilder) (x : Item) :
    CellId × CellId × List CellId :=
  (b.idOf (.bigData x), b.idOf (.segmentList x),
    (List.range x.segmentCount).map fun k => b.idOf (.segment x k))

/-- What the loop over the values has made when the roles `before` have cells, the values `xs` are
    done and so are the keys `es`. -/
def TestHiveBuilder.valueCells (b : TestHiveBuilder) (before : List Role) (xs : List Item)
    (es : List (Str × List TreeValue)) : ValueCells where
  alloc := b.allocated before
  vkMap := es.foldl (fun m e => m.insert e.1 ((itemsOf e).map fun x => b.idOf (.vk x))) ∅
  valuesListIds := es.foldl (fun m e => m.insert e.1 (b.idOf (.valuesList e.1))) ∅
  dataCellIds := (xs.filter fun x => ¬ x.IsResident).foldl (fun m x =>
    m.insert (b.idOf (.vk x)) (b.idOf x.dataHead)) ∅
  bigDataLinks := (xs.filter fun x => x.IsBig).map b.bigDataLink

/-- **The cells of one value.** -/
theorem allocValue_eq {before after : List Role} {x : Item} (done xs : List Item)
    (es : List (Str × List TreeValue)) (h : b.roles = before ++ (x.roles ++ after)) :
    allocValue (done.map (fun x => b.idOf (.vk x)), b.valueCells before xs es) x.value =
      ((done ++ [x]).map (fun x => b.idOf (.vk x)),
        b.valueCells (before ++ x.roles) (xs ++ [x]) es) := by
  -- first the record of the value, in every case
  have hvk := @alloc_role b before (x.dataRoles ++ after) (.vk x) h
  have hdone : (done ++ [x]).map (fun x => b.idOf (.vk x)) =
      done.map (fun x => b.idOf (.vk x)) ++ [b.idOf (.vk x)] := List.map_append
  have hroles : before ++ x.roles = (before ++ [.vk x]) ++ x.dataRoles := by
    rw [List.append_assoc]
    rfl
  have hnext : b.roles = (before ++ [.vk x]) ++ (x.dataRoles ++ after) := by
    rw [h, List.append_assoc]
    rfl
  unfold allocValue Allocator.allocVk
  dsimp only
  rw [show (b.valueCells before xs es).alloc = b.allocated before from rfl,
    show Allocator.vkBody _ _ _ = b.initial (.vk x) from rfl, hvk, hdone, hroles]
  dsimp only
  unfold Item.dataRoles at hnext ⊢
  generalize before ++ [.vk x] = before' at hnext ⊢
  unfold TestHiveBuilder.valueCells
  dsimp only
  rw [List.filter_append, List.filter_append, List.foldl_append, List.map_append]
  by_cases hbig : x.IsBig
  · -- a cell for each segment, then their list, then the record
    have hlong : x.value.data.length > bigDataThreshold := hbig
    rw [if_pos hbig, List.append_assoc] at hnext
    have hsegments := allocSegments_eq hnext
    rw [← List.append_assoc] at hnext
    have hlist := @alloc_role b _ (.bigData x :: after) _ hnext
    rw [show [Role.segmentList x, .bigData x] ++ after = [.segmentList x] ++ .bigData x :: after
      from rfl, ← List.append_assoc] at hnext
    have hrecord := alloc_role hnext
    rw [if_pos hbig, if_pos hlong, hsegments]
    dsimp only
    rw [List.length_map, List.length_range, show List.replicate (x.segmentCount * 4) 0 =
      b.initial (.segmentList x) from rfl, hlist]
    dsimp only
    rw [show Allocator.dbBody x.segmentCount = b.initial (.bigData x) from rfl, hrecord]
    simp [hbig, hbig.not_resident, Item.dataHead, TestHiveBuilder.bigDataLink]
  · have hshort : ¬ x.value.data.length > bigDataThreshold := hbig
    rw [if_neg hbig] at hnext ⊢
    rw [if_neg hshort]
    by_cases hres : x.IsResident
    · -- resident data needs no cell
      have hfit : ¬ x.value.data.length > 4 := Nat.not_lt.mpr hres
      rw [if_pos hres, if_neg hfit, List.append_nil]
      simp [hres, hbig]
    · -- other data has one cell of its own
      have hfit : x.value.data.length > 4 := Nat.not_le.mp hres
      rw [if_neg hres] at hnext ⊢
      have hdata := alloc_role hnext
      rw [if_pos hfit]
      unfold Allocator.allocData
      rw [show x.value.data = b.initial (.data x) from rfl, hdata]
      simp [hres, hbig, Item.dataHead]

/-- Numbering the values keeps them and their order. -/
theorem map_value_itemsOf (e : Str × List TreeValue) : (itemsOf e).map Item.value = e.2 := by
  unfold itemsOf
  rw [List.map_map]
  exact List.zipIdx_map_fst 0 e.2

/-- **The cells of one key's values.** -/
theorem allocKeyValues_eq {before after : List Role} {e : Str × List TreeValue}
    (he : e ∈ b.entries) (xs : List Item) (es : List (Str × List TreeValue))
    (h : b.roles = before ++ (keyRoles e ++ after)) :
    allocKeyValues (b.valueCells before xs es) e =
      b.valueCells (before ++ keyRoles e) (xs ++ itemsOf e) (es ++ [e]) := by
  unfold keyRoles at h ⊢
  rw [List.append_assoc] at h
  have hvalues : e.2.foldl allocValue ([], b.valueCells before xs es) =
      ((itemsOf e).map (fun x => b.idOf (.vk x)),
        b.valueCells (before ++ (itemsOf e).flatMap Item.roles) (xs ++ itemsOf e) es) := by
    have hstate := @foldl_alloc b _ _ (fun s x => allocValue s x.value) Item.roles
      (fun before done => (done.map (fun x => b.idOf (.vk x)), b.valueCells before (xs ++ done) es))
      (itemsOf e) (fun x _ before done after h => by
        rw [allocValue_eq done (xs ++ done) es h, List.append_assoc]) before [] _ h
    rw [List.map_nil, List.append_nil, List.nil_append] at hstate
    conv_lhs => rw [← map_value_itemsOf e, List.foldl_map]
    exact hstate
  rw [← List.append_assoc] at h
  have hlist := @alloc_role b _ after _ h
  have hcount : ((itemsOf e).map fun x => b.idOf (.vk x)).length = e.2.length := by
    rw [List.length_map, itemsOf, List.length_map, List.length_zipIdx]
  have hbody : List.replicate (e.2.length * 4) 0 = b.initial (.valuesList e.1) := by
    show _ = List.replicate ((b.valuesOf e.1).length * 4) 0
    rw [valuesOf_of_mem he]
  obtain ⟨key, vals⟩ := e
  unfold allocKeyValues Allocator.allocValuesList
  dsimp only at hvalues hcount hbody ⊢
  rw [hvalues]
  dsimp only
  rw [hcount, hbody]
  unfold TestHiveBuilder.valueCells
  dsimp only
  rw [hlist, List.foldl_append, List.foldl_append, List.append_assoc]
  rfl

/-! ## The plan -/

/-- Ids of the keys below the root, by their full paths. -/
def TestHiveBuilder.nkIds (b : TestHiveBuilder) : BTreeMap Str CellId :=
  (order b).foldl (fun m p => m.insert (joinParts p) (b.idOf (.nk p))) ∅

/-- Ids of the indices, by the full paths. -/
def TestHiveBuilder.lhIds (b : TestHiveBuilder) : BTreeMap Str CellId :=
  b.parents.foldl (fun m p => m.insert (joinParts p) (b.idOf (.lh p)))
    (if b.childNames [] ≠ [] then (∅ : BTreeMap Str CellId).insert [] (b.idOf (.lh [])) else ∅)

/-- The roles up to the values. -/
def TestHiveBuilder.rolesToValues (b : TestHiveBuilder) : List Role :=
  [.sk, .root] ++ (order b).map .nk ++ b.entries.flatMap keyRoles

/-- **The plan**, in terms of roles. -/
def TestHiveBuilder.planOf (b : TestHiveBuilder) : Plan where
  tree := b.keyTree
  skId := b.idOf .sk
  rootId := b.idOf .root
  nkIds := b.nkIds
  cells := b.valueCells b.rolesToValues b.items b.entries
  lhIds := b.lhIds
  alloc := b.allocated b.roles

/-- One key below the root. -/
theorem allocNk_eq {before after : List Role} {p : Path} (h : b.roles = before ++ .nk p :: after) :
    (b.allocated before).allocNk (asBytes (p.getLast?.getD [])) false =
      (b.idOf (.nk p), b.allocated (before ++ [.nk p])) := by
  have hbody : Allocator.nkBody (b.allocated before).keyFiletime (asBytes (p.getLast?.getD []))
      false = b.initial (.nk p) := rfl
  unfold Allocator.allocNk
  rw [hbody]
  exact alloc_role h

/-- One index. -/
theorem allocLh_eq {before after : List Role} {p : Path} (h : b.roles = before ++ .lh p :: after) :
    (b.allocated before).allocLh (b.childNames p).length =
      (b.idOf (.lh p), b.allocated (before ++ [.lh p])) := by
  have hbody : Allocator.lhBody (b.childNames p).length = b.initial (.lh p) := rfl
  unfold Allocator.allocLh
  rw [hbody]
  exact alloc_role h

/-- The keys below the root. -/
theorem allocChildren_eq {ε : Type} (h : b.Valid) {n : Nat} (hn : b.depth < n) {after : List Role}
    (hroles : b.roles = [.sk, .root] ++ ((order b).map .nk ++ after)) :
    (allocChildren b.keyTree n b.keyTree.rootChildren [] (b.allocated [.sk, .root], ∅) :
      Exec ε _) = .ok (b.allocated ([.sk, .root] ++ (order b).map .nk), b.nkIds) := by
  unfold allocChildren
  refine (@walkChildren_eq b _ _ _ h _ (fun _ => ())
    (fun (s : Allocator × BTreeMap Str CellId) p =>
    .ok ((s.1.allocNk (asBytes (p.getLast?.getD [])) false).2,
      s.2.insert (joinParts p) (s.1.allocNk (asBytes (p.getLast?.getD [])) false).1))
    (fun p _ s => rfl) n hn _).trans ?_
  refine List.foldlM_pure.trans (congrArg Exec.ok ?_)
  refine @foldl_alloc_one b (Allocator × BTreeMap Str CellId) _ _ _ (fun before done =>
    (b.allocated before, done.foldl (fun m p => m.insert (joinParts p) (b.idOf (.nk p))) ∅))
    _ ?_ _ after hroles
  intro p _ before done after h
  rw [allocNk_eq h, List.foldl_append]
  rfl

/-- The indices below the root. -/
theorem allocLhCells_eq {ε : Type} (h : b.Valid) {n : Nat} (hn : b.depth < n) {before : List Role}
    (m : BTreeMap Str CellId) (hroles : b.roles = before ++ b.parents.map .lh) :
    (allocLhCells b.keyTree n b.keyTree.rootChildren [] (b.allocated before, m) : Exec ε _) =
      .ok (b.allocated b.roles,
        b.parents.foldl (fun m p => m.insert (joinParts p) (b.idOf (.lh p))) m) := by
  unfold allocLhCells
  refine (@walkChildren_eq b _ _ _ h _ (fun _ => ())
    (fun (s : Allocator × BTreeMap Str CellId) p =>
    .ok (if b.childNames p ≠ [] then ((s.1.allocLh (b.childNames p).length).2,
      s.2.insert (joinParts p) (s.1.allocLh (b.childNames p).length).1) else s))
    (fun p _ s => ?_) n hn _).trans ?_
  · dsimp only
    split <;> rfl
  refine List.foldlM_pure.trans (congrArg Exec.ok ?_)
  -- the paths without children allocate nothing
  have hfilter : ∀ s, (order b).foldl (fun (s : Allocator × BTreeMap Str CellId) p =>
      if b.childNames p ≠ [] then ((s.1.allocLh (b.childNames p).length).2,
        s.2.insert (joinParts p) (s.1.allocLh (b.childNames p).length).1) else s) s =
      b.parents.foldl (fun s p => ((s.1.allocLh (b.childNames p).length).2,
        s.2.insert (joinParts p) (s.1.allocLh (b.childNames p).length).1)) s := fun s => by
    unfold TestHiveBuilder.parents
    rw [List.foldl_filter]
    simp only [decide_eq_true_eq]
  rw [hfilter]
  have hroles' : b.roles = before ++ (b.parents.map .lh ++ []) := by
    rw [hroles, List.append_nil]
  rw [hroles]
  refine @foldl_alloc_one b (Allocator × BTreeMap Str CellId) _ _ _ (fun before done =>
    (b.allocated before, done.foldl (fun m p => m.insert (joinParts p) (b.idOf (.lh p))) m))
    _ ?_ _ [] hroles'
  intro p _ before done after h
  rw [allocLh_eq h, List.foldl_append]
  rfl

/-- **The first pass** allocates the cells of the roles, in their order. -/
theorem plan_eq {ε : Type} (h : b.Valid) {n : Nat} (hn : b.depth < n) :
    (b.plan n : Exec ε Plan) = .ok b.planOf := by
  have hroles : b.roles = [.sk, .root] ++ ((order b).map .nk ++ (b.entries.flatMap keyRoles ++
    (b.rootIndex ++ b.parents.map .lh))) := rfl
  -- each allocation adds the role that is next in the list
  have hsk : ({ Allocator.new with keyFiletime := b.keyFiletime } : Allocator).allocSk minimalSd =
      (b.idOf .sk, b.allocated [.sk]) := @alloc_role b [] _ .sk rfl
  have hroot : (b.allocated [.sk]).allocNk rootName true =
      (b.idOf .root, b.allocated [.sk, .root]) := @alloc_role b [.sk] _ .root rfl
  have hchildren := @allocChildren_eq b ε h n hn _ hroles
  have hvalues : b.keyTree.values.toList.foldl allocKeyValues
      ⟨b.allocated ([.sk, .root] ++ (order b).map .nk), ∅, ∅, ∅, []⟩ =
      b.valueCells b.rolesToValues b.items b.entries := by
    refine @foldl_alloc b ValueCells _ _ _ (fun before done =>
      b.valueCells before (done.flatMap itemsOf) done) _ (fun e he before done after h => ?_) _ [] _
      (hroles.trans (List.append_assoc _ _ _).symm)
    rw [allocKeyValues_eq he _ _ h, List.flatMap_append, List.flatMap_singleton]
  have hindex : (if b.keyTree.rootChildren ≠ [] then
      (((b.allocated b.rolesToValues).allocLh b.keyTree.rootChildren.length).2,
        (∅ : BTreeMap Str CellId).insert []
          ((b.allocated b.rolesToValues).allocLh b.keyTree.rootChildren.length).1)
      else (b.allocated b.rolesToValues, ∅)) =
      (b.allocated (b.rolesToValues ++ b.rootIndex),
        if b.childNames [] ≠ [] then (∅ : BTreeMap Str CellId).insert [] (b.idOf (.lh []))
        else ∅) := by
    rw [show b.keyTree.rootChildren = b.childNames [] from rootChildren_eq h]
    -- a root without children has no index cell, and no role for it
    by_cases hkids : b.childNames [] = []
    · rw [if_neg (not_not.mpr hkids), if_neg (not_not.mpr hkids), TestHiveBuilder.rootIndex,
        if_neg (not_not.mpr hkids), List.append_nil]
    · have hroot : b.rootIndex = [.lh []] := if_pos hkids
      have hsplit : b.roles = b.rolesToValues ++ .lh [] :: b.parents.map .lh := by
        rw [hroles, hroot]
        simp [TestHiveBuilder.rolesToValues]
      rw [if_pos hkids, if_pos hkids, allocLh_eq hsplit, hroot]
  have hlhs := @allocLhCells_eq b ε h n hn (b.rolesToValues ++ b.rootIndex)
    (if b.childNames [] ≠ [] then (∅ : BTreeMap Str CellId).insert [] (b.idOf (.lh [])) else ∅)
    (by rw [hroles]; simp [TestHiveBuilder.rolesToValues])
  unfold TestHiveBuilder.plan
  dsimp only
  rw [hsk]
  dsimp only
  rw [hroot]
  dsimp only
  rw [show KeyTree.fromPaths b.keys b.values = b.keyTree from rfl, hchildren, Exec.ok_bind]
  dsimp only
  rw [hvalues, show (b.valueCells b.rolesToValues b.items b.entries).alloc =
    b.allocated b.rolesToValues from rfl, hindex, hlhs, Exec.ok_bind]
  rfl

end Stretches

/-! ## Where the cells are -/

section Places

variable (b : TestHiveBuilder)

/-- The offset of a cell behind the bin header. -/
def TestHiveBuilder.offset (r : Role) : Nat := extent ((b.roles.take (b.idOf r)).map b.initial)

/-- The aligned size of a cell. -/
def TestHiveBuilder.room (r : Role) : Nat := align8 (4 + (b.initial r).length)

/-- The file position of a cell. -/
def TestHiveBuilder.place (r : Role) : Nat := hbinFileStart + hbinDataStart + b.offset r

/-- What other cells refer to a cell by. -/
def TestHiveBuilder.address (r : Role) : UInt32 := UInt32.ofNat (hbinDataStart + b.offset r)

variable {b}

theorem le_align8 (n : Nat) : n ≤ align8 n := by
  unfold align8
  omega

/-- The place of a cell is the sum of the cells before it.  By induction on the bodies, for any
    start. -/
theorem getElem?_layOut : ∀ (xs : List Bytes) (pos k : Nat), (layOut pos xs)[k]? =
    xs[k]?.map fun x => ⟨pos + extent (xs.take k), align8 (4 + x.length), x⟩ := by
  intro xs
  induction xs with
  | nil => intro pos k; rfl
  | cons x xs ih =>
    intro pos k
    cases k with
    | zero => rfl
    | succ k =>
      have hextent : extent ((x :: xs).take (k + 1)) =
          align8 (4 + x.length) + extent (xs.take k) := extent_append [x] (xs.take k)
      rw [layOut, List.getElem?_cons_succ, List.getElem?_cons_succ, ih, hextent, Nat.add_assoc]

/-- The number of a role leads back to the role. -/
theorem getElem?_idOf {r : Role} (hr : r ∈ b.roles) : b.roles[b.idOf r]? = some r := by
  unfold TestHiveBuilder.idOf
  rw [List.getElem?_eq_getElem (List.idxOf_lt_length_of_mem hr), List.getElem_idxOf]

/-- **The cell of a role.** -/
theorem getElem?_cells {r : Role} (hr : r ∈ b.roles) :
    b.planOf.alloc.cells[b.idOf r]? = some ⟨b.offset r, b.room r, b.initial r⟩ := by
  show (layOut 0 (b.roles.map b.initial))[b.idOf r]? = _
  rw [getElem?_layOut, List.getElem?_map, getElem?_idOf hr, Nat.zero_add, ← List.map_take]
  rfl

/-- The planned place of a cell in the file is that of its role. -/
theorem cellFile_eq {ε : Type} {r : Role} (hr : r ∈ b.roles) :
    (b.planOf.cellFile (b.idOf r) : Exec ε Nat) = .ok (b.place r) := by
  unfold Plan.cellFile indexList
  rw [getElem?_cells hr]
  rfl

/-- So is the offset under which other cells name it. -/
theorem cellOffset_eq {ε : Type} {r : Role} (hr : r ∈ b.roles) :
    (b.planOf.cellOffset (b.idOf r) : Exec ε UInt32) = .ok (b.address r) := by
  unfold Plan.cellOffset indexList
  rw [getElem?_cells hr]
  rfl

/-- Different roles have different numbers. -/
theorem idOf_inj {r s : Role} (hr : r ∈ b.roles) (h : b.idOf r = b.idOf s) : r = s :=
  (List.idxOf_inj hr).mp h

/-- A cell ends before the cells behind it begin. -/
theorem offset_add_room_le {r : Role} {k : Nat} (hr : r ∈ b.roles) (h : b.idOf r < k) :
    b.offset r + b.room r ≤ extent ((b.roles.take k).map b.initial) := by
  have hsplit : (b.roles.take k).take (b.idOf r + 1) = b.roles.take (b.idOf r) ++ [r] := by
    rw [List.take_take, Nat.min_eq_left h, List.take_add_one, getElem?_idOf hr]
    rfl
  have hall := List.take_append_drop (b.idOf r + 1) (b.roles.take k)
  rw [hsplit] at hall
  unfold TestHiveBuilder.offset
  rw [← hall, List.map_append, List.map_append, extent_append, extent_append]
  exact Nat.le_add_right _ _

/-- A cell ends inside the allocated space. -/
theorem offset_add_room_le_pos {r : Role} (hr : r ∈ b.roles) :
    b.offset r + b.room r ≤ b.planOf.alloc.pos := by
  have hend := offset_add_room_le hr (List.idxOf_lt_length_of_mem hr)
  rw [List.take_length] at hend
  exact hend

/-- **Two cells do not overlap.** -/
theorem rooms_disjoint {r s : Role} (hr : r ∈ b.roles) (hs : s ∈ b.roles) (hne : r ≠ s) :
    b.offset r + b.room r ≤ b.offset s ∨ b.offset s + b.room s ≤ b.offset r := by
  rcases Nat.lt_trichotomy (b.idOf r) (b.idOf s) with h | h | h
  · exact Or.inl (offset_add_room_le hr h)
  · exact absurd (idOf_inj hr h) hne
  · exact Or.inr (offset_add_room_le hs h)

end Places

/-! ## What the maps hold -/

section Maps

variable {b : TestHiveBuilder}

/-- The string of the root is the string of no other path. -/
theorem joinParts_eq_iff (h : b.Valid) {p q : Path} (hp : p = [] ∨ p ∈ b.closure)
    (hq : q = [] ∨ q ∈ b.closure) : joinParts p = joinParts q ↔ p = q := by
  have hgood : ∀ {p : Path}, p = [] ∨ p ∈ b.closure → GoodPath p := by
    rintro p (rfl | hp)
    · exact fun c hc => absurd hc List.not_mem_nil
    · exact h.goodPath hp
  exact ⟨joinParts_inj (hgood hp) (hgood hq), congrArg joinParts⟩

/-- The plan finds the cell of a key under the joined path. -/
theorem getElem?_nkIds (h : b.Valid) {p : Path} (hp : p ∈ b.closure) :
    b.nkIds[joinParts p]? = some (b.idOf (.nk p)) := by
  unfold TestHiveBuilder.nkIds
  refine BTreeMap.getElem?_insertAll (fun q hq heq => ?_) (Or.inl ⟨p, mem_order.mpr hp, rfl⟩)
  rw [(joinParts_eq_iff h (Or.inr (mem_order.mp hq)) (Or.inr hp)).mp heq]

/-- And the list of its subkeys, where it has any. -/
theorem getElem?_lhIds (h : b.Valid) {p : Path} (hp : p = [] ∨ p ∈ b.closure) :
    b.lhIds[joinParts p]? = if b.childNames p ≠ [] then some (b.idOf (.lh p)) else none := by
  have hparents : ∀ q ∈ b.parents, q ∈ b.closure ∧ b.childNames q ≠ [] := fun q hq =>
    ⟨mem_order.mp (List.mem_filter.mp hq).1, of_decide_eq_true (List.mem_filter.mp hq).2⟩
  unfold TestHiveBuilder.lhIds
  by_cases hkids : b.childNames p = []
  · rw [if_neg (not_not.mpr hkids)]
    have hnone : ∀ q ∈ b.parents, joinParts q ≠ joinParts p := fun q hq heq => by
      have hqp := (joinParts_eq_iff h (Or.inr (hparents q hq).1) hp).mp heq
      exact (hparents q hq).2 (hqp ▸ hkids)
    rw [BTreeMap.getElem?_insertAll_of_not_mem hnone]
    split
    · rename_i hroot
      have hne : ([] : Str) ≠ joinParts p := fun heq =>
        hroot ((joinParts_eq_iff h (Or.inl rfl) hp).mp heq ▸ hkids)
      rw [Std.TreeMap.getElem?_insert, if_neg fun heq =>
        hne (Std.LawfulEqCmp.compare_eq_iff_eq.mp heq)]
      exact Std.TreeMap.getElem?_emptyc
    · exact Std.TreeMap.getElem?_emptyc
  · rw [if_pos hkids]
    refine BTreeMap.getElem?_insertAll (fun q hq heq => ?_) ?_
    · rw [(joinParts_eq_iff h (Or.inr (hparents q hq).1) hp).mp heq]
    · rcases hp with rfl | hp
      · right
        rw [if_pos hkids]
        exact Std.TreeMap.getElem?_insert_self
      · exact Or.inl ⟨p, List.mem_filter.mpr ⟨mem_order.mpr hp, decide_eq_true hkids⟩, rfl⟩

/-- The values that the values map holds for a path. -/
theorem valuesOf_joinParts (h : b.Valid) {p : Path} (hp : p ∈ b.closure) :
    b.valuesOf (joinParts p) = b.valuesAt p := by
  unfold TestHiveBuilder.valuesOf TestHiveBuilder.keyTree
  rw [getElem?_values h hp]
  split
  · rename_i hnil
    rw [hnil, Option.getD_none]
  · rw [Option.getD_some]

section ValueMaps

variable {before : List Role} {xs : List Item}

/-- The `vk` cells of a key. -/
theorem getElem?_vkMap {key : Str} {ids : List CellId} :
    (b.valueCells before xs b.entries).vkMap[key]? = some ids ↔
      ∃ e ∈ b.entries, e.1 = key ∧ ((itemsOf e).map fun x => b.idOf (.vk x)) = ids :=
  BTreeMap.getElem?_insertAll_eq_some_iff fun e he f hf heq => by rw [entry_unique he hf heq]

/-- The values list of a key. -/
theorem getElem?_valuesListIds {e : Str × List TreeValue} (he : e ∈ b.entries) :
    (b.valueCells before xs b.entries).valuesListIds[e.1]? = some (b.idOf (.valuesList e.1)) :=
  BTreeMap.getElem?_insertAll (fun _ _ heq => by rw [heq]) (Or.inl ⟨e, he, rfl⟩)

/-- The data cells of the values that are not resident. -/
theorem getElem?_dataCellIds {vkId dataId : CellId} {es : List (Str × List TreeValue)} :
    (b.valueCells before b.items es).dataCellIds[vkId]? = some dataId ↔
      ∃ x ∈ b.items, ¬ x.IsResident ∧ b.idOf (.vk x) = vkId ∧ b.idOf x.dataHead = dataId := by
  have hinj : ∀ x ∈ b.items.filter fun x => ¬ x.IsResident,
      ∀ y ∈ b.items.filter fun x => ¬ x.IsResident, b.idOf (.vk x) = b.idOf (.vk y) →
        b.idOf x.dataHead = b.idOf y.dataHead := by
    intro x hx y _ heq
    have hmem : Role.vk x ∈ b.roles :=
      mem_roles.mpr (show x ∈ b.items from (List.mem_filter.mp hx).1)
    rw [Role.vk.inj (idOf_inj hmem heq)]
  refine (BTreeMap.getElem?_insertAll_eq_some_iff hinj).trans (exists_congr fun x => ?_)
  rw [List.mem_filter, decide_eq_true_eq, and_assoc]

end ValueMaps

end Maps

end Winreg.TestUtil
