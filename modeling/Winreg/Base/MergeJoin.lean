/-
  MERGE JOIN: two sorted lists walked side by side.

  `mergeJoin` is the loop with two indices: it compares the keys under the indices, hands a matching
  pair to `onBoth` and an element without a counterpart to `onLeft` or `onRight`, and hands over
  what is left of the longer list at the end.

  1. **Program** — `mergeJoin`, over calls that can fail.
  2. **Specification** — `align` is the list of the pairs and single elements in the order in which
     they are handed over; `mergeJoin_eq` says that the loop is the fold over it.
  3. **What is aligned** — every element of either list occurs once (`filterMap_left_align`,
     `filterMap_right_align`); pairs have equal keys (`align_both`); over strictly sorted lists an
     element of the left list handed over alone has no counterpart (`align_left`).
  4. **Sorting** — `sortByKey` is the stable sort by key; without repeated keys it is strict.
  5. **Joining unsorted lists** — `joinByKey` sorts both lists and aligns them.  Without repeated
     keys it pairs exactly the elements of equal keys (`both_mem_joinByKey`) and leaves alone
     exactly those without a counterpart (`left_mem_joinByKey`, `right_mem_joinByKey`).
-/
import Winreg.Base.Exec
import Mathlib.Data.List.Forall2
import Mathlib.Data.List.Nodup

namespace Rust

open Exec

variable {ε σ α β κ : Type} [Ord κ]

/-! ## Program -/

/-- What to do with a matching pair and with elements of one side. -/
structure Handlers (ε σ α β : Type) where
  onBoth : σ → α → β → Exec ε σ
  onLeft : σ → α → Exec ε σ
  onRight : σ → β → Exec ε σ

/-- The two indices and the state of the handlers. -/
structure JoinState (σ : Type) where
  li : Nat
  ri : Nat
  acc : σ

/-- One pass of the loop. -/
def joinPass (keyL : α → κ) (keyR : β → κ) (h : Handlers ε σ α β) (ls : List α) (rs : List β)
    (s : JoinState σ) : Exec ε (Pass (JoinState σ) (JoinState σ)) :=
  match ls[s.li]?, rs[s.ri]? with
  | some l, some r =>
    match compare (keyL l) (keyR r) with
    | .eq => do
      let acc ← h.onBoth s.acc l r
      .ok (.again ⟨s.li + 1, s.ri + 1, acc⟩)
    | .lt => do
      let acc ← h.onLeft s.acc l
      .ok (.again ⟨s.li + 1, s.ri, acc⟩)
    | .gt => do
      let acc ← h.onRight s.acc r
      .ok (.again ⟨s.li, s.ri + 1, acc⟩)
  | _, _ => .ok (.leave s)

/-- The loop, and what is left of either list after it.  Every pass advances an index, so the
    lengths bound the number of passes. -/
def mergeJoin (keyL : α → κ) (keyR : β → κ) (h : Handlers ε σ α β) (ls : List α) (rs : List β)
    (acc : σ) : Exec ε σ := do
  let s ← loop (joinPass keyL keyR h ls rs) (ls.length + rs.length + 1) ⟨0, 0, acc⟩
  let acc ← (ls.drop s.li).foldlM h.onLeft s.acc
  (rs.drop s.ri).foldlM h.onRight acc

/-! ## Specification -/

/-- A matching pair, or an element of one side. -/
inductive Aligned (α β : Type) where
  | both (l : α) (r : β)
  | left (l : α)
  | right (r : β)

/-- The pairs and single elements in the order of the walk. -/
def align (keyL : α → κ) (keyR : β → κ) : List α → List β → List (Aligned α β)
  | [], rs => rs.map .right
  | ls, [] => ls.map .left
  | l :: ls, r :: rs =>
    match compare (keyL l) (keyR r) with
    | .eq => .both l r :: align keyL keyR ls rs
    | .lt => .left l :: align keyL keyR ls (r :: rs)
    | .gt => .right r :: align keyL keyR (l :: ls) rs
termination_by ls rs => ls.length + rs.length

/-- What is done with an aligned pair or element. -/
def Handlers.run (h : Handlers ε σ α β) (s : σ) : Aligned α β → Exec ε σ
  | .both l r => h.onBoth s l r
  | .left l => h.onLeft s l
  | .right r => h.onRight s r

variable {keyL : α → κ} {keyR : β → κ}

/-- When the left list is through, the rest of the right one stands alone. -/
@[simp] theorem align_nil_left (rs : List β) : align keyL keyR [] rs = rs.map .right := by
  rw [align]

/-- And the other way round. -/
@[simp] theorem align_nil_right (ls : List α) : align keyL keyR ls [] = ls.map .left := by
  cases ls with
  | nil => rw [align]; rfl
  | cons l ls => rw [align]; simp

/-- A run of lone right elements is handled by their handler alone. -/
theorem foldlM_run_right (h : Handlers ε σ α β) (rs : List β) (s : σ) :
    (rs.map Aligned.right).foldlM h.run s = rs.foldlM h.onRight s := by
  rw [List.foldlM_map]; rfl

/-- A run of lone left elements by theirs. -/
theorem foldlM_run_left (h : Handlers ε σ α β) (ls : List α) (s : σ) :
    (ls.map Aligned.left).foldlM h.run s = ls.foldlM h.onLeft s := by
  rw [List.foldlM_map]; rfl

/-- The rest of the loop from a pair of indices, with the two tails after it. -/
theorem loop_joinPass (keyL : α → κ) (keyR : β → κ) (h : Handlers ε σ α β) (ls : List α)
    (rs : List β) :
    ∀ (n li ri : Nat) (acc : σ), (ls.length - li) + (rs.length - ri) < n →
      (loop (joinPass keyL keyR h ls rs) n ⟨li, ri, acc⟩ >>= fun s =>
        (ls.drop s.li).foldlM h.onLeft s.acc >>= fun acc =>
          (rs.drop s.ri).foldlM h.onRight acc) =
        (align keyL keyR (ls.drop li) (rs.drop ri)).foldlM h.run acc := by
  intro n
  induction n with
  | zero => intro li ri acc hn; exact absurd hn (Nat.not_lt_zero _)
  | succ n ih =>
    intro li ri acc hn
    rcases Nat.lt_or_ge li ls.length with hl | hl
    · rcases Nat.lt_or_ge ri rs.length with hr | hr
      · -- both indices are in range: compare
        have hgl : ls[li]? = some ls[li] := List.getElem?_eq_getElem hl
        have hgr : rs[ri]? = some rs[ri] := List.getElem?_eq_getElem hr
        have hdl : ls.drop li = ls[li] :: ls.drop (li + 1) := List.drop_eq_getElem_cons hl
        have hdr : rs.drop ri = rs[ri] :: rs.drop (ri + 1) := List.drop_eq_getElem_cons hr
        rw [loop, joinPass]
        dsimp only
        rw [hgl, hgr, hdl, hdr, align]
        cases hcmp : compare (keyL ls[li]) (keyR rs[ri]) with
        | eq =>
          simp only [hcmp, bind_assoc, ok_bind, List.foldlM_cons, Handlers.run]
          exact congrArg _ (funext fun acc' => ih (li + 1) (ri + 1) acc' (by omega))
        | lt =>
          simp only [hcmp, bind_assoc, ok_bind, List.foldlM_cons, Handlers.run]
          refine congrArg _ (funext fun acc' => ?_)
          rw [ih (li + 1) ri acc' (by omega), hdr]
        | gt =>
          simp only [hcmp, bind_assoc, ok_bind, List.foldlM_cons, Handlers.run]
          refine congrArg _ (funext fun acc' => ?_)
          rw [ih li (ri + 1) acc' (by omega), hdl]
      · -- one list is at its end, and its tail is empty
        have hpass : joinPass keyL keyR h ls rs ⟨li, ri, acc⟩ = .ok (.leave ⟨li, ri, acc⟩) := by
          rw [joinPass]
          dsimp only
          rw [List.getElem?_eq_none hr]
          cases ls[li]? <;> rfl
        rw [loop_leave hpass, ok_bind, List.drop_eq_nil_of_le hr, align_nil_right,
          foldlM_run_left]
        exact bind_pure _
    · have hpass : joinPass keyL keyR h ls rs ⟨li, ri, acc⟩ = .ok (.leave ⟨li, ri, acc⟩) := by
        rw [joinPass]
        dsimp only
        rw [List.getElem?_eq_none hl]
      rw [loop_leave hpass, ok_bind, List.drop_eq_nil_of_le hl, align_nil_left,
        foldlM_run_right]
      rfl

/-- **The merge join is the fold over the alignment.** -/
theorem mergeJoin_eq (h : Handlers ε σ α β) (ls : List α) (rs : List β) (acc : σ) :
    mergeJoin keyL keyR h ls rs acc = (align keyL keyR ls rs).foldlM h.run acc := by
  have hloop := loop_joinPass keyL keyR h ls rs (ls.length + rs.length + 1) 0 0 acc (by omega)
  rw [List.drop_zero, List.drop_zero] at hloop
  exact hloop

/-! ## What is aligned -/

/-- The element of the left list in an aligned pair or element. -/
def Aligned.left? : Aligned α β → Option α
  | .both l _ => some l
  | .left l => some l
  | .right _ => none

/-- The element of the right list in an aligned pair or element. -/
def Aligned.right? : Aligned α β → Option β
  | .both _ r => some r
  | .left _ => none
  | .right r => some r

/-- The same pair or element with the sides exchanged. -/
def Aligned.swap : Aligned α β → Aligned β α
  | .both l r => .both r l
  | .left l => .right l
  | .right r => .left r

/-- One step of the merge: the smaller head goes first, and equal heads go together. -/
theorem align_cons_cons (l : α) (ls : List α) (r : β) (rs : List β) :
    align keyL keyR (l :: ls) (r :: rs) =
      match compare (keyL l) (keyR r) with
      | .eq => .both l r :: align keyL keyR ls rs
      | .lt => .left l :: align keyL keyR ls (r :: rs)
      | .gt => .right r :: align keyL keyR (l :: ls) rs := by
  rw [align]

/-- **Every element of the left list is handed over once**, in order. -/
theorem filterMap_left_align (keyL : α → κ) (keyR : β → κ) (ls : List α) (rs : List β) :
    (align keyL keyR ls rs).filterMap Aligned.left? = ls := by
  induction ls, rs using align.induct keyL keyR with
  | case1 rs => simp [List.filterMap_map, Function.comp_def, Aligned.left?]
  | case2 ls _ => simp [List.filterMap_map, Function.comp_def, Aligned.left?]
  | case3 l ls r rs hcmp ih =>
    rw [align_cons_cons, hcmp]
    exact congrArg (l :: ·) ih
  | case4 l ls r rs hcmp ih =>
    rw [align_cons_cons, hcmp]
    exact congrArg (l :: ·) ih
  | case5 l ls r rs hcmp ih =>
    rw [align_cons_cons, hcmp]
    exact ih

/-- A pair is handed over with equal keys. -/
theorem align_both {ls : List α} {rs : List β} {l : α} {r : β}
    (h : .both l r ∈ align keyL keyR ls rs) : compare (keyL l) (keyR r) = .eq := by
  induction ls, rs using align.induct keyL keyR with
  | case1 rs => simp at h
  | case2 ls _ => simp at h
  | case3 l' ls r' rs hcmp ih =>
    rw [align_cons_cons, hcmp] at h
    rcases List.mem_cons.mp h with heq | h
    · cases heq; exact hcmp
    · exact ih h
  | case4 l' ls r' rs hcmp ih =>
    rw [align_cons_cons, hcmp] at h
    rcases List.mem_cons.mp h with heq | h
    · cases heq
    · exact ih h
  | case5 l' ls r' rs hcmp ih =>
    rw [align_cons_cons, hcmp] at h
    rcases List.mem_cons.mp h with heq | h
    · cases heq
    · exact ih h

section Ordered

variable [Std.TransOrd κ]

/-- Exchanging the lists exchanges the sides. -/
theorem align_swap (ls : List α) (rs : List β) :
    align keyR keyL rs ls = (align keyL keyR ls rs).map Aligned.swap := by
  induction ls, rs using align.induct keyL keyR with
  | case1 rs => simp [Function.comp_def, Aligned.swap]
  | case2 ls _ => simp [Function.comp_def, Aligned.swap]
  | case3 l ls r rs hcmp ih =>
    rw [align_cons_cons, align_cons_cons, hcmp, Std.OrientedCmp.eq_comm.mp hcmp]
    exact congrArg _ ih
  | case4 l ls r rs hcmp ih =>
    rw [align_cons_cons, align_cons_cons, hcmp, Std.OrientedCmp.gt_of_lt hcmp]
    exact congrArg _ ih
  | case5 l ls r rs hcmp ih =>
    rw [align_cons_cons, align_cons_cons, hcmp, Std.OrientedCmp.lt_of_gt hcmp]
    exact congrArg _ ih

/-- **Every element of the right list is handed over once**, in order. -/
theorem filterMap_right_align (keyL : α → κ) (keyR : β → κ) (ls : List α) (rs : List β) :
    (align keyL keyR ls rs).filterMap Aligned.right? = rs := by
  have h := filterMap_left_align keyR keyL rs ls
  rw [align_swap, List.filterMap_map] at h
  refine Eq.trans (List.filterMap_congr fun x _ => ?_) h
  cases x <;> rfl

/-- Every side of an aligned pair comes from its list. -/
theorem mem_of_align {ls : List α} {rs : List β} {x : Aligned α β}
    (h : x ∈ align keyL keyR ls rs) :
    (∀ l, x.left? = some l → l ∈ ls) ∧ ∀ r, x.right? = some r → r ∈ rs := by
  refine ⟨fun l hl => ?_, fun r hr => ?_⟩
  · rw [← filterMap_left_align keyL keyR ls rs]
    exact List.mem_filterMap.mpr ⟨x, h, hl⟩
  · rw [← filterMap_right_align keyL keyR ls rs]
    exact List.mem_filterMap.mpr ⟨x, h, hr⟩

/-- The list is strictly sorted by key. -/
def StrictlySorted {γ : Type} (key : γ → κ) (xs : List γ) : Prop :=
  xs.Pairwise fun a b => compare (key a) (key b) = .lt

/-- **An element of the left list that is handed over alone has no counterpart.** -/
theorem align_left {ls : List α} {rs : List β} (hl : StrictlySorted keyL ls)
    (hr : StrictlySorted keyR rs) {l : α} (h : .left l ∈ align keyL keyR ls rs) :
    ∀ r ∈ rs, compare (keyL l) (keyR r) ≠ .eq := by
  induction ls, rs using align.induct keyL keyR with
  | case1 rs => simp at h
  | case2 ls _ => exact fun r hr => absurd hr List.not_mem_nil
  | case3 l' ls r' rs hcmp ih =>
    rw [align_cons_cons, hcmp] at h
    obtain ⟨hl', hls⟩ := List.pairwise_cons.mp hl
    obtain ⟨_, hrs⟩ := List.pairwise_cons.mp hr
    rcases List.mem_cons.mp h with heq | h
    · cases heq
    have hmem : l ∈ ls := (mem_of_align h).1 l rfl
    refine List.forall_mem_cons.mpr ⟨fun heq => ?_, ih hls hrs h⟩
    -- `l` comes after the head, whose key is that of `r'`
    have hlt := hl' l hmem
    rw [Std.TransCmp.congr_right heq, hcmp] at hlt
    cases hlt
  | case4 l' ls r' rs hcmp ih =>
    rw [align_cons_cons, hcmp] at h
    obtain ⟨_, hls⟩ := List.pairwise_cons.mp hl
    rcases List.mem_cons.mp h with heq | h
    · cases heq
      obtain ⟨hr', _⟩ := List.pairwise_cons.mp hr
      refine List.forall_mem_cons.mpr ⟨by rw [hcmp]; simp, fun r hmem => ?_⟩
      rw [Std.TransCmp.lt_trans hcmp (hr' r hmem)]; simp
    · exact ih hls hr h
  | case5 l' ls r' rs hcmp ih =>
    rw [align_cons_cons, hcmp] at h
    obtain ⟨_, hrs⟩ := List.pairwise_cons.mp hr
    rcases List.mem_cons.mp h with heq | h
    · cases heq
    have hmem : l ∈ l' :: ls := (mem_of_align h).1 l rfl
    refine List.forall_mem_cons.mpr ⟨fun heq => ?_, ih hl hrs h⟩
    have hlt : compare (keyR r') (keyL l') = .lt := Std.OrientedCmp.lt_of_gt hcmp
    rcases List.mem_cons.mp hmem with rfl | hmem
    · rw [Std.OrientedCmp.eq_comm.mp heq] at hlt; cases hlt
    · have := Std.TransCmp.lt_trans hlt ((List.pairwise_cons.mp hl).1 l hmem)
      rw [Std.OrientedCmp.eq_comm.mp heq] at this; cases this

/-- The key of a pair or of a single element. -/
def Aligned.key (keyL : α → κ) (keyR : β → κ) : Aligned α β → κ
  | .both l _ => keyL l
  | .left l => keyL l
  | .right r => keyR r

/-- What is handed over has the key of an element of one of the lists. -/
theorem key_of_align {ls : List α} {rs : List β} {x : Aligned α β}
    (h : x ∈ align keyL keyR ls rs) :
    (∃ l ∈ ls, x.key keyL keyR = keyL l) ∨ ∃ r ∈ rs, x.key keyL keyR = keyR r := by
  obtain ⟨hl, hr⟩ := mem_of_align h
  cases x with
  | both l r => exact Or.inl ⟨l, hl l rfl, rfl⟩
  | left l => exact Or.inl ⟨l, hl l rfl, rfl⟩
  | right r => exact Or.inr ⟨r, hr r rfl, rfl⟩

/-- **The walk hands over its elements in strict order**, if both lists are in strict order. -/
theorem strictlySorted_align {ls : List α} {rs : List β} (hl : StrictlySorted keyL ls)
    (hr : StrictlySorted keyR rs) :
    StrictlySorted (Aligned.key keyL keyR) (align keyL keyR ls rs) := by
  induction ls, rs using align.induct keyL keyR with
  | case1 rs =>
    rw [align_nil_left]
    exact List.pairwise_map.mpr hr
  | case2 ls _ =>
    rw [align_nil_right]
    exact List.pairwise_map.mpr hl
  -- equal heads go together, and are below both rests
  | case3 l ls r rs hcmp ih =>
    rw [align_cons_cons, hcmp]
    obtain ⟨hl', hls⟩ := List.pairwise_cons.mp hl
    obtain ⟨hr', hrs⟩ := List.pairwise_cons.mp hr
    refine List.pairwise_cons.mpr ⟨fun x hx => ?_, ih hls hrs⟩
    rcases key_of_align hx with ⟨l', hmem, hkey⟩ | ⟨r', hmem, hkey⟩
    · rw [hkey]
      exact hl' l' hmem
    · rw [hkey]
      exact (Std.TransCmp.congr_left hcmp).trans (hr' r' hmem)
  -- the left head is smaller: it is below its own rest and, through the right head, below the right
  -- list
  | case4 l ls r rs hcmp ih =>
    rw [align_cons_cons, hcmp]
    obtain ⟨hl', hls⟩ := List.pairwise_cons.mp hl
    refine List.pairwise_cons.mpr ⟨fun x hx => ?_, ih hls hr⟩
    rcases key_of_align hx with ⟨l', hmem, hkey⟩ | ⟨r', hmem, hkey⟩
    · rw [hkey]
      exact hl' l' hmem
    · rw [hkey]
      rcases List.mem_cons.mp hmem with rfl | hmem
      · exact hcmp
      · exact Std.TransCmp.lt_trans hcmp ((List.pairwise_cons.mp hr).1 r' hmem)
  -- and the other way round
  | case5 l ls r rs hcmp ih =>
    rw [align_cons_cons, hcmp]
    obtain ⟨hr', hrs⟩ := List.pairwise_cons.mp hr
    have hlt : compare (keyR r) (keyL l) = .lt := Std.OrientedCmp.lt_of_gt hcmp
    refine List.pairwise_cons.mpr ⟨fun x hx => ?_, ih hl hrs⟩
    rcases key_of_align hx with ⟨l', hmem, hkey⟩ | ⟨r', hmem, hkey⟩
    · rw [hkey]
      rcases List.mem_cons.mp hmem with rfl | hmem
      · exact hlt
      · exact Std.TransCmp.lt_trans hlt ((List.pairwise_cons.mp hl).1 l' hmem)
    · rw [hkey]
      exact hr' r' hmem

/-- In a strictly sorted list, what holds of all elements in order holds of all elements whose keys
    are in order. -/
theorem StrictlySorted.pairwise_iff {γ : Type} {key : γ → κ} {R : γ → γ → Prop} {xs : List γ}
    (h : StrictlySorted key xs) :
    xs.Pairwise R ↔ ∀ a ∈ xs, ∀ b ∈ xs, compare (key a) (key b) = .lt → R a b := by
  induction xs with
  | nil => simp
  | cons x xs ih =>
    obtain ⟨hx, hxs⟩ := List.pairwise_cons.mp h
    rw [List.pairwise_cons, ih hxs]
    constructor
    · rintro ⟨hfirst, hrest⟩ a ha b hb hlt
      rcases List.mem_cons.mp ha with rfl | ha' <;> rcases List.mem_cons.mp hb with rfl | hb'
      · rw [Std.compare_self] at hlt
        cases hlt
      · exact hfirst b hb'
      · rw [Std.OrientedCmp.gt_of_lt (hx a ha')] at hlt
        cases hlt
      · exact hrest a ha' b hb' hlt
    · exact fun hall => ⟨fun b hb =>
        hall x List.mem_cons_self b (List.mem_cons_of_mem x hb) (hx b hb),
        fun a ha b hb => hall a (List.mem_cons_of_mem x ha) b (List.mem_cons_of_mem x hb)⟩

end Ordered

/-! ## Sorting -/

/-- `xs.sort_by(|a, b| key(a).cmp(&key(b)))`: the stable sort by key. -/
def sortByKey {γ : Type} (key : γ → κ) (xs : List γ) : List γ :=
  xs.mergeSort fun a b => (compare (key a) (key b)).isLE

section Sorting

variable {γ : Type} {key : γ → κ}

/-- Sorting keeps the elements. -/
theorem sortByKey_perm (xs : List γ) : (sortByKey key xs).Perm xs := List.mergeSort_perm xs _

/-- In particular their membership. -/
@[simp] theorem mem_sortByKey {xs : List γ} {x : γ} : x ∈ sortByKey key xs ↔ x ∈ xs :=
  (sortByKey_perm xs).mem_iff

variable [Std.TransOrd κ] [Std.LawfulEqOrd κ]

/-- **Without repeated keys the sort is strict.** -/
theorem strictlySorted_sortByKey {xs : List γ} (h : (xs.map key).Nodup) :
    StrictlySorted key (sortByKey key xs) := by
  have hle : (sortByKey key xs).Pairwise fun a b => (compare (key a) (key b)).isLE = true :=
    List.pairwise_mergeSort (fun a b c => Std.TransCmp.isLE_trans)
      (fun a b => by
        rcases hab : compare (key a) (key b) with _ | _ | _
        · simp
        · simp
        · simp [Std.OrientedCmp.lt_of_gt hab]) xs
  have hnd : (sortByKey key xs).Pairwise fun a b => key a ≠ key b :=
    List.pairwise_map.mp (((sortByKey_perm xs).map key).nodup_iff.mpr h)
  refine (hle.and hnd).imp fun {a b} hab => ?_
  rcases hcmp : compare (key a) (key b) with _ | _ | _
  · rfl
  · exact absurd (Std.LawfulEqCmp.eq_of_compare hcmp) hab.2
  · have := hab.1; rw [hcmp] at this; cases this

/-- Reordering a list without repeated keys does not change its sort. -/
theorem sortByKey_eq_of_perm {xs ys : List γ} (hp : xs.Perm ys) (h : (xs.map key).Nodup) :
    sortByKey key xs = sortByKey key ys := by
  have hys : (ys.map key).Nodup := (hp.map key).nodup_iff.mp h
  refine ((sortByKey_perm xs).trans (hp.trans (sortByKey_perm ys).symm)).eq_of_pairwise ?_
    (strictlySorted_sortByKey h) (strictlySorted_sortByKey hys)
  intro a b _ _ hab hba
  rw [Std.OrientedCmp.gt_of_lt hba] at hab; cases hab

end Sorting

/-! ## Lookup -/

section Lookup

variable {γ ι : Type} [DecidableEq ι] {key : γ → ι} {xs : List γ}

/-- The first element with the given key. -/
def findByKey (key : γ → ι) (xs : List γ) (k : ι) : Option γ := xs.find? fun x => key x = k

/-- Nothing is found exactly when no element has the key. -/
theorem findByKey_eq_none {k : ι} : findByKey key xs k = none ↔ ∀ x ∈ xs, key x ≠ k := by
  simp [findByKey]

/-- Without repeated keys the element found is the one with the key. -/
theorem findByKey_eq_some (h : (xs.map key).Nodup) {k : ι} {x : γ} :
    findByKey key xs k = some x ↔ x ∈ xs ∧ key x = k := by
  constructor
  · intro hfind
    exact ⟨List.mem_of_find?_eq_some hfind, by simpa using List.find?_some hfind⟩
  · rintro ⟨hx, hkey⟩
    cases hfind : findByKey key xs k with
    | none => exact absurd hkey (findByKey_eq_none.mp hfind x hx)
    | some y =>
      have hy : key y = k := by simpa using List.find?_some hfind
      rw [List.inj_on_of_nodup_map h (List.mem_of_find?_eq_some hfind) hx (hy.trans hkey.symm)]

end Lookup

/-! ## Joining unsorted lists -/

/-- The same pair or element with functions applied to the sides. -/
def Aligned.map {α' β' : Type} (f : α → α') (g : β → β') : Aligned α β → Aligned α' β'
  | .both l r => .both (f l) (g r)
  | .left l => .left (f l)
  | .right r => .right (g r)

/-- Sort both lists and align them. -/
def joinByKey (keyL : α → κ) (keyR : β → κ) (xs : List α) (ys : List β) : List (Aligned α β) :=
  align keyL keyR (sortByKey keyL xs) (sortByKey keyR ys)

/-- Merging two sorted lists is handling their alignment, pair by pair. -/
theorem mergeJoin_sorted (h : Handlers ε σ α β) (xs : List α) (ys : List β) (acc : σ) :
    mergeJoin keyL keyR h (sortByKey keyL xs) (sortByKey keyR ys) acc =
      (joinByKey keyL keyR xs ys).foldlM h.run acc :=
  mergeJoin_eq h _ _ acc

section Map

variable {α' β' : Type} {f : α → α'} {g : β → β'} {keyL : α' → κ} {keyR : β' → κ}

/-- Sorting commutes with a map that carries the keys along. -/
theorem sortByKey_map (xs : List α) :
    sortByKey keyL (xs.map f) = (sortByKey (keyL ∘ f) xs).map f := by
  unfold sortByKey
  exact (List.map_mergeSort (f := f) fun _ _ _ _ => rfl).symm

/-- So does aligning. -/
theorem align_map (xs : List α) (ys : List β) :
    align keyL keyR (xs.map f) (ys.map g) =
      (align (keyL ∘ f) (keyR ∘ g) xs ys).map (Aligned.map f g) := by
  induction xs, ys using align.induct (keyL ∘ f) (keyR ∘ g) with
  | case1 ys => simp [Function.comp_def, Aligned.map]
  | case2 xs _ => simp [Function.comp_def, Aligned.map]
  | case3 x xs y ys hcmp ih =>
    have hcmp' : compare (keyL (f x)) (keyR (g y)) = .eq := hcmp
    rw [align_cons_cons, hcmp, List.map_cons, List.map_cons, align_cons_cons, hcmp']
    exact congrArg _ ih
  | case4 x xs y ys hcmp ih =>
    have hcmp' : compare (keyL (f x)) (keyR (g y)) = .lt := hcmp
    rw [align_cons_cons, hcmp, List.map_cons, List.map_cons, align_cons_cons, hcmp']
    exact congrArg _ ih
  | case5 x xs y ys hcmp ih =>
    have hcmp' : compare (keyL (f x)) (keyR (g y)) = .gt := hcmp
    rw [align_cons_cons, hcmp, List.map_cons, List.map_cons, align_cons_cons, hcmp']
    exact congrArg _ ih

/-- **Joining reads an element only through its key.** -/
theorem joinByKey_map (xs : List α) (ys : List β) :
    joinByKey keyL keyR (xs.map f) (ys.map g) =
      (joinByKey (keyL ∘ f) (keyR ∘ g) xs ys).map (Aligned.map f g) := by
  unfold joinByKey
  rw [sortByKey_map, sortByKey_map, align_map]

end Map

/-- The left elements of the join are the left list. -/
theorem filterMap_left_joinByKey (xs : List α) (ys : List β) :
    ((joinByKey keyL keyR xs ys).filterMap Aligned.left?).Perm xs := by
  unfold joinByKey
  rw [filterMap_left_align]
  exact sortByKey_perm xs

/-- A list of pairs and single elements does not repeat when neither of its sides does. -/
theorem nodup_of_sides : ∀ {xs : List (Aligned α β)}, (xs.filterMap Aligned.left?).Nodup →
    (xs.filterMap Aligned.right?).Nodup → xs.Nodup
  | [], _, _ => .nil
  | x :: xs, hl, hr => by
    refine List.nodup_cons.mpr ⟨fun hx => ?_, nodup_of_sides ?_ ?_⟩
    · cases x with
      | both l r => exact (List.nodup_cons.mp hl).1 (List.mem_filterMap.mpr ⟨_, hx, rfl⟩)
      | left l => exact (List.nodup_cons.mp hl).1 (List.mem_filterMap.mpr ⟨_, hx, rfl⟩)
      | right r => exact (List.nodup_cons.mp hr).1 (List.mem_filterMap.mpr ⟨_, hx, rfl⟩)
    · exact hl.sublist ((List.sublist_cons_self x xs).filterMap Aligned.left?)
    · exact hr.sublist ((List.sublist_cons_self x xs).filterMap Aligned.right?)

/-- Two pairs or elements of the same side, related side by side. -/
inductive Aligned.Rel {α' β' : Type} (R : α → α' → Prop) (S : β → β' → Prop) :
    Aligned α β → Aligned α' β' → Prop where
  | both {l : α} {l' : α'} {r : β} {r' : β'} (hl : R l l') (hr : S r r') :
      Rel R S (.both l r) (.both l' r')
  | left {l : α} {l' : α'} (hl : R l l') : Rel R S (.left l) (.left l')
  | right {r : β} {r' : β'} (hr : S r r') : Rel R S (.right r) (.right r')

/-- Lists related element by element are the two projections of one list of pairs. -/
theorem exists_pairs_of_forall₂ {α' : Type} {R : α → α' → Prop} {xs : List α} {xs' : List α'}
    (h : List.Forall₂ R xs xs') :
    ∃ ps : List { p : α × α' // R p.1 p.2 }, ps.map (·.1.1) = xs ∧ ps.map (·.1.2) = xs' := by
  induction h with
  | nil => exact ⟨[], rfl, rfl⟩
  | cons hx _ ih =>
    obtain ⟨ps, rfl, rfl⟩ := ih
    exact ⟨⟨(_, _), hx⟩ :: ps, rfl, rfl⟩

/-- **Related lists with equal keys have related joins.** -/
theorem joinByKey_rel {α' β' : Type} {R : α → α' → Prop} {S : β → β' → Prop} {keyL : α → κ}
    {keyR : β → κ} {keyL' : α' → κ} {keyR' : β' → κ} (hkL : ∀ a a', R a a' → keyL a = keyL' a')
    (hkR : ∀ b b', S b b' → keyR b = keyR' b') {xs : List α} {xs' : List α'} {ys : List β}
    {ys' : List β'} (hxs : List.Forall₂ R xs xs') (hys : List.Forall₂ S ys ys') :
    List.Forall₂ (Aligned.Rel R S) (joinByKey keyL keyR xs ys) (joinByKey keyL' keyR' xs' ys') := by
  obtain ⟨ps, rfl, rfl⟩ := exists_pairs_of_forall₂ hxs
  obtain ⟨qs, rfl, rfl⟩ := exists_pairs_of_forall₂ hys
  have hL : keyL ∘ (fun p : { p : α × α' // R p.1 p.2 } => p.1.1) = keyL' ∘ fun p => p.1.2 :=
    funext fun p => hkL _ _ p.2
  have hR : keyR ∘ (fun p : { p : β × β' // S p.1 p.2 } => p.1.1) = keyR' ∘ fun p => p.1.2 :=
    funext fun p => hkR _ _ p.2
  rw [joinByKey_map, joinByKey_map, hL, hR, List.forall₂_map_left_iff,
    List.forall₂_map_right_iff, List.forall₂_same]
  intro x _
  cases x with
  | both p q => exact .both p.2 q.2
  | left p => exact .left p.2
  | right q => exact .right q.2

section Members

variable [Std.TransOrd κ] {xs : List α} {ys : List β}

/-- The right elements of the join are the right list. -/
theorem filterMap_right_joinByKey (xs : List α) (ys : List β) :
    ((joinByKey keyL keyR xs ys).filterMap Aligned.right?).Perm ys := by
  unfold joinByKey
  rw [filterMap_right_align]
  exact sortByKey_perm ys

/-- What is collected from the right elements of the join is collected from the right list. -/
theorem flatMap_right_joinByKey {δ : Type} (g : β → List δ) (xs : List α) (ys : List β) :
    ((joinByKey keyL keyR xs ys).flatMap fun x => x.right?.elim [] g).Perm (ys.flatMap g) := by
  have hright : ((joinByKey keyL keyR xs ys).filterMap Aligned.right?).Perm ys :=
    filterMap_right_joinByKey xs ys
  have h := hright.flatMap_right g
  rw [List.filterMap_eq_flatMap_toList, List.flatMap_assoc] at h
  have helim : (fun x : Aligned α β => x.right?.toList.flatMap g) = fun x => x.right?.elim [] g :=
    funext fun x => by cases x <;> simp [Aligned.right?]
  rw [helim] at h
  exact h

/-- Exchanging the lists exchanges the sides of their join. -/
theorem joinByKey_swap (xs : List α) (ys : List β) :
    joinByKey keyR keyL ys xs = (joinByKey keyL keyR xs ys).map Aligned.swap :=
  align_swap _ _

/-- Every side of a joined pair comes from its list. -/
theorem mem_of_joinByKey {x : Aligned α β} (h : x ∈ joinByKey keyL keyR xs ys) :
    (∀ l, x.left? = some l → l ∈ xs) ∧ ∀ r, x.right? = some r → r ∈ ys :=
  ⟨fun l hl => mem_sortByKey.mp ((mem_of_align h).1 l hl),
    fun r hr => mem_sortByKey.mp ((mem_of_align h).2 r hr)⟩

variable [Std.LawfulEqOrd κ]

/-- An element is left alone on the left exactly when it has no counterpart. -/
theorem left_mem_joinByKey (hxs : (xs.map keyL).Nodup) (hys : (ys.map keyR).Nodup) {x : α} :
    .left x ∈ joinByKey keyL keyR xs ys ↔ x ∈ xs ∧ ∀ y ∈ ys, keyL x ≠ keyR y := by
  constructor
  · intro h
    have halone := align_left (strictlySorted_sortByKey hxs) (strictlySorted_sortByKey hys) h
    refine ⟨(mem_of_joinByKey h).1 x rfl, fun y hy heq => ?_⟩
    exact halone y (mem_sortByKey.mpr hy) (Std.LawfulEqCmp.compare_eq_iff_eq.mpr heq)
  · rintro ⟨hx, halone⟩
    have hleft : ((joinByKey keyL keyR xs ys).filterMap Aligned.left?).Perm xs :=
      filterMap_left_joinByKey xs ys
    obtain ⟨a, ha, hax⟩ := List.mem_filterMap.mp (hleft.mem_iff.mpr hx)
    cases a with
    | left l =>
      obtain rfl : l = x := Option.some.inj hax
      exact ha
    | right r => cases hax
    | both l r =>
      obtain rfl : l = x := Option.some.inj hax
      have heq : keyL l = keyR r := Std.LawfulEqCmp.eq_of_compare (align_both ha)
      exact absurd heq (halone r ((mem_of_joinByKey ha).2 r rfl))

/-- An element is left alone on the right exactly when it has no counterpart. -/
theorem right_mem_joinByKey (hxs : (xs.map keyL).Nodup) (hys : (ys.map keyR).Nodup) {y : β} :
    .right y ∈ joinByKey keyL keyR xs ys ↔ y ∈ ys ∧ ∀ x ∈ xs, keyL x ≠ keyR y := by
  have hswap : (.right y ∈ joinByKey keyL keyR xs ys) ↔ .left y ∈ joinByKey keyR keyL ys xs := by
    rw [joinByKey_swap xs ys, List.mem_map]
    constructor
    · exact fun h => ⟨_, h, rfl⟩
    · rintro ⟨a, ha, hay⟩
      cases a with
      | both l r => cases hay
      | left l => cases hay
      | right r => cases hay; exact ha
  rw [hswap, left_mem_joinByKey hys hxs]
  exact and_congr_right fun _ => forall₂_congr fun x _ => ne_comm

/-- Two elements are paired exactly when their keys are equal. -/
theorem both_mem_joinByKey (hxs : (xs.map keyL).Nodup) (hys : (ys.map keyR).Nodup) {x : α}
    {y : β} : .both x y ∈ joinByKey keyL keyR xs ys ↔ x ∈ xs ∧ y ∈ ys ∧ keyL x = keyR y := by
  constructor
  · intro h
    have hmem := mem_of_joinByKey h
    exact ⟨hmem.1 x rfl, hmem.2 y rfl, Std.LawfulEqCmp.eq_of_compare (align_both h)⟩
  · rintro ⟨hx, hy, heq⟩
    have hleft : ((joinByKey keyL keyR xs ys).filterMap Aligned.left?).Perm xs :=
      filterMap_left_joinByKey xs ys
    obtain ⟨a, ha, hax⟩ := List.mem_filterMap.mp (hleft.mem_iff.mpr hx)
    cases a with
    | left l =>
      obtain rfl : l = x := Option.some.inj hax
      exact absurd heq (((left_mem_joinByKey hxs hys).mp ha).2 y hy)
    | right r => cases hax
    | both l r =>
      obtain rfl : l = x := Option.some.inj hax
      have hr := (mem_of_joinByKey ha).2 r rfl
      have hkey : keyL l = keyR r := Std.LawfulEqCmp.eq_of_compare (align_both ha)
      obtain rfl : r = y := List.inj_on_of_nodup_map hys hr hy (hkey.symm.trans heq)
      exact ha

/-- An aligned pair is settled by its two sides. -/
theorem Aligned.eq_of_sides {a b : Aligned α β} (hl : a.left? = b.left?)
    (hr : a.right? = b.right?) : a = b := by
  cases a <;> cases b <;> simp_all [Aligned.left?, Aligned.right?]

/-- The sides of an element of the join are what the two lists have under its key. -/
theorem sides_of_mem_joinByKey [DecidableEq κ] (hxs : (xs.map keyL).Nodup)
    (hys : (ys.map keyR).Nodup) {a : Aligned α β} (ha : a ∈ joinByKey keyL keyR xs ys) :
    a.left? = findByKey keyL xs (a.key keyL keyR) ∧
      a.right? = findByKey keyR ys (a.key keyL keyR) := by
  cases a with
  | both x y =>
    obtain ⟨hx, hy, hkey⟩ := (both_mem_joinByKey hxs hys).mp ha
    exact ⟨((findByKey_eq_some hxs).mpr ⟨hx, rfl⟩).symm,
      ((findByKey_eq_some hys).mpr ⟨hy, hkey.symm⟩).symm⟩
  | left x =>
    obtain ⟨hx, halone⟩ := (left_mem_joinByKey hxs hys).mp ha
    exact ⟨((findByKey_eq_some hxs).mpr ⟨hx, rfl⟩).symm,
      (findByKey_eq_none.mpr fun y hy => (halone y hy).symm).symm⟩
  | right y =>
    obtain ⟨hy, halone⟩ := (right_mem_joinByKey hxs hys).mp ha
    exact ⟨(findByKey_eq_none.mpr halone).symm,
      ((findByKey_eq_some hys).mpr ⟨hy, rfl⟩).symm⟩

/-- **The keys of a join do not repeat.** -/
theorem nodup_keys_joinByKey [DecidableEq κ] (hxs : (xs.map keyL).Nodup)
    (hys : (ys.map keyR).Nodup) :
    ((joinByKey keyL keyR xs ys).map (Aligned.key keyL keyR)).Nodup := by
  have hleft : ((joinByKey keyL keyR xs ys).filterMap Aligned.left?).Perm xs :=
    filterMap_left_joinByKey xs ys
  have hright : ((joinByKey keyL keyR xs ys).filterMap Aligned.right?).Perm ys :=
    filterMap_right_joinByKey xs ys
  refine List.Nodup.map_on (fun a ha b hb hkey => ?_)
    (nodup_of_sides (hleft.nodup_iff.mpr hxs.of_map) (hright.nodup_iff.mpr hys.of_map))
  obtain ⟨hla, hra⟩ := sides_of_mem_joinByKey hxs hys ha
  obtain ⟨hlb, hrb⟩ := sides_of_mem_joinByKey hxs hys hb
  exact Aligned.eq_of_sides (hla.trans (hkey ▸ hlb.symm)) (hra.trans (hkey ▸ hrb.symm))

/-- A pair with the given property. -/
def Aligned.Paired (P : α → β → Prop) : Aligned α β → Prop
  | .both x y => P x y
  | .left _ => False
  | .right _ => False

omit [Std.TransOrd κ] in
/-- The walk hands over nothing but pairs exactly when the two lists agree element by element. -/
theorem forall_paired_align_iff {P : α → β → Prop} {ls : List α} {rs : List β} :
    (∀ x ∈ align keyL keyR ls rs, x.Paired P) ↔
      List.Forall₂ (fun l r => keyL l = keyR r ∧ P l r) ls rs := by
  induction ls, rs using align.induct keyL keyR with
  | case1 rs =>
    rw [align_nil_left, List.forall₂_nil_left_iff]
    cases rs <;> simp [Aligned.Paired]
  | case2 ls _ =>
    rw [align_nil_right, List.forall₂_nil_right_iff]
    cases ls <;> simp [Aligned.Paired]
  | case3 l ls r rs hcmp ih =>
    rw [align_cons_cons, hcmp, List.forall_mem_cons, ih, List.forall₂_cons]
    exact and_congr_left fun _ => (and_iff_right (Std.LawfulEqCmp.eq_of_compare hcmp)).symm
  | case4 l ls r rs hcmp ih =>
    rw [align_cons_cons, hcmp, List.forall_mem_cons, List.forall₂_cons]
    refine ⟨fun h => h.1.elim, fun h => ?_⟩
    rw [h.1.1, Std.compare_self] at hcmp
    cases hcmp
  | case5 l ls r rs hcmp ih =>
    rw [align_cons_cons, hcmp, List.forall_mem_cons, List.forall₂_cons]
    refine ⟨fun h => h.1.elim, fun h => ?_⟩
    rw [h.1.1, Std.compare_self] at hcmp
    cases hcmp

/-- **The join consists of pairs** with a given property exactly when the two lists have the same
    keys and the elements of one key have the property. -/
theorem forall_paired_joinByKey_iff [DecidableEq κ] (hxs : (xs.map keyL).Nodup)
    (hys : (ys.map keyR).Nodup) {P : α → β → Prop} :
    (∀ a ∈ joinByKey keyL keyR xs ys, a.Paired P) ↔
      ∀ k, Option.Rel P (findByKey keyL xs k) (findByKey keyR ys k) := by
  constructor
  · intro h k
    cases hx : findByKey keyL xs k with
    | none =>
      cases hy : findByKey keyR ys k with
      | none => exact .none
      | some y =>
        -- `y` would be left alone on the right
        obtain ⟨hmem, hkey⟩ := (findByKey_eq_some hys).mp hy
        have hright := (right_mem_joinByKey hxs hys).mpr
          ⟨hmem, fun x hx' => hkey ▸ findByKey_eq_none.mp hx x hx'⟩
        exact (h _ hright).elim
    | some x =>
      obtain ⟨hxmem, hxkey⟩ := (findByKey_eq_some hxs).mp hx
      cases hy : findByKey keyR ys k with
      | none =>
        have hleft := (left_mem_joinByKey hxs hys).mpr
          ⟨hxmem, fun y hy' => hxkey ▸ (findByKey_eq_none.mp hy y hy').symm⟩
        exact (h _ hleft).elim
      | some y =>
        obtain ⟨hymem, hykey⟩ := (findByKey_eq_some hys).mp hy
        have hboth := (both_mem_joinByKey hxs hys).mpr ⟨hxmem, hymem, hxkey.trans hykey.symm⟩
        exact .some (h _ hboth)
  · intro h a ha
    cases a with
    | both x y =>
      obtain ⟨hx, hy, hkey⟩ := (both_mem_joinByKey hxs hys).mp ha
      have hrel := h (keyL x)
      rw [(findByKey_eq_some hxs).mpr ⟨hx, rfl⟩, (findByKey_eq_some hys).mpr ⟨hy, hkey.symm⟩]
        at hrel
      cases hrel with
      | some hP => exact hP
    | left x =>
      obtain ⟨hx, halone⟩ := (left_mem_joinByKey hxs hys).mp ha
      have hrel := h (keyL x)
      rw [(findByKey_eq_some hxs).mpr ⟨hx, rfl⟩,
        findByKey_eq_none.mpr fun y hy => (halone y hy).symm] at hrel
      cases hrel
    | right y =>
      obtain ⟨hy, halone⟩ := (right_mem_joinByKey hxs hys).mp ha
      have hrel := h (keyR y)
      rw [(findByKey_eq_some hys).mpr ⟨hy, rfl⟩, findByKey_eq_none.mpr halone] at hrel
      cases hrel

/-- Reordering lists without repeated keys does not change their join. -/
theorem joinByKey_eq_of_perm {xs' : List α} {ys' : List β} (hx : xs.Perm xs') (hy : ys.Perm ys')
    (hxs : (xs.map keyL).Nodup) (hys : (ys.map keyR).Nodup) :
    joinByKey keyL keyR xs ys = joinByKey keyL keyR xs' ys' := by
  unfold joinByKey
  rw [sortByKey_eq_of_perm hx hxs, sortByKey_eq_of_perm hy hys]

end Members

end Rust
