/-
  ARENAS: a buffer that holds records side by side, seen record by record.

  A program that lays out records in one buffer and goes on writing into them is easier to follow
  as a program on the records.  An `Arena` names the slots of the buffer and says that they do not
  overlap; `Holds buf content` says what each slot holds.

  1. **One write** — a write inside a slot changes the content of that slot as it changes the
     buffer, and nothing else (`Holds.write`).
  2. **One slot** — `Edits` says that a program takes one slot from one content to another: writes
     compose, and a loop that writes the elements of an array one after the other fills the array
     in (`Edits.fill`).
  3. **Many slots** — `Settles` says that a program brings the slots that it owns from their first
     to their final contents.  A loop over jobs settles the slots of all jobs (`Settles.foldlM`);
     in a program of several stages each slot is settled in its stage (`Settles.stage`).
-/
import Winreg.Base.Bytes
import Mathlib.Logic.Function.Basic
import Mathlib.Data.List.Nodup

namespace Rust

/-- Slots of a buffer of a given length that do not overlap. -/
structure Arena (ι : Type) where
  slots : List ι
  pos : ι → Nat
  size : ι → Nat
  length : Nat
  le_length : ∀ i ∈ slots, pos i + size i ≤ length
  disjoint : ∀ i ∈ slots, ∀ j ∈ slots, i ≠ j → pos i + size i ≤ pos j ∨ pos j + size j ≤ pos i

namespace Arena

variable {ι J ε : Type} {A : Arena ι} {buf : Bytes} {content : ι → Bytes}

/-- The buffer holds these contents in its slots. -/
structure Holds (A : Arena ι) (buf : Bytes) (content : ι → Bytes) : Prop where
  length_eq : buf.length = A.length
  width : ∀ i ∈ A.slots, (content i).length = A.size i
  at_slot : ∀ i ∈ A.slots, bytesAt buf (A.pos i) (A.size i) = content i

/-- Only the contents of the slots matter. -/
theorem Holds.congr {content' : ι → Bytes} (h : A.Holds buf content)
    (hc : ∀ i ∈ A.slots, content i = content' i) : A.Holds buf content' where
  length_eq := h.length_eq
  width i hi := by rw [← hc i hi]; exact h.width i hi
  at_slot i hi := by rw [← hc i hi]; exact h.at_slot i hi

/-- A range inside a slot. -/
theorem Holds.bytesAt_slot (h : A.Holds buf content) {i : ι} (hi : i ∈ A.slots) {o n : Nat}
    (ho : o + n ≤ A.size i) : bytesAt buf (A.pos i + o) n = bytesAt (content i) o n := by
  rw [← h.at_slot i hi]
  exact (bytesAt_bytesAt ho).symm

/-! ## One write -/

/-- **A write inside a slot** changes the content of that slot only. -/
theorem Holds.write [DecidableEq ι] (h : A.Holds buf content) {i : ι} (hi : i ∈ A.slots) {o : Nat}
    {bs : Bytes} (ho : o + bs.length ≤ A.size i) :
    (copyInto buf (A.pos i + o) bs : Exec ε Bytes) = .ok (patch buf (A.pos i + o) bs) ∧
      A.Holds (patch buf (A.pos i + o) bs)
        (Function.update content i (patch (content i) o bs)) := by
  have hlen := h.length_eq
  have hinside := A.le_length i hi
  have hfit : A.pos i + o + bs.length ≤ buf.length := by omega
  have hwidth := h.width i hi
  refine ⟨copyInto_eq_ok hfit, (length_patch hfit).trans hlen, fun j hj => ?_, fun j hj => ?_⟩
  · by_cases hij : j = i
    · subst hij
      rw [Function.update_self, length_patch (by omega)]
      exact hwidth
    · rw [Function.update_of_ne hij]
      exact h.width j hj
  · by_cases hij : j = i
    · subst hij
      rw [Function.update_self, bytesAt_patch_inside (by omega) ho, h.at_slot j hj]
    · have hdisjoint := A.disjoint j hj i hi hij
      rw [Function.update_of_ne hij, bytesAt_patch_disjoint hfit (by omega)]
      exact h.at_slot j hj

/-- From every buffer that holds the first contents, the program gets to one that holds the
    second. -/
def Runs (A : Arena ι) (f : Bytes → Exec ε Bytes) (content content' : ι → Bytes) : Prop :=
  ∀ buf, A.Holds buf content → ∃ buf', f buf = .ok buf' ∧ A.Holds buf' content'

variable {f g : Bytes → Exec ε Bytes}

/-- A program that does nothing keeps the contents. -/
theorem Runs.skip : A.Runs (Exec.ok : Bytes → Exec ε Bytes) content content :=
  fun buf h => ⟨buf, rfl, h⟩

/-- Only the new contents of the slots matter. -/
theorem Runs.congr {content' content'' : ι → Bytes} (h : A.Runs f content content')
    (hc : ∀ i ∈ A.slots, content' i = content'' i) : A.Runs f content content'' := by
  intro buf hbuf
  obtain ⟨buf', hrun, hheld⟩ := h buf hbuf
  exact ⟨buf', hrun, hheld.congr hc⟩

/-- Two programs one after the other. -/
theorem Runs.bind {content' content'' : ι → Bytes} (hf : A.Runs f content content')
    (hg : A.Runs g content' content'') : A.Runs (fun buf => f buf >>= g) content content'' := by
  intro buf h
  obtain ⟨buf1, hrun1, h1⟩ := hf buf h
  obtain ⟨buf2, hrun2, h2⟩ := hg buf1 h1
  refine ⟨buf2, ?_, h2⟩
  show f buf >>= g = .ok buf2
  rw [hrun1, Exec.ok_bind]
  exact hrun2

variable [DecidableEq ι]

/-! ## One slot -/

/-- The program takes one slot from a content to another, and leaves the other slots alone. -/
def Edits (A : Arena ι) (i : ι) (f : Bytes → Exec ε Bytes) (x y : Bytes) : Prop :=
  ∀ content, content i = x → A.Runs f content (Function.update content i y)

/-- A program that does nothing keeps the slot. -/
theorem Edits.skip {i : ι} {x : Bytes} : A.Edits i (Exec.ok : Bytes → Exec ε Bytes) x x := by
  intro content hx
  rw [← hx, Function.update_eq_self]
  exact Runs.skip

/-- Two edits of one slot, one after the other. -/
theorem Edits.bind {i : ι} {x y z : Bytes} (hf : A.Edits i f x y) (hg : A.Edits i g y z) :
    A.Edits i (fun buf => f buf >>= g) x z := by
  intro content hx
  have hrest := hg (Function.update content i y) (Function.update_self ..)
  rw [Function.update_idem] at hrest
  exact (hf content hx).bind hrest

/-- Copying bytes into a slot patches its contents and nothing else, since the slots do not
    overlap. -/
theorem Edits.write {i : ι} (hi : i ∈ A.slots) {x : Bytes} {o : Nat} {bs : Bytes}
    (ho : o + bs.length ≤ A.size i) :
    A.Edits i (fun buf => (copyInto buf (A.pos i + o) bs : Exec ε Bytes)) x (patch x o bs) := by
  intro content hx buf h
  obtain ⟨hrun, hwritten⟩ := @Holds.write ι ε A buf content _ h i hi o bs ho
  rw [hx] at hwritten
  exact ⟨_, hrun, hwritten⟩

/-- **Filling in an array.**  A slot that ends in zeros, filled in by a loop that writes element
    `k` at its place, holds the elements behind what came before. -/
theorem Edits.fill {α : Type} {enc : α → Bytes} {w : Nat} (hw : ∀ x, (enc x).length = w) {i : ι}
    (hi : i ∈ A.slots) {start : Nat} {step : Bytes → α × Nat → Exec ε Bytes} :
    ∀ {xs : List α} {k : Nat} {before : Bytes},
      (∀ x l, (x, l) ∈ xs.zipIdx k → ∀ buf,
        step buf (x, l) = copyInto buf (start + l * w) (enc x)) →
      A.pos i + before.length = start + k * w →
      before.length + xs.length * w ≤ A.size i →
      A.Edits i (fun buf => (xs.zipIdx k).foldlM step buf)
        (before ++ List.replicate (xs.length * w) 0) (before ++ xs.flatMap enc) := by
  intro xs
  induction xs with
  | nil =>
    intro k before _ _ _
    rw [List.length_nil, Nat.zero_mul]
    exact Edits.skip
  | cons x xs ih =>
    intro k before hstep hpos hsize
    have hzeros : (x :: xs).length * w = (enc x).length + xs.length * w := by
      rw [hw, List.length_cons, Nat.succ_mul, Nat.add_comm]
    rw [hzeros] at hsize ⊢
    -- the record goes to the first of the zeros that are left
    have hfirst : A.Edits i (fun buf => step buf (x, k))
        (before ++ List.replicate ((enc x).length + xs.length * w) 0)
        ((before ++ enc x) ++ List.replicate (xs.length * w) 0) := by
      have hwrite := @Edits.write ι ε A _ i hi
        (before ++ List.replicate ((enc x).length + xs.length * w) 0) before.length (enc x)
        (by omega)
      rw [patch_append_zeros] at hwrite
      have hfun : (fun buf => step buf (x, k)) =
          fun buf => copyInto buf (A.pos i + before.length) (enc x) := by
        funext buf
        rw [hstep x k List.mem_cons_self, hpos]
      rw [hfun]
      exact hwrite
    have hnext : A.pos i + (before ++ enc x).length = start + (k + 1) * w := by
      rw [List.length_append, hw, Nat.succ_mul]
      omega
    have hrest := ih (fun y l hyl => hstep y l (List.mem_cons_of_mem _ hyl)) hnext
      (by rw [List.length_append]; omega)
    rw [List.flatMap_cons, ← List.append_assoc]
    exact hfirst.bind hrest

/-! ## Many slots -/

/-- The contents in which some slots have the final content. -/
def settle (owned : List ι) (final content : ι → Bytes) : ι → Bytes :=
  fun i => if i ∈ owned then final i else content i

/-- The program brings the slots that it owns from their first to their final contents, and leaves
    the other slots alone. -/
def Settles (A : Arena ι) (first final : ι → Bytes) (owned : List ι) (f : Bytes → Exec ε Bytes) :
    Prop :=
  ∀ content, (∀ i ∈ owned, content i = first i) → A.Runs f content (settle owned final content)

variable {first final : ι → Bytes}

/-- Doing nothing settles no slot. -/
theorem Settles.skip : A.Settles first final [] (Exec.ok : Bytes → Exec ε Bytes) :=
  fun _ _ => Runs.skip.congr fun _ _ => (if_neg List.not_mem_nil).symm

/-- An edit from the first to the last contents of a slot settles it. -/
theorem Edits.settles {i : ι} (h : A.Edits i f (first i) (final i)) :
    A.Settles first final [i] f := by
  intro content hfirst
  refine (h content (hfirst i (List.mem_singleton_self i))).congr fun j _ => ?_
  unfold settle
  by_cases hj : j = i
  · rw [hj, Function.update_self, if_pos (List.mem_singleton_self i)]
  · rw [Function.update_of_ne hj, if_neg fun hmem => hj (List.mem_singleton.mp hmem)]

/-- Programs that own different slots settle all of them: neither touches what the other has
    settled. -/
theorem Settles.bind {owned owned' : List ι} (hf : A.Settles first final owned f)
    (hg : A.Settles first final owned' g) (hnodup : (owned ++ owned').Nodup) :
    A.Settles first final (owned ++ owned') (fun buf => f buf >>= g) := by
  intro content hfirst
  have hdisjoint := (List.nodup_append.mp hnodup).2.2
  -- the slots of the second program are still as they were
  have hkept : ∀ i ∈ owned', settle owned final content i = first i := fun i hi => by
    have hnot : i ∉ owned := fun hown => hdisjoint i hown i hi rfl
    unfold settle
    rw [if_neg hnot]
    exact hfirst i (List.mem_append_right _ hi)
  have hone := hf content fun i hi => hfirst i (List.mem_append_left _ hi)
  refine (hone.bind (hg _ hkept)).congr fun i _ => ?_
  unfold settle
  by_cases hlater : i ∈ owned'
  · rw [if_pos hlater, if_pos (List.mem_append_right _ hlater)]
  · rw [if_neg hlater]
    by_cases hnow : i ∈ owned
    · rw [if_pos hnow, if_pos (List.mem_append_left _ hnow)]
    · rw [if_neg hnow, if_neg fun hmem => (List.mem_append.mp hmem).elim hnow hlater]

/-- **A loop over jobs** that own different slots settles the slots of all of them. -/
theorem Settles.foldlM {step : Bytes → J → Exec ε Bytes} {owns : J → List ι} :
    ∀ {jobs : List J}, (∀ j ∈ jobs, A.Settles first final (owns j) fun buf => step buf j) →
      (jobs.flatMap owns).Nodup →
      A.Settles first final (jobs.flatMap owns) fun buf => jobs.foldlM step buf := by
  intro jobs
  induction jobs with
  | nil => exact fun _ _ => Settles.skip
  | cons j jobs ih =>
    intro hstep hnodup
    rw [List.flatMap_cons] at hnodup ⊢
    exact (hstep j List.mem_cons_self).bind
      (ih (fun j' hj' => hstep j' (List.mem_cons_of_mem j hj')) (List.nodup_append.mp hnodup).2.1)
      hnodup

/-- The contents before a stage: the slots of the earlier stages have their final contents. -/
def staged (stage : ι → Nat) (first final : ι → Bytes) (k : Nat) : ι → Bytes :=
  fun i => if stage i < k then final i else first i

/-- **A stage** settles exactly the slots that belong to it. -/
theorem Settles.stage {stage : ι → Nat} {k : Nat} {owned : List ι}
    (h : A.Settles first final owned f) (howned : ∀ i ∈ owned, stage i = k)
    (hall : ∀ i ∈ A.slots, stage i = k → i ∈ owned) :
    A.Runs f (staged stage first final k) (staged stage first final (k + 1)) := by
  have hfirst : ∀ i ∈ owned, staged stage first final k i = first i := fun i hi =>
    if_neg (by rw [howned i hi]; exact Nat.lt_irrefl k)
  refine (h _ hfirst).congr fun i hi => ?_
  unfold settle staged
  by_cases hown : i ∈ owned
  · have hk := howned i hown
    rw [if_pos hown, if_pos (by omega)]
  · have hk : stage i ≠ k := fun heq => hown (hall i hi heq)
    rw [if_neg hown]
    by_cases hlt : stage i < k
    · rw [if_pos hlt, if_pos (by omega)]
    · rw [if_neg hlt, if_neg (by omega)]

end Arena

end Rust
