/-
  DROPPED ERRORS: calls of which the caller only wants to know the value.

  Code that collects what it can find writes `let Ok(x) = call else { continue }` and
  `call.ok().flatten()`: an error and a missing value have the same effect.  What such code does is
  then a function of an `Option`, and the errors behind a `none` play no part in it.

  1. **Calls** — the three forms of calls with dropped errors, and a loop that joins what its passes
     find.
  2. **What is left of a call** — `Keeps R x o`: the call `x` comes back, with a value that `R`
     relates to that of `o`, or with an error where `o` is empty.  `Finds` is the same for calls
     that may also find nothing.
  3. **Rules** — one for each form: where the callees keep a pure counterpart, so does the caller.
-/
import Winreg.Base.Exec

namespace Rust

namespace Exec

variable {ε α β γ σ : Type}

/-! ## Calls -/

/-- `let Ok(a) = x else { return d }; f(a)` -/
def okOr (x : Exec ε α) (d : β) (f : α → Exec ε β) : Exec ε β := do
  match ← x.attempt with
  | .ok a => f a
  | .error _ => .ok d

/-- `let Ok(Some(a)) = x else { return d }; f(a)` -/
def someOr (x : Exec ε (Option α)) (d : β) (f : α → Exec ε β) : Exec ε β := do
  match ← x.attempt with
  | .ok (some a) => f a
  | _ => .ok d

/-- `for a in xs { out.extend(f(a)) }` -/
def flatMapM (f : α → Exec ε (List β)) (xs : List α) : Exec ε (List β) :=
  xs.foldlM (fun out a => do
    let more ← f a
    .ok (out ++ more)) []

/-- `for a in xs { out.push(f(a)) }` -/
def collectM (f : α → Exec ε β) (xs : List α) : Exec ε (List β) :=
  flatMapM (fun a => do
    let b ← f a
    .ok [b]) xs

/-- `xs.find_map(f)`, for an `f` that drops its errors. -/
def findMapM (f : α → Exec ε (Option β)) : List α → Exec ε (Option β)
  | [] => .ok none
  | a :: rest => do
    match ← f a with
    | some b => .ok (some b)
    | none => findMapM f rest

/-! ## What is left of a call -/

/-- The call comes back, with a related value or, where there is none, with an error. -/
inductive Keeps (R : α → β → Prop) : Exec ε α → Option β → Prop where
  | value {a : α} {b : β} (h : R a b) : Keeps R (ok a) (some b)
  | error (e : ε) : Keeps R (err e) none

/-- The call comes back, with a related value or, where there is none, with nothing or an error. -/
inductive Finds (R : α → β → Prop) : Exec ε (Option α) → Option β → Prop where
  | found {a : α} {b : β} (h : R a b) : Finds R (ok (some a)) (some b)
  | missing : Finds R (ok none) none
  | error (e : ε) : Finds R (err e) none

/-- The same for a call with a budget. -/
def KeepsFrom (R : α → β → Prop) (f : Nat → Exec ε α) (o : Option β) : Prop :=
  ∃ x, Evals f x ∧ Keeps R x o

/-- A lookup with fuel finds what `o` says, or drops it together with an error. -/
def FindsFrom (R : α → β → Prop) (f : Nat → Exec ε (Option α)) (o : Option β) : Prop :=
  ∃ x, Evals f x ∧ Finds R x o

/-- A result that needs no fuel, seen as one that does. -/
theorem Keeps.from {R : α → β → Prop} {x : Exec ε α} {o : Option β} (h : Keeps R x o) :
    KeepsFrom R (fun _ => x) o := ⟨x, .const x, h⟩

/-- The same for a lookup. -/
theorem Finds.from {R : α → β → Prop} {x : Exec ε (Option α)} {o : Option β} (h : Finds R x o) :
    FindsFrom R (fun _ => x) o := ⟨x, .const x, h⟩

/-- A call without a budget. -/
theorem FindsFrom.finds {R : α → β → Prop} {x : Exec ε (Option α)} {o : Option β}
    (h : FindsFrom R (fun _ => x) o) : Finds R x o := by
  obtain ⟨y, hy, hfinds⟩ := h
  rwa [hy.unique (.const x)] at hfinds

/-- What is kept or dropped has returned. -/
theorem Keeps.returns {R : α → β → Prop} {x : Exec ε α} {o : Option β} (h : Keeps R x o) :
    x.Returns := by
  cases h with
  | value _ => exact Or.inl ⟨_, rfl⟩
  | error e => exact Or.inr ⟨e, rfl⟩

/-! ## Rules -/

section Rules

variable {R : α → β → Prop} {o : Option β}

/-- Whatever follows a call of which only the value matters. -/
theorem KeepsFrom.attempt {f : Nat → Exec ε α} (hf : KeepsFrom R f o) {d : γ}
    {k : Nat → Except ε α → Exec ε γ} {h : β → γ} (herror : ∀ n e, k n (.error e) = ok d)
    (hvalue : ∀ a b, R a b → Evals (fun n => k n (.ok a)) (ok (h b))) :
    Evals (fun n => (f n).attempt >>= k n) (ok (o.elim d h)) := by
  obtain ⟨x, hx, hkeeps⟩ := hf
  cases hkeeps with
  | @value a b hab => exact Evals.bind hx.attempt (hvalue a b hab)
  | error e => exact Evals.bind hx.attempt ⟨0, fun n _ => herror n e⟩

/-- The value that is kept is the one that is there. -/
theorem KeepsFrom.here {f : Nat → Exec ε α} (hf : KeepsFrom R f o) :
    KeepsFrom (fun a b => R a b ∧ o = some b) f o := by
  obtain ⟨x, hx, hkeeps⟩ := hf
  refine ⟨x, hx, ?_⟩
  cases hkeeps with
  | value h => exact .value ⟨h, rfl⟩
  | error e => exact .error e

/-- What is found is what was to be found, which later steps may use. -/
theorem FindsFrom.here {f : Nat → Exec ε (Option α)} (hf : FindsFrom R f o) :
    FindsFrom (fun a b => R a b ∧ o = some b) f o := by
  obtain ⟨x, hx, hfinds⟩ := hf
  refine ⟨x, hx, ?_⟩
  cases hfinds with
  | found h => exact .found ⟨h, rfl⟩
  | missing => exact .missing
  | error e => exact .error e

/-- The shape `if let Ok(x)`: where something is kept the program goes on with it, and where it is
    dropped the default is the result. -/
theorem KeepsFrom.okOr {f : Nat → Exec ε α} (hf : KeepsFrom R f o) {d : γ}
    {g : Nat → α → Exec ε γ} {h : β → γ}
    (hgh : ∀ a b, R a b → Evals (fun n => g n a) (ok (h b))) :
    Evals (fun n => (f n).okOr d (g n)) (ok (o.elim d h)) :=
  hf.attempt (fun _ _ => rfl) hgh

/-- Whatever follows a search of which only what is found matters. -/
theorem FindsFrom.attempt {f : Nat → Exec ε (Option α)} (hf : FindsFrom R f o) {d : γ}
    {k : Nat → Except ε (Option α) → Exec ε γ} {h : β → γ}
    (herror : ∀ n e, k n (.error e) = ok d) (hmissing : ∀ n, k n (.ok none) = ok d)
    (hfound : ∀ a b, R a b → Evals (fun n => k n (.ok (some a))) (ok (h b))) :
    Evals (fun n => (f n).attempt >>= k n) (ok (o.elim d h)) := by
  obtain ⟨x, hx, hfinds⟩ := hf
  cases hfinds with
  | @found a b hab => exact Evals.bind hx.attempt (hfound a b hab)
  | missing => exact Evals.bind hx.attempt ⟨0, fun n _ => hmissing n⟩
  | error e => exact Evals.bind hx.attempt ⟨0, fun n _ => herror n e⟩

/-- The shape `if let Ok(Some(x))`, with the same two ends. -/
theorem FindsFrom.someOr {f : Nat → Exec ε (Option α)} (hf : FindsFrom R f o) {d : γ}
    {g : Nat → α → Exec ε γ} {h : β → γ}
    (hgh : ∀ a b, R a b → Evals (fun n => g n a) (ok (h b))) :
    Evals (fun n => (f n).someOr d (g n)) (ok (o.elim d h)) :=
  hf.attempt (fun _ _ => rfl) (fun _ => rfl) hgh

/-- `f().ok().flatten().and_then(g)` -/
theorem FindsFrom.andThen {f : Nat → Exec ε (Option α)} (hf : FindsFrom R f o)
    {g : Nat → α → Exec ε (Option γ)} {h : β → Option γ}
    (hgh : ∀ a b, R a b → Evals (fun n => g n a) (ok (h b))) :
    Evals (fun n => (f n).someOr none (g n)) (ok (o.bind h)) := by
  have hrun := hf.someOr (d := none) hgh
  cases o <;> exact hrun

/-- `x.ok().map(g)` -/
theorem Keeps.map? {x : Exec ε α} {o : Option α} (hx : Keeps Eq x o) (g : α → γ) :
    Evals (fun _ : Nat => x.okOr none fun a => ok (some (g a))) (ok (o.map g)) := by
  cases hx with
  | @value a b hab =>
    obtain rfl : a = b := hab
    exact .const _
  | error e => exact .const _

/-- `x.ok()` -/
theorem Keeps.value? {x : Exec ε α} {o : Option α} (hx : Keeps Eq x o) :
    Evals (fun _ : Nat => x.okOr none fun a => ok (some a)) (ok o) := by
  have hrun := hx.map? id
  rwa [Option.map_id, id] at hrun

/-- `x.unwrap_or(d)` -/
theorem Keeps.unwrapOr {x : Exec ε α} {o : Option α} (hx : Keeps Eq x o) (d : α) :
    x.unwrapOr d = ok (o.getD d) := by
  cases hx with
  | value hab => exact congrArg ok hab
  | error e => rfl

/-- `x.map_or(d, g)` -/
theorem Keeps.mapOr {x : Exec ε α} {o : Option α} (hx : Keeps Eq x o) (d : β) (g : α → β) :
    (x.okOr d fun a => ok (g a)) = ok (o.elim d g) := by
  cases hx with
  | value hab => exact congrArg (fun a => ok (g a)) hab
  | error e => rfl

/-- `x.ok()`, from the outcome as a value. -/
theorem Keeps.toOption {x : Exec ε α} {o : Option α} (hx : Keeps Eq x o) :
    (x.attempt >>= fun t => ok t.toOption) = (ok o : Exec ε (Option α)) := by
  cases hx with
  | value hab => exact congrArg (fun a => ok (some a)) hab
  | error e => rfl

/-- Searches with tests that agree find related elements. -/
theorem forall₂_find? {xs : List α} {ys : List β} (hxy : List.Forall₂ R xs ys) {p : α → Bool}
    {q : β → Bool} (hpq : ∀ a b, R a b → p a = q b) :
    Option.Rel R (xs.find? p) (ys.find? q) := by
  induction hxy with
  | nil => exact .none
  | @cons a b _ _ hab _ ih =>
    rw [List.find?_cons, List.find?_cons, hpq a b hab]
    cases q b with
    | true => exact .some hab
    | false => exact ih

/-- Looking for an element of a list that a call returns. -/
theorem KeepsFrom.find {f : Nat → Exec ε (List α)} {o : Option (List β)}
    (hf : KeepsFrom (List.Forall₂ R) f o) {p : α → Bool} {q : β → Bool}
    (hpq : ∀ a b, R a b → p a = q b) :
    FindsFrom R (fun n => f n >>= fun as => ok (as.find? p)) (o.bind (·.find? q)) := by
  obtain ⟨x, hx, hkeeps⟩ := hf
  refine ⟨_, hx.andThen fun as => .const (ok (as.find? p)), ?_⟩
  cases hkeeps with
  | @value as bs hab =>
    show Finds R (ok (as.find? p)) (bs.find? q)
    have hfound := forall₂_find? hab hpq
    generalize as.find? p = a, bs.find? q = b at hfound
    cases hfound with
    | none => exact .missing
    | some h => exact .found h
  | error e => exact .error e

/-- A search behind a call. -/
theorem KeepsFrom.andFind {f : Nat → Exec ε α} (hf : KeepsFrom R f o) {S : γ → σ → Prop}
    {g : Nat → α → Exec ε (Option γ)} {h : β → Option σ}
    (hgh : ∀ a b, R a b → FindsFrom S (fun n => g n a) (h b)) :
    FindsFrom S (fun n => f n >>= g n) (o.bind h) := by
  obtain ⟨x, hx, hkeeps⟩ := hf
  cases hkeeps with
  | @value a b hab =>
    obtain ⟨y, hy, hfinds⟩ := hgh a b hab
    exact ⟨y, hx.bind hy, hfinds⟩
  | error e =>
    obtain ⟨N, hN⟩ := hx
    exact ⟨err e, ⟨N, fun n hn => congrArg (· >>= g n) (hN n hn)⟩, .error e⟩

/-- A search behind a search. -/
theorem FindsFrom.andFind {f : Nat → Exec ε (Option α)} (hf : FindsFrom R f o)
    {S : γ → σ → Prop} {k : Nat → Option α → Exec ε (Option γ)} {h : β → Option σ}
    (hnone : ∀ n, k n none = ok none)
    (hgh : ∀ a b, R a b → FindsFrom S (fun n => k n (some a)) (h b)) :
    FindsFrom S (fun n => f n >>= k n) (o.bind h) := by
  obtain ⟨x, hx, hfinds⟩ := hf
  cases hfinds with
  | @found a b hab =>
    obtain ⟨y, hy, hfinds⟩ := hgh a b hab
    exact ⟨y, hx.bind hy, hfinds⟩
  | missing => exact ⟨ok none, hx.bind ⟨0, fun n _ => hnone n⟩, .missing⟩
  | error e =>
    obtain ⟨N, hN⟩ := hx
    exact ⟨err e, ⟨N, fun n hn => congrArg (· >>= k n) (hN n hn)⟩, .error e⟩

end Rules

/-- A loop whose passes append what they find to what is there. -/
theorem Evals.appends {S : α → β → Prop} {xs : List α} {ys : List β}
    (hxy : List.Forall₂ S xs ys) {f : Nat → List γ → α → Exec ε (List γ)} {g : β → List γ}
    (h : ∀ x y, S x y → ∀ out, Evals (fun n => f n out x) (ok (out ++ g y))) (out : List γ) :
    Evals (fun n => xs.foldlM (f n) out) (ok (out ++ ys.flatMap g)) := by
  induction hxy generalizing out with
  | nil =>
    rw [List.flatMap_nil, List.append_nil]
    exact .const _
  | @cons x y xs ys hs _ ih =>
    rw [List.flatMap_cons, ← List.append_assoc]
    exact (h x y hs out).bind (ih (out ++ g y))

/-- A loop that appends what its passes find to what is there. -/
theorem Evals.extend {S : α → β → Prop} {xs : List α} {ys : List β}
    (hxy : List.Forall₂ S xs ys) {f : Nat → α → Exec ε (List γ)} {g : β → List γ}
    (h : ∀ x y, S x y → Evals (fun n => f n x) (ok (g y))) (out : List γ) :
    Evals (fun n => xs.foldlM (fun out x => do
      let more ← f n x
      ok (out ++ more)) out) (ok (out ++ ys.flatMap g)) :=
  Evals.appends hxy (fun x y hs out =>
    (h x y hs).bind (g := fun _ more => ok (out ++ more)) (.const _)) out

/-- A loop that pushes what its passes find to what is there. -/
theorem Evals.push {S : α → β → Prop} {xs : List α} {ys : List β}
    (hxy : List.Forall₂ S xs ys) {f : Nat → α → Exec ε γ} {g : β → γ}
    (h : ∀ x y, S x y → Evals (fun n => f n x) (ok (g y))) (out : List γ) :
    Evals (fun n => xs.foldlM (fun out x => do
      let b ← f n x
      ok (out ++ [b])) out) (ok (out ++ ys.map g)) := by
  have hrun := Evals.extend hxy (f := fun n x => do
    let b ← f n x
    ok [b]) (g := fun y => [g y])
    (fun x y hs => (h x y hs).bind (g := fun _ b => ok [b]) (.const _)) out
  rw [List.map_eq_flatMap]
  simpa only [bind_assoc, ok_bind] using hrun

/-- **A loop that joins what its passes find.** -/
theorem Evals.flatMapM {S : α → β → Prop} {xs : List α} {ys : List β}
    (hxy : List.Forall₂ S xs ys) {f : Nat → α → Exec ε (List γ)} {g : β → List γ}
    (h : ∀ x y, S x y → Evals (fun n => f n x) (ok (g y))) :
    Evals (fun n => flatMapM (f n) xs) (ok (ys.flatMap g)) :=
  Evals.extend hxy h []

/-- Collecting the results of a list of programs gives the list of what they give, in order. -/
theorem Evals.collectM {S : α → β → Prop} {xs : List α} {ys : List β}
    (hxy : List.Forall₂ S xs ys) {f : Nat → α → Exec ε γ} {g : β → γ}
    (h : ∀ x y, S x y → Evals (fun n => f n x) (ok (g y))) :
    Evals (fun n => collectM (f n) xs) (ok (ys.map g)) := by
  rw [List.map_eq_flatMap]
  exact Evals.flatMapM hxy fun x y hs => (h x y hs).bind (g := fun _ b => ok [b]) (.const _)

/-- The same for a list of programs that all have to succeed. -/
theorem Evals.mapM {S : α → β → Prop} {xs : List α} {ys : List β}
    (hxy : List.Forall₂ S xs ys) {f : Nat → α → Exec ε γ} {g : β → γ}
    (h : ∀ x y, S x y → Evals (fun n => f n x) (ok (g y))) :
    Evals (fun n => xs.mapM (f n)) (ok (ys.map g)) := by
  induction hxy with
  | nil => exact .const _
  | @cons x y xs ys hs _ ih =>
    simp only [List.mapM_cons]
    exact (h x y hs).bind (ih.bind (.const _))

/-- **A search over calls.** -/
theorem Evals.findMapM {S : α → β → Prop} {xs : List α} {ys : List β}
    (hxy : List.Forall₂ S xs ys) {f : Nat → α → Exec ε (Option γ)} {g : β → Option γ}
    (h : ∀ x y, S x y → Evals (fun n => f n x) (ok (g y))) :
    Evals (fun n => findMapM (f n) xs) (ok (ys.findSome? g)) := by
  induction hxy with
  | nil => exact .const _
  | @cons x y xs ys hs _ ih =>
    refine Evals.bind (g := fun n t => match t with
      | some c => ok (some c)
      | none => Exec.findMapM (f n) xs) (h x y hs) ?_
    rw [List.findSome?_cons]
    cases g y with
    | some c => exact .const _
    | none => exact ih

end Exec

end Rust
