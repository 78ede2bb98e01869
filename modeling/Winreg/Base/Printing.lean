/-
  PRINTING: programs that print lines until they end or fail.

  A line that was printed stays printed, so a program that stops at an error has shown the first part
  of what it would have shown.  A printing program takes the lines that are printed already and
  gives back these and its own, in the error too.

  1. **Outputs** — what a part of a program prints and whether it gets to its end; one part follows
     another only where that one got to its end (`Output.andThen`).
  2. **Programs** — `Prints f o`: after whatever was printed before, `f` prints the output `o`.
  3. **Rules** — printing a line, reading with `?`, one part after another, and a loop.
-/
import Winreg.Base.Dropped
import Winreg.Base.Text

namespace Rust

variable {ε δ α β γ : Type}

/-! ## Outputs -/

/-- The lines that a part of a program prints, and whether it ends without an error. -/
structure Output where
  lines : List Str
  complete : Bool
deriving DecidableEq, Repr

namespace Output

/-- A part that ends after some lines. -/
def say (lines : List Str) : Output := ⟨lines, true⟩

/-- A part that fails at once. -/
def failed : Output := ⟨[], false⟩

/-- One part, and the other one unless the first fails. -/
def andThen (a b : Output) : Output :=
  if a.complete then ⟨a.lines ++ b.lines, b.complete⟩ else a

/-- One part after the other. -/
def all (parts : List Output) : Output := parts.foldr andThen (say [])

/-- Nothing is printed behind a failure. -/
@[simp] theorem failed_andThen (b : Output) : failed.andThen b = failed := rfl

/-- Printing nothing first makes no difference. -/
@[simp] theorem nil_andThen (b : Output) : (say []).andThen b = b := rfl

/-- Nor does printing nothing last. -/
@[simp] theorem andThen_nil (a : Output) : a.andThen (say []) = a := by
  obtain ⟨lines, complete⟩ := a
  cases complete with
  | false => rfl
  | true => rw [andThen, if_pos rfl, show (say []).lines = [] from rfl, List.append_nil]; rfl

/-- What comes after a failure is lost, however it is grouped. -/
theorem andThen_assoc (a b c : Output) : (a.andThen b).andThen c = a.andThen (b.andThen c) := by
  obtain ⟨la, ca⟩ := a
  obtain ⟨lb, cb⟩ := b
  cases ca <;> cases cb <;> simp [andThen]

@[simp] theorem all_nil : all [] = say [] := rfl

@[simp] theorem all_cons (a : Output) (parts : List Output) :
    all (a :: parts) = a.andThen (all parts) := rfl

/-- Two lists of parts are printed one after the other, up to the first failure. -/
theorem all_append : ∀ (parts more : List Output),
    all (parts ++ more) = (all parts).andThen (all more)
  | [], _ => rfl
  | a :: parts, more => by
    rw [List.cons_append, all_cons, all_cons, all_append parts more, andThen_assoc]

/-- A part that fails where there is nothing, and what follows it. -/
theorem elim_andThen (o : Option α) (h : α → Output) (b : Output) :
    (o.elim failed h).andThen b = o.elim failed fun a => (h a).andThen b := by
  cases o <;> rfl

/-- Parts that consist of parts. -/
theorem all_flatMap (f : α → List Output) : ∀ xs : List α,
    all (xs.flatMap f) = all (xs.map fun x => all (f x))
  | [] => rfl
  | x :: xs => by rw [List.flatMap_cons, all_append, List.map_cons, all_cons, all_flatMap f xs]

/-- Where no part fails, all lines are printed. -/
theorem all_say (f : α → List Str) : ∀ xs : List α,
    all (xs.map fun x => say (f x)) = say (xs.flatMap f)
  | [] => rfl
  | x :: xs => by
    rw [List.map_cons, all_cons, all_say f xs, List.flatMap_cons]
    rfl

end Output

/-! ## Programs -/

/-- An error, and the lines that were printed before it. -/
structure Aborted (ε : Type) where
  error : ε
  printed : List Str
deriving DecidableEq, Repr

/-- `x.map_err(f)` -/
def Exec.mapErr (x : Exec ε α) (f : ε → δ) : Exec δ α :=
  match x with
  | .ok a => .ok a
  | .err e => .err (f e)
  | .panic => .panic
  | .timeout => .timeout

/-- `x?`, after these lines were printed. -/
def Exec.orAbort (x : Exec ε α) (wrap : ε → δ) (printed : List Str) : Exec (Aborted δ) α :=
  x.mapErr fun e => ⟨wrap e, printed⟩

/-- A success does not abort. -/
theorem Exec.ok_orAbort (a : α) (wrap : ε → δ) (printed : List Str) :
    (Exec.ok a : Exec ε α).orAbort wrap printed = .ok a := rfl

/-- A part with `?` fails, or something behind it does. -/
theorem Exec.bind_orAbort_eq_err {x : Exec ε α} {wrap : ε → δ} {printed : List Str}
    {g : α → Exec (Aborted δ) β} {e : Aborted δ} (h : x.orAbort wrap printed >>= g = .err e) :
    e.printed = printed ∨ ∃ a, x = .ok a ∧ g a = .err e := by
  cases x with
  | ok a => exact Or.inr ⟨a, rfl, h⟩
  | err e' =>
    cases h
    exact Or.inl rfl
  | panic => cases h
  | timeout => cases h

/-- A part with `?` ends, and so does what is behind it. -/
theorem Exec.bind_orAbort_eq_ok {x : Exec ε α} {wrap : ε → δ} {printed : List Str}
    {g : α → Exec (Aborted δ) β} {b : β} (h : x.orAbort wrap printed >>= g = .ok b) :
    ∃ a, x = .ok a ∧ g a = .ok b := by
  cases x with
  | ok a => exact ⟨a, rfl, h⟩
  | err e => cases h
  | panic => cases h
  | timeout => cases h

/-- The program ends with these lines, by itself or by an error. -/
inductive Leaves (lines : List Str) : Bool → Exec (Aborted ε) (List Str) → Prop where
  | ended : Leaves lines true (.ok lines)
  | aborted (e : ε) : Leaves lines false (.err ⟨e, lines⟩)

/-- The program prints the output, after what was printed before. -/
def Prints (f : Nat → List Str → Exec (Aborted ε) (List Str)) (o : Output) : Prop :=
  ∀ printed, ∃ x, Exec.Evals (fun n => f n printed) x ∧ Leaves (printed ++ o.lines) o.complete x

/-! ## Rules -/

section Rules

/-- Adding lines to what has been printed prints them. -/
theorem Prints.say (lines : List Str) :
    Prints (fun _ printed => (.ok (printed ++ lines) : Exec (Aborted ε) _)) (.say lines) :=
  fun _ => ⟨_, .const _, .ended⟩

/-- A program that fails at once. -/
theorem Prints.fail (e : ε) :
    Prints (fun _ printed => (.err ⟨e, printed⟩ : Exec (Aborted ε) _)) .failed := by
  intro printed
  refine ⟨_, .const _, ?_⟩
  rw [show printed ++ Output.failed.lines = printed from List.append_nil printed]
  exact .aborted e

/-- Programs that do the same print the same. -/
theorem Prints.congr {f g : Nat → List Str → Exec (Aborted ε) (List Str)} {o : Output}
    (h : Prints f o) (hfg : ∀ n printed, g n printed = f n printed) : Prints g o := by
  intro printed
  obtain ⟨x, hx, hleaves⟩ := h printed
  exact ⟨x, hx.congr fun n => hfg n printed, hleaves⟩

/-- A program of which every budget is one too small. -/
theorem Prints.of_succ {f : Nat → List Str → Exec (Aborted ε) (List Str)} {o : Output}
    (h : Prints (fun n => f (n + 1)) o) : Prints f o := by
  intro printed
  obtain ⟨x, hx, hleaves⟩ := h printed
  exact ⟨x, .of_succ hx, hleaves⟩

/-- **One part after another.** -/
theorem Prints.andThen {f g : Nat → List Str → Exec (Aborted ε) (List Str)} {o o' : Output}
    (hf : Prints f o) (hg : Prints g o') :
    Prints (fun n printed => f n printed >>= g n) (o.andThen o') := by
  intro printed
  obtain ⟨x, hx, hleaves⟩ := hf printed
  obtain ⟨lines, complete⟩ := o
  cases hleaves with
  | ended =>
    obtain ⟨y, hy, hleaves⟩ := hg (printed ++ lines)
    refine ⟨y, hx.bind hy, ?_⟩
    rw [Output.andThen, if_pos rfl]
    rwa [List.append_assoc] at hleaves
  | aborted e =>
    -- what was printed is in the error, and the second part does not run
    obtain ⟨N, hN⟩ := hx
    refine ⟨.err ⟨e, printed ++ lines⟩, ⟨N, fun n hn => ?_⟩, .aborted e⟩
    show f n printed >>= g n = _
    rw [show f n printed = _ from hN n hn]
    rfl

/-- **Reading with `?`**: where there is nothing to read, the program fails. -/
theorem Prints.read {R : α → β → Prop} {x : Nat → Exec ε α} {o : Option β}
    (hx : Exec.KeepsFrom R x o) (wrap : ε → δ)
    {f : Nat → α → List Str → Exec (Aborted δ) (List Str)} {h : β → Output}
    (hf : ∀ a b, R a b → Prints (fun n => f n a) (h b)) :
    Prints (fun n printed => (x n).orAbort wrap printed >>= fun a => f n a printed)
      (o.elim .failed h) := by
  intro printed
  obtain ⟨y, ⟨N, hN⟩, hkeeps⟩ := hx
  cases hkeeps with
  | @value a b hab =>
    obtain ⟨z, ⟨M, hM⟩, hleaves⟩ := hf a b hab printed
    refine ⟨z, ⟨max N M, fun n hn => ?_⟩, hleaves⟩
    dsimp only
    rw [hN n (by omega)]
    exact hM n (by omega)
  | error e =>
    obtain ⟨z, ⟨M, hM⟩, hleaves⟩ := Prints.fail (wrap e) printed
    refine ⟨z, ⟨max N M, fun n hn => ?_⟩, hleaves⟩
    dsimp only
    rw [hN n (by omega)]
    exact hM n (by omega)

/-- **A loop** prints what its passes print. -/
theorem Prints.foldlM {R : α → β → Prop} {xs : List α} {ys : List β}
    {f : Nat → List Str → α → Exec (Aborted ε) (List Str)} {h : β → Output}
    (hxy : List.Forall₂ R xs ys)
    (hf : ∀ a b, R a b → Prints (fun n printed => f n printed a) (h b)) :
    Prints (fun n printed => xs.foldlM (f n) printed) (.all (ys.map h)) := by
  induction hxy with
  | nil =>
    refine (Prints.say []).congr fun _ printed => ?_
    rw [List.append_nil]
    rfl
  | cons hab _ ih => exact (hf _ _ hab).andThen ih

end Rules

end Rust
