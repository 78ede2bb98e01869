/-
  REGISTRY KEYS: every key of a hive and every value of a key, as records.

  `walk_keys` and `walk_all_values` take the keys of the hive from the breadth-first iterator and
  skip the items that are errors; `walk_values` opens one key by its path.  All of them turn
  failures into missing records, so they return lists, not results.

  1. **Records** — a key with its path, a value with a preview of its data.
  2. **Walkers** — the loop over the items of the iterator, and what is done with a key.
  3. **Folding** — where the iterator yields some items, the loop is the fold over the keys among
     them (`forKeys_yields`); a loop that comes back has listed the subkeys of every key in reach
     (`listingsReturn_of_forKeys`).
-/
import Winreg.Core.Detect
import Winreg.Core.IterOrder
import Winreg.Core.Path

namespace Winreg

open Rust Relation

namespace RegistryKeys

/-! ## Records -/

/-- Metadata for a single registry key. -/
structure RegistryKeyInfo where
  path : Str
  name : Str
  lastWritten : Option Str
  subkeyCount : Nat
  valueCount : Nat
deriving DecidableEq, Repr

/-- Metadata for a single registry value. -/
structure RegistryValueInfo where
  keyPath : Str
  name : Str
  dataType : Str
  dataPreview : Str
  rawSize : Nat
deriving DecidableEq, Repr

/-- Truncate a string to at most `maxChars` characters. -/
def truncateString (s : Str) (maxChars : Nat) : Str :=
  if s.length > maxChars then s.take maxChars else s

/-- `format!("0x{n:0widthX} ({n})")`. -/
def numberPreview (width n : Nat) : Str :=
  "0x".toList ++ hexUpper width n ++ " (".toList ++ decimal n ++ ")".toList

/-- A readable preview of the data of a value. -/
def buildPreview (r : CellReader) (v : Value) : Exec HiveError Str :=
  match v.dataType with
  | .sz | .expandSz | .link => do
    let s ← (v.asString r).unwrapOr []
    .ok (truncateString s 256)
  | .dword => do
    let n ← (v.asU32 r).unwrapOr 0
    .ok (numberPreview 8 n.toNat)
  | .dwordBigEndian => do
    let n ← (v.asU32Be r).unwrapOr 0
    .ok (numberPreview 8 n.toNat)
  | .qword => do
    let n ← (v.asU64 r).unwrapOr 0
    .ok (numberPreview 16 n.toNat)
  | .multiSz => do
    let parts ← (v.asMultiString r).unwrapOr []
    .ok (truncateString (" | ".toList.intercalate parts) 256)
  | _ => do
    let data ← (v.rawData r).unwrapOr []
    let preview ← slice data 0 (min data.length 32)
    let s := " ".toList.intercalate (preview.map fun b => hexUpper 2 b.toNat)
    .ok (if data.length > 32 then s ++ "...".toList else s)

/-- What is reported of a value, with the path of its key. -/
def valueToInfo (r : CellReader) (keyPath : Str) (v : Value) :
    Exec HiveError RegistryValueInfo := do
  let dataPreview ← buildPreview r v
  .ok ⟨keyPath, v.name, v.dataType.name, dataPreview, v.dataSize.toNat⟩

/-! ## Walkers -/

/-- The path of a key; that of the root is empty, and so is one that cannot be read. -/
def keyPath (r : CellReader) (key : Key) : Exec HiveError Str :=
  if key.node.isRoot then .ok [] else (key.path r).unwrapOr []

/-- The path of a key of a readable tree: the last 513 names on the way from the root. -/
theorem keyPath_below {hive : Hive} {root k : Key} (tree : PathTree hive.reader root)
    {names : List Str} (h : Below hive.reader root names k) :
    keyPath hive.reader k = .ok (['\\'].intercalate (names.reverse.take 513).reverse) := by
  unfold keyPath
  have hflag := tree.hiveEntry k h.reachable
  by_cases hk : k = root
  · subst hk
    obtain rfl : names = [] := h.root_names tree.consistent rfl
    rw [if_pos (hflag.mpr rfl)]
    rfl
  · rw [if_neg (mt hflag.mp hk), path_eq tree h hk, Exec.unwrapOr_ok]

/-- The records of the values of a key; none where the values cannot be listed. -/
def valueInfos (r : CellReader) (path : Str) (key : Key) :
    Exec HiveError (List RegistryValueInfo) := do
  match ← (key.values r).attempt with
  | .error _ => .ok []
  | .ok values => values.mapM (valueToInfo r path)

/-- What `walk_all_values` records of a key. -/
def keyValues (r : CellReader) (key : Key) : Exec HiveError (List RegistryValueInfo) := do
  let path ← keyPath r key
  valueInfos r path key

/-- One pass of `for item in iter`; an item that is an error is skipped. -/
def forPass {σ : Type} (next : List Key → Exec HiveError IterStep)
    (visit : σ → Key → Exec HiveError σ) (s : List Key × σ) :
    Exec HiveError (Exec.Pass (List Key × σ) σ) := do
  match ← next s.1 with
  | none => .ok (.leave s.2)
  | some (.error _, pending) => .ok (.again (pending, s.2))
  | some (.ok key, pending) => do
    let acc ← visit s.2 key
    .ok (.again (pending, acc))

/-- Visit the keys of a hive in breadth-first order. -/
def walk {σ : Type} (hive : Hive) (visit : σ → Key → Exec HiveError σ) (acc : σ) (n : Nat) :
    Exec HiveError σ := do
  match ← hive.rootKey.attempt with
  | .error _ => .ok acc
  | .ok root => Exec.loop (forPass (BfsIter.next hive.reader n) visit) n ([root], acc)

section Time

variable {Timestamp : Type} (jiff : Jiff Timestamp) (strftime : Str → Timestamp → Option Str)

/-- What `walk_keys` records of a key. -/
def keyInfo (r : CellReader) (key : Key) : Exec HiveError RegistryKeyInfo := do
  let path ← keyPath r key
  let lastWritten := (key.lastWritten jiff).bind (strftime "%Y-%m-%dT%H:%M:%S".toList)
  .ok ⟨path, key.name, lastWritten, key.node.subkeyCount.toNat, key.node.valueCount.toNat⟩

/-- Walk all keys of the hive. -/
def walkKeys (hive : Hive) (n : Nat) : Exec HiveError (List RegistryKeyInfo) :=
  walk hive (fun result key => do
    let info ← keyInfo jiff strftime hive.reader key
    .ok (result ++ [info])) [] n

end Time

/-- Walk all values of the key at a path. -/
def walkValues (hive : Hive) (path : Str) (n : Nat) : Exec HiveError (List RegistryValueInfo) := do
  match ← (hive.openKey n path).attempt with
  | .ok (some key) => valueInfos hive.reader path key
  | _ => .ok []

/-- Walk all values of all keys of the hive. -/
def walkAllValues (hive : Hive) (n : Nat) : Exec HiveError (List RegistryValueInfo) :=
  walk hive (fun result key => do
    let infos ← keyValues hive.reader key
    .ok (result ++ infos)) [] n

/-! ## Folding -/

section Folding

variable {r : CellReader} {σ : Type} {visit : σ → Key → Exec HiveError σ}

/-- The keys among some items. -/
def keysOf (items : List IterItem) : List Key := items.filterMap Except.toOption

/-- **The loop over an iterator** is the fold over the keys that it yields. -/
theorem forKeys_yields {next : Nat → List Key → Exec HiveError IterStep} {pending : List Key}
    {out : List IterItem} (h : Yields next pending out) : ∀ acc, ∃ N, ∀ m n, N ≤ m → N ≤ n →
      Exec.loop (forPass (next m) visit) n (pending, acc) = (keysOf out).foldlM visit acc := by
  induction h with
  | nil hnext =>
    refine fun acc => ⟨1, fun m n _ hn => ?_⟩
    obtain ⟨k, rfl⟩ : ∃ k, n = k + 1 := ⟨n - 1, by omega⟩
    have hpass : forPass (next m) visit ([], acc) = .ok (.leave acc) := by
      rw [forPass, hnext m]
      rfl
    rw [Exec.loop_leave hpass]
    rfl
  | @step pending pending' item out hnext _ ih =>
    intro acc
    obtain ⟨M, hM⟩ := hnext
    cases item with
    | error e =>
      -- the error is skipped: the accumulator stays, and the fold has no key here
      obtain ⟨N, hN⟩ := ih acc
      refine ⟨max M N + 1, fun m n hm hn => ?_⟩
      obtain ⟨k, rfl⟩ : ∃ k, n = k + 1 := ⟨n - 1, by omega⟩
      have hyield : next m pending = .ok (some (.error e, pending')) := hM m (by omega)
      have hpass : forPass (next m) visit (pending, acc) = .ok (.again (pending', acc)) := by
        rw [forPass, hyield]
        rfl
      rw [Exec.loop_again hpass, hN m k (by omega) (by omega)]
      rfl
    | ok key =>
      have hloop : ∀ m k, M ≤ m → Exec.loop (forPass (next m) visit) (k + 1) (pending, acc) =
          visit acc key >>= fun acc => Exec.loop (forPass (next m) visit) k (pending', acc) := by
        intro m k hm
        have hyield : next m pending = .ok (some (.ok key, pending')) := hM m hm
        rw [Exec.loop, forPass, hyield, Exec.ok_bind, bind_assoc]
        rfl
      show ∃ N, ∀ m n, N ≤ m → N ≤ n → _ = (key :: keysOf out).foldlM visit acc
      rw [List.foldlM_cons]
      rcases hvisit : visit acc key with acc' | e | _ | _
      · obtain ⟨N, hN⟩ := ih acc'
        refine ⟨max M N + 1, fun m n hm hn => ?_⟩
        obtain ⟨k, rfl⟩ : ∃ k, n = k + 1 := ⟨n - 1, by omega⟩
        rw [hloop m k (by omega), hvisit, Exec.ok_bind, hN m k (by omega) (by omega), Exec.ok_bind]
      -- a visit that fails ends the loop and the fold
      all_goals
        refine ⟨M + 1, fun m n hm hn => ?_⟩
        obtain ⟨k, rfl⟩ : ∃ k, n = k + 1 := ⟨n - 1, by omega⟩
        rw [hloop m k (by omega), hvisit]
        rfl

/-- **A loop that comes back** has listed the subkeys of every key in reach of the queue. -/
theorem subkeys_of_forKeys {m : Nat} : ∀ (n : Nat) {pending : List Key} {acc res : σ},
    Exec.loop (forPass (BfsIter.next r m) visit) n (pending, acc) = .ok res →
      ∀ k ∈ pending, ∀ w, ReflTransGen (Kids r) k w → (w.subkeys r m).Returns
  | 0, _, _, _, h => by cases h
  | n + 1, [], _, _, _ => fun k hk => absurd hk List.not_mem_nil
  | n + 1, key :: rest, acc, res, h => by
    obtain ⟨p, hp, hloop⟩ := Exec.bind_eq_ok.mp h
    obtain ⟨step, hstep, hp⟩ := Exec.bind_eq_ok.mp hp
    obtain ⟨listing, hlisting, hstep⟩ := Exec.bind_eq_ok.mp hstep
    cases hsub : key.subkeys r m with
    | panic => rw [hsub] at hlisting; cases hlisting
    | timeout => rw [hsub] at hlisting; cases hlisting
    | err e =>
      -- the queue loses its head, and nothing below the head is in reach
      rw [hsub] at hlisting
      obtain rfl := Exec.ok.inj hlisting
      obtain rfl := Exec.ok.inj hstep
      obtain rfl := Exec.ok.inj hp
      intro k hk w hw
      rcases List.mem_cons.mp hk with rfl | hk
      · rcases ReflTransGen.cases_head hw with rfl | ⟨kid, hkid, _⟩
        · exact .inr ⟨e, hsub⟩
        · exact absurd hkid (not_kids_of_err hsub)
      · exact subkeys_of_forKeys n hloop k hk w hw
    | ok kids =>
      rw [hsub] at hlisting
      obtain rfl := Exec.ok.inj hlisting
      obtain rfl := Exec.ok.inj hstep
      obtain ⟨acc', _, hp⟩ := Exec.bind_eq_ok.mp hp
      obtain rfl := Exec.ok.inj hp
      intro k hk w hw
      rcases List.mem_cons.mp hk with rfl | hk
      · rcases ReflTransGen.cases_head hw with rfl | ⟨kid, hkid, hrest⟩
        · exact .inl ⟨kids, hsub⟩
        · have hmem := (kids_iff_mem hsub).mp hkid
          exact subkeys_of_forKeys n hloop kid (List.mem_append_right _ hmem) w hrest
      · exact subkeys_of_forKeys n hloop k (List.mem_append_left _ hk) w hw

/-- A loop over the keys that has come back has listed every key in reach. -/
theorem listingsReturn_of_forKeys {m n : Nat} {key : Key} {acc res : σ}
    (h : Exec.loop (forPass (BfsIter.next r m) visit) n ([key], acc) = .ok res) :
    ListingsReturn r key := by
  intro w hw
  have hreturns := subkeys_of_forKeys n h key (List.mem_singleton_self key) w hw
  exact ⟨_, hreturns, (subkeys_grows w).evals hreturns.ne_timeout⟩

end Folding

end RegistryKeys

end Winreg
