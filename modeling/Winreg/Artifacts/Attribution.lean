/-
  WHOSE HITS: every hit of a scan over users' hives belongs to the user of its hive.

  1. **Hits of one user** — a resolver only adds hits, which have no user yet and the user binding
     that it was given (`Added`): it treats the older hits as it treats none (`expand_rel`).
  2. **Hits of all users** — the hits of a scan are those of the hives, one after the other, each
     with the user of its hive: the pass that fills in users finds one in every older hit.
-/
import Winreg.Artifacts.Callbacks
import Winreg.Artifacts.UserPaths

namespace Winreg

open Rust

namespace Catalog

open PathExpansion

variable {Timestamp : Type}

/-! ## Hits of one user -/

/-- Bindings that are not about users. -/
def Userless (bindings : List Binding) : Prop := ∀ b ∈ bindings, b.kind ≠ .user

/-- The bindings about users. -/
def aboutUser (bindings : List Binding) : List Binding := bindings.filter (·.kind = .user)

/-- Of the bindings of a hit, only those of the identity are about the user. -/
theorem aboutUser_userBindingFor (identity : UserIdentity) {bindings : List Binding}
    (h : Userless bindings) :
    aboutUser (userBindingFor identity ++ bindings) = userBindingFor identity := by
  have hrest : bindings.filter (·.kind = .user) = [] :=
    List.filter_eq_nil_iff.mpr fun b hb => by simpa using h b hb
  unfold aboutUser
  rw [List.filter_append, hrest, List.append_nil]
  unfold userBindingFor
  split <;> rfl

/-- New hits behind the old ones: without a user so far, and with one binding about users at most,
    the one for an identity. -/
structure Added (identity : UserIdentity) (old new all : List (CatalogHit Timestamp)) : Prop where
  all_eq : all = old ++ new
  user : ∀ hit ∈ new, hit.user = none
  bindings : ∀ hit ∈ new, aboutUser hit.bindings = userBindingFor identity

/-- One more hit, added in both runs alike, keeps them in step. -/
theorem Added.push {identity : UserIdentity} {old new all : List (CatalogHit Timestamp)}
    (h : Added identity old new all) {hit : CatalogHit Timestamp} (huser : hit.user = none)
    (hbindings : aboutUser hit.bindings = userBindingFor identity) :
    Added identity old (new ++ [hit]) (all ++ [hit]) := by
  refine ⟨by rw [h.all_eq, List.append_assoc], fun other hmem => ?_, fun other hmem => ?_⟩
  · rcases List.mem_append.mp hmem with hmem | hmem
    · exact h.user other hmem
    · rw [List.mem_singleton.mp hmem, huser]
  · rcases List.mem_append.mp hmem with hmem | hmem
    · exact h.bindings other hmem
    · rw [List.mem_singleton.mp hmem, hbindings]

section Resolve

variable {jiff : Jiff Timestamp} {r : CellReader} {n : Nat} {identity : UserIdentity}
  {old new all : List (CatalogHit Timestamp)}

/-- What is made of a value, in all its fields, where it is made. -/
theorem makeHit_eq_ok {descriptor : ArtifactDescriptor} {keyPath : Str} {valueName : Option Str}
    {val : Value} {bindings : List Binding} {lastWritten : Option Timestamp}
    {hit : CatalogHit Timestamp}
    (h : makeHit jiff r descriptor keyPath valueName val bindings lastWritten = .ok hit) :
    hit.user = none ∧ hit.bindings = bindings := by
  unfold makeHit at h
  obtain ⟨rendered, _, h⟩ := Exec.bind_eq_ok.mp h
  cases h
  exact ⟨rfl, rfl⟩

/-- One more hit. -/
theorem makeHit_rel {descriptor : ArtifactDescriptor} {keyPath : Str} {valueName : Option Str}
    {val : Value} {bindings : List Binding} {lastWritten : Option Timestamp}
    (hbindings : Userless bindings) (h : Added identity old new all) :
    Exec.Rel (Added identity old)
      (makeHit jiff r descriptor keyPath valueName val (userBindingFor identity ++ bindings)
        lastWritten >>= fun hit => .ok (new ++ [hit]))
      (makeHit jiff r descriptor keyPath valueName val (userBindingFor identity ++ bindings)
        lastWritten >>= fun hit => .ok (all ++ [hit])) := by
  refine Exec.Rel.after _ fun hit hhit => .ok ?_
  obtain ⟨huser, hb⟩ := makeHit_eq_ok hhit
  exact h.push huser (by rw [hb, aboutUser_userBindingFor identity hbindings])

/-- The hits of one key are added in both runs alike.  By induction on the values of the key, with
    the hits so far as the state. -/
theorem emitKey_rel {descriptor : ArtifactDescriptor} {keyPath : Str} {key : Key}
    {bindings : List Binding} (hbindings : Userless bindings) (h : Added identity old new all) :
    Exec.Rel (Added identity old)
      (emitKey jiff r descriptor keyPath key (userBindingFor identity ++ bindings) new)
      (emitKey jiff r descriptor keyPath key (userBindingFor identity ++ bindings) all) := by
  unfold emitKey
  cases descriptor.valueName with
  | some vname =>
    refine Exec.Rel.after _ fun found _ => ?_
    cases found with
    | error e => exact .ok h
    | ok val =>
      cases val with
      | none => exact .ok h
      | some val => exact makeHit_rel hbindings h
  | none =>
    refine Exec.Rel.after _ fun listed _ => ?_
    cases listed with
    | error e => exact .ok h
    | ok values =>
      refine Exec.Rel.foldlM (fun val _ new all h => ?_) h
      exact makeHit_rel hbindings h

/-- A resolver only adds hits. -/
theorem resolveDescriptor_rel {root : Key} {descriptor : ArtifactDescriptor} {path : Str}
    {stripHiveRoot : Bool} {controlSets : Option ControlSetResolver}
    (h : Added identity old new all) :
    Exec.Rel (Added identity old)
      (resolveDescriptor jiff r n root descriptor path stripHiveRoot controlSets
        (userBindingFor identity) new)
      (resolveDescriptor jiff r n root descriptor path stripHiveRoot controlSets
        (userBindingFor identity) all) := by
  unfold resolveDescriptor
  refine Exec.Rel.after _ fun segments _ => ?_
  cases segments with
  | none => exact .ok h
  | some segments =>
    refine expand_rel (fun new all bindings path key h hmade => ?_) h
    exact emitKey_rel (fun b hb => (hmade b hb).kind_ne_user) h

end Resolve

/-- Two resolvers that keep a relation keep it over the whole catalog, since the loop makes the same
    calls for both. -/
theorem resolvePaths_rel {σ τ : Type} {R : σ → τ → Prop} {catalog : List ArtifactDescriptor}
    {target : Option HiveTarget} {resolve : ArtifactDescriptor → Str → σ → Exec HiveError σ}
    {resolve' : ArtifactDescriptor → Str → τ → Exec HiveError τ}
    (hresolve : ∀ descriptor path s t, R s t →
      Exec.Rel R (resolve descriptor path s) (resolve' descriptor path t))
    {s : σ} {t : τ} (h : R s t) :
    Exec.Rel R (resolvePaths catalog target resolve s)
      (resolvePaths catalog target resolve' t) := by
  refine Exec.Rel.foldlM (fun descriptor _ s t h => ?_) h
  split
  · exact .ok h
  · refine Exec.Rel.after _ fun path _ => ?_
    cases path with
    | none => exact .ok h
    | some path => exact hresolve _ _ _ _ h

/-! ## Hits of all users -/

/-- A hit that belongs to a user: it names the user, and its one binding about users is the SID or,
    if there is none, the profile. -/
structure Attributed (identity : UserIdentity) (hit : CatalogHit Timestamp) : Prop where
  user : hit.user = some identity
  binding : ∃ v, identity.sid.or identity.profile = some v ∧
    aboutUser hit.bindings = [⟨.user, v⟩]

/-- Filling in the user of a new hit. -/
theorem backfill_new {identity : UserIdentity} {v : Str}
    (hv : identity.sid.or identity.profile = some v) {hit : CatalogHit Timestamp}
    (huser : hit.user = none) (hbindings : aboutUser hit.bindings = userBindingFor identity) :
    Attributed identity (backfill identity hit) := by
  have hone : aboutUser hit.bindings = [⟨.user, v⟩] := by
    rw [hbindings, userBindingFor, hv]
  have hmem : (⟨.user, v⟩ : Binding) ∈ aboutUser hit.bindings := by
    rw [hone]
    exact List.mem_singleton_self _
  have hany : hit.bindings.any (fun b => b.kind = .user) = true :=
    List.any_eq_true.mpr ⟨_, List.mem_of_mem_filter hmem, by simp⟩
  rw [backfill, huser, hany]
  exact ⟨rfl, v, hv, hone⟩

/-- Older hits have a user, so filling in another one changes nothing. -/
theorem map_backfill_old {identity : UserIdentity} {old : List (CatalogHit Timestamp)}
    (h : ∀ hit ∈ old, hit.user.isSome) : old.map (backfill identity) = old := by
  refine (List.map_congr_left fun hit hmem => ?_).trans (List.map_id old)
  obtain ⟨user, huser⟩ := Option.isSome_iff_exists.mp (h hit hmem)
  rw [backfill, huser]
  rfl

section Users

variable {jiff : Jiff Timestamp} {catalog : List ArtifactDescriptor} {n : Nat}

/-- **One hive**: behind older hits with a user it adds what it gives alone, and those hits belong
    to its user. -/
theorem scanUser_rel {uh : UserHive}
    (hid : uh.identity.sid.isSome ∨ uh.identity.profile.isSome)
    {old : List (CatalogHit Timestamp)} (hold : ∀ hit ∈ old, hit.user.isSome) :
    Exec.Rel (fun new all => all = old ++ new ∧ ∀ hit ∈ new, Attributed uh.identity hit)
      (scanUser jiff catalog n [] uh) (scanUser jiff catalog n old uh) := by
  obtain ⟨v, hv⟩ : ∃ v, uh.identity.sid.or uh.identity.profile = some v := by
    rw [← Option.isSome_iff_exists, Option.isSome_or]
    simpa using hid
  unfold scanUser
  refine Exec.Rel.after _ fun hiveType _ => Exec.Rel.after _ fun opened _ => ?_
  cases opened with
  | error e => exact .ok ⟨(List.append_nil old).symm, fun hit hmem => absurd hmem List.not_mem_nil⟩
  | ok root =>
    have hstart : Added uh.identity old [] old :=
      ⟨(List.append_nil old).symm, fun hit hmem => absurd hmem List.not_mem_nil,
        fun hit hmem => absurd hmem List.not_mem_nil⟩
    refine Exec.Rel.bind (resolvePaths_rel (fun descriptor path new all h => ?_) hstart)
      fun new all h => .ok ?_
    · exact resolveDescriptor_rel h
    refine ⟨by rw [h.all_eq, List.map_append, map_backfill_old hold], fun hit hmem => ?_⟩
    obtain ⟨raw, hraw, rfl⟩ := List.mem_map.mp hmem
    exact backfill_new hv (h.user raw hraw) (h.bindings raw hraw)

/-- A scan of one hive is one step of the scan. -/
theorem scanUsers_singleton (uh : UserHive) :
    scanUsers jiff catalog n [uh] = scanUser jiff catalog n [] uh := by
  unfold scanUsers
  rw [List.foldlM_cons]
  exact bind_pure _

/-- The hits of a list of hives, behind older hits with a user. -/
theorem foldlM_scanUser : ∀ {userHives : List UserHive},
    (∀ uh ∈ userHives, uh.identity.sid.isSome ∨ uh.identity.profile.isSome) →
    ∀ {old : List (CatalogHit Timestamp)}, (∀ hit ∈ old, hit.user.isSome) →
      userHives.foldlM (scanUser jiff catalog n) old =
        (userHives.mapM fun uh => scanUsers jiff catalog n [uh]) >>= fun parts =>
          .ok (old ++ parts.flatten)
  | [], _, old, _ => by
    rw [List.foldlM_nil, List.mapM_nil, pure_bind, List.flatten_nil, List.append_nil]
    rfl
  | uh :: userHives, hid, old, hold => by
    rw [List.foldlM_cons, List.mapM_cons, bind_assoc, scanUsers_singleton]
    have hrel : Exec.Rel _ (scanUser jiff catalog n [] uh) (scanUser jiff catalog n old uh) :=
      scanUser_rel (hid uh List.mem_cons_self) hold
    generalize scanUser jiff catalog n [] uh = alone at hrel
    generalize scanUser jiff catalog n old uh = behind at hrel
    cases hrel with
    | @ok new all h =>
      have hall : ∀ hit ∈ all, hit.user.isSome := by
        intro hit hmem
        rw [h.1] at hmem
        rcases List.mem_append.mp hmem with hmem | hmem
        · exact hold hit hmem
        · rw [(h.2 hit hmem).user]
          rfl
      rw [Exec.ok_bind, Exec.ok_bind, bind_assoc,
        foldlM_scanUser (fun uh huh => hid uh (List.mem_cons_of_mem _ huh)) hall, h.1]
      refine congrArg _ (funext fun parts => ?_)
      rw [pure_bind, List.flatten_cons, List.append_assoc]
    | err e => rfl
    | panic => rfl
    | timeout => rfl

/-- **No hit belongs to the wrong user**: the hits of a scan are those that each hive gives alone,
    one hive after the other, and each belongs to the user of its hive.  The invariant over the
    hives: the hits so far are done, and the new ones are those that the hive gives alone, with no
    user yet; setting the user of every hit without one then reaches exactly these. -/
theorem scanUsers_attributed (jiff : Jiff Timestamp) (catalog : List ArtifactDescriptor) (n : Nat)
    (userHives : List UserHive)
    (hid : ∀ uh ∈ userHives, uh.identity.sid.isSome ∨ uh.identity.profile.isSome) :
    (scanUsers jiff catalog n userHives =
      (userHives.mapM fun uh => scanUsers jiff catalog n [uh]) >>= fun parts =>
        .ok parts.flatten) ∧
    ∀ hits, scanUsers jiff catalog n userHives = .ok hits →
      ∃ parts, hits = parts.flatten ∧
        List.Forall₂ (fun uh part => scanUsers jiff catalog n [uh] = .ok part ∧
          ∀ hit ∈ part, Attributed uh.identity hit) userHives parts := by
  have hrun : scanUsers jiff catalog n userHives =
      (userHives.mapM fun uh => scanUsers jiff catalog n [uh]) >>= fun parts =>
        .ok parts.flatten :=
    foldlM_scanUser hid fun hit hmem => absurd hmem List.not_mem_nil
  refine ⟨hrun, fun hits hhits => ?_⟩
  rw [hrun] at hhits
  obtain ⟨parts, hparts, hflat⟩ := Exec.bind_eq_ok.mp hhits
  refine ⟨parts, (Exec.ok.inj hflat).symm, ?_⟩
  have hboth := (List.forall₂_and_left _ _).mpr ⟨hid, Exec.mapM_eq_ok hparts⟩
  refine hboth.imp fun uh part ⟨hone, hpart⟩ => ⟨hpart, ?_⟩
  have hrel : Exec.Rel _ (scanUser jiff catalog n [] uh) (scanUser jiff catalog n [] uh) :=
    scanUser_rel hone fun hit hmem => absurd hmem List.not_mem_nil
  rw [scanUsers_singleton] at hpart
  rw [hpart] at hrel
  cases hrel with
  | ok h => exact h.2

end Users

/-- Two users whose hives are the same. -/
def alice : UserHive := ⟨⟨some "alice".toList, some "S-1-5-21-111-1001".toList⟩, markedHive⟩
/-- Another user with the same hive. -/
def bob : UserHive := ⟨⟨some "bob".toList, none⟩, markedHive⟩

/-- The same hive for two users gives two hits, and each has its own user. -/
theorem scanUsers_attributed_same : ∃ n hits,
    scanUsers untimed [marker] n [alice, bob] = .ok hits ∧
    hits.map (·.user) = [some alice.identity, some bob.identity] ∧
    ∃ parts, hits = parts.flatten ∧
      List.Forall₂ (fun uh part => scanUsers untimed [marker] n [uh] = .ok part ∧
        ∀ hit ∈ part, Attributed uh.identity hit) [alice, bob] parts := by
  obtain ⟨N, hN⟩ := scanUsers_marked alice.identity
  obtain ⟨M, hM⟩ := scanUsers_marked bob.identity
  have hid : ∀ uh ∈ [alice, bob], uh.identity.sid.isSome ∨ uh.identity.profile.isSome := by
    decide
  obtain ⟨hrun, hparts⟩ := scanUsers_attributed untimed [marker] (max N M) [alice, bob] hid
  have hhits : scanUsers untimed [marker] (max N M) [alice, bob] =
      .ok [backfill alice.identity (markerHit alice.identity),
        backfill bob.identity (markerHit bob.identity)] := by
    rw [hrun, List.mapM_cons, show scanUsers untimed [marker] (max N M) [alice] = _ from
      hN _ (Nat.le_max_left _ _), List.mapM_cons, show scanUsers untimed [marker] (max N M) [bob] = _
      from hM _ (Nat.le_max_right _ _)]
    rfl
  exact ⟨_, _, hhits, rfl, hparts _ hhits⟩

end Catalog

end Winreg
