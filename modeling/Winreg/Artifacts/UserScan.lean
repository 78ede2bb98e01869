/-
  WHAT A SCAN OF USERS' HIVES FINDS.

  1. **Users** — a hit has the user of its hive where one is known; filling in a user later does
     not change it any more (`backfill_backfill`).
  2. **Hits of a user** — the hits of the catalog in the registry of one user: `reg.userHits`.
  3. **The scan** — a scan of hives that show registries finds the hits of each, one hive after the
     other, whatever the other hives hold (`scanUsers_finds`).
-/
import Winreg.Artifacts.ScanHits
import Winreg.Artifacts.Attribution

namespace Winreg

open Rust Relation Exec

namespace Catalog

open PathExpansion TestUtil

variable {Timestamp : Type}

/-! ## Users -/

/-- The user, if there is a name for it. -/
def known (identity : UserIdentity) : Option UserIdentity :=
  (identity.sid.or identity.profile).map fun _ => identity

/-- A hit of a user. -/
def ofUser (identity : UserIdentity) (hit : CatalogHit Timestamp) : CatalogHit Timestamp :=
  { hit with user := known identity }

/-- A hit is filled in once. -/
theorem backfill_backfill (identity other : UserIdentity) (hit : CatalogHit Timestamp) :
    backfill other (backfill identity hit) = backfill identity hit := by
  by_cases h : (hit.user.isNone && hit.bindings.any fun b => b.kind = .user) = true
  · have hfilled : backfill identity hit = { hit with user := some identity } := if_pos h
    rw [hfilled]
    rfl
  · have hkept : backfill identity hit = hit := if_neg h
    rw [hkept]
    exact if_neg h

/-- The user is filled in where the binding that goes first tells one. -/
theorem backfill_eq_ofUser {identity : UserIdentity} {hit : CatalogHit Timestamp}
    {bindings : List Binding} (huser : hit.user = none)
    (hhit : hit.bindings = userBindingFor identity ++ bindings) (hrest : Userless bindings) :
    backfill identity hit = ofUser identity hit := by
  have hnone : bindings.any (fun b => b.kind = .user) = false :=
    List.any_eq_false.mpr fun b hb => by simpa using hrest b hb
  have hany : hit.bindings.any (fun b => b.kind = .user) = (known identity).isSome := by
    rw [hhit, List.any_append, hnone, Bool.or_false, userBindingFor, known]
    cases identity.sid.or identity.profile with
    | none => rfl
    | some v => rfl
  rw [backfill, hany, huser, ofUser, known]
  cases identity.sid.or identity.profile with
  | none =>
    show hit = { hit with user := none }
    rw [← huser]
  | some v => rfl

/-- No derivation binds a user. -/
theorem userless_of_derivation {V : Type} {name : V → Str} {children : V → List V}
    {sets : List Str} (levels : Nat) (v : V) (segments : List Segment) :
    ∀ d ∈ derivations name children sets levels v segments, Userless d.bindings := by
  refine forall_derivations (P := fun _ d => Userless d.bindings)
    (fun _ b hb => absurd hb List.not_mem_nil) (fun _ child _ segment huser d hd b hb => ?_)
    levels v segments
  rcases List.mem_append.mp hb with hb | hb
  · cases segment with
    | literal n => cases hb
    | var domain pattern =>
      rw [List.mem_singleton.mp hb]
      exact fun h => huser pattern (congrArg (Segment.var · pattern) h)
  · exact hd b hb

/-! ## Hits of a user -/

/-- The template of a descriptor in a user's hive, if its cuts do not abort. -/
def userTemplateOf (target : Option HiveTarget) (descriptor : ArtifactDescriptor) :
    Option (List Segment) :=
  match rawPath target descriptor with
  | .ok (some path) => templateOf path false
  | _ => none

section Hits

variable (reg : Registry) (jiff : Jiff Timestamp) (catalog : List ArtifactDescriptor)

/-- The hits of a descriptor in the hive of a user. -/
noncomputable def userHitsOf (root : reg.Node) (identity : UserIdentity)
    (descriptor : ArtifactDescriptor) : List (CatalogHit Timestamp) :=
  if isRegistry descriptor.artifactType then
    (userTemplateOf (hiveTargetFor reg.hiveType) descriptor).elim []
      (descriptorHits reg jiff root ["ControlSet001".toList] (userBindingFor identity) descriptor)
  else []

/-- The hits of a catalog in the hive of a user. -/
noncomputable def userHits (identity : UserIdentity) : List (CatalogHit Timestamp) :=
  (reg.root.elim [] fun root => catalog.flatMap (userHitsOf reg jiff root identity)).map
    (ofUser identity)

/-- The paths that are looked for in a user's hive are cut between characters. -/
def UserPathsReturn : Prop :=
  ∀ descriptor ∈ catalog, isRegistry descriptor.artifactType →
    ∃ path, rawPath (hiveTargetFor reg.hiveType) descriptor = .ok path ∧
      ∀ raw, path = some raw → ∃ template, templateSegments raw false = .ok template

variable {reg jiff catalog}

/-- The hits of a user are filled in with that user. -/
theorem backfill_userHitsOf {root : reg.Node} {identity : UserIdentity}
    {descriptor : ArtifactDescriptor} {hit : CatalogHit Timestamp}
    (h : hit ∈ userHitsOf reg jiff root identity descriptor) :
    backfill identity hit = ofUser identity hit := by
  unfold userHitsOf at h
  split at h
  · obtain ⟨segments, _, h⟩ := mem_elim_nil.mp h
    obtain ⟨d, hd, h⟩ := List.mem_flatMap.mp h
    have huserless := userless_of_derivation _ _ segments d (List.mem_of_mem_take hd)
    obtain ⟨_, _, _, _, rfl⟩ := mem_hitsAt h
    exact backfill_eq_ofUser rfl rfl huserless
  · cases h

/-- The hits of a user are not filled in again. -/
theorem backfill_userHits {identity : UserIdentity} (other : UserIdentity)
    {hit : CatalogHit Timestamp} (h : hit ∈ userHits reg jiff catalog identity) :
    backfill other hit = hit := by
  obtain ⟨raw, hraw, rfl⟩ := List.mem_map.mp h
  obtain ⟨root, _, hraw⟩ := mem_elim_nil.mp hraw
  obtain ⟨descriptor, _, hraw⟩ := List.mem_flatMap.mp hraw
  rw [← backfill_userHitsOf hraw, backfill_backfill]

/-- The user of a hit. -/
theorem user_of_mem_userHits {identity : UserIdentity} {hit : CatalogHit Timestamp}
    (h : hit ∈ userHits reg jiff catalog identity) : hit.user = known identity := by
  obtain ⟨raw, _, rfl⟩ := List.mem_map.mp h
  rfl

end Hits

/-! ## The scan -/

section Scan

variable {hive : Hive} {reg : Registry} {rel : Key → reg.Node → Prop} (jiff : Jiff Timestamp)
  {catalog : List ArtifactDescriptor}

/-- The loop over the catalog. -/
theorem resolvePaths_evals (shows_ : hive.Shows reg rel) {root : Key} {a : reg.Node}
    (hroot : hive.rootKey = .ok root) (ha : rel root a) (identity : UserIdentity)
    (hpaths : UserPathsReturn reg catalog) (hits : List (CatalogHit Timestamp)) :
    Evals (fun n => resolvePaths catalog (hiveTargetFor reg.hiveType)
        (fun descriptor path hits => resolveDescriptor jiff hive.reader n root descriptor path false
          none (userBindingFor identity) hits) hits)
      (.ok (hits ++ catalog.flatMap (userHitsOf reg jiff a identity))) := by
  have hsame : List.Forall₂ (fun d d' => d = d' ∧ d ∈ catalog) catalog catalog :=
    List.forall₂_same.mpr fun d hd => ⟨rfl, hd⟩
  refine Evals.appends hsame ?_ hits
  rintro d _ ⟨rfl, hd⟩ hits
  unfold userHitsOf userTemplateOf
  by_cases hregistry : isRegistry d.artifactType = true
  · obtain ⟨path, hpath, htemplates⟩ := hpaths d hd hregistry
    simp only [hregistry, Bool.not_true, Bool.false_eq_true, if_false, if_true, hpath]
    cases path with
    | none =>
      rw [Option.elim_none, List.append_nil]
      exact .const _
    | some raw =>
      obtain ⟨template, htemplate⟩ := htemplates raw rfl
      have hsegments : templateOf raw false = template := by rw [templateOf, htemplate]
      dsimp only
      rw [hsegments]
      exact resolveDescriptor_evals jiff shows_ hroot ha htemplate none _ hits
  · simp only [hregistry, Bool.not_false, Bool.false_eq_true, if_false, if_true, List.append_nil]
    exact .const _

/-- One hive adds its hits to those of the hives before it. -/
theorem scanUser_evals (shows_ : hive.Shows reg rel) (identity : UserIdentity)
    (hpaths : UserPathsReturn reg catalog) {hits : List (CatalogHit Timestamp)}
    (hsettled : ∀ hit ∈ hits, backfill identity hit = hit) :
    Evals (fun n => scanUser jiff catalog n hits ⟨identity, hive⟩)
      (.ok (hits ++ userHits reg jiff catalog identity)) := by
  unfold scanUser userHits
  refine Evals.bind (detectHiveType_evals shows_) ?_
  have hstart := shows_.root
  dsimp only
  generalize hopen : hive.rootKey = x, reg.root = o at hstart
  cases hstart with
  | error e =>
    rw [Option.elim_none, List.map_nil, List.append_nil]
    exact .const _
  | @value root a ha =>
    refine Evals.bind (.const _) ?_
    rw [Option.elim_some]
    -- the pass that fills in users goes over the earlier hits too, and leaves them
    have hfill : (hits ++ catalog.flatMap (userHitsOf reg jiff a identity)).map
        (backfill identity) =
          hits ++ (catalog.flatMap (userHitsOf reg jiff a identity)).map (ofUser identity) := by
      rw [List.map_append]
      congr 1
      · exact (List.map_congr_left hsettled).trans (List.map_id hits)
      · refine List.map_congr_left fun hit hhit => ?_
        obtain ⟨descriptor, _, hhit⟩ := List.mem_flatMap.mp hhit
        exact backfill_userHitsOf hhit
    rw [← hfill]
    exact (resolvePaths_evals jiff shows_ hopen ha identity hpaths hits).bind (.const _)

/-- A user and what the hive of the user shows. -/
structure ShownUser where
  identity : UserIdentity
  registry : Registry

/-- The hive of a user shows a registry, in which the paths of a catalog can be looked for. -/
structure ShowsUser (catalog : List ArtifactDescriptor) (uh : UserHive) (u : ShownUser) : Prop where
  identity : uh.identity = u.identity
  shows_ : ∃ rel, uh.hive.Shows u.registry rel
  paths : UserPathsReturn u.registry catalog

/-- A scan of users' hives returns the hits of each hive in its registry, hive after hive. -/
theorem scanUsers_evals {userHives : List UserHive} {users : List ShownUser}
    (h : List.Forall₂ (ShowsUser catalog) userHives users) :
    Evals (fun n => scanUsers jiff catalog n userHives)
      (.ok (users.flatMap fun u => userHits u.registry jiff catalog u.identity)) := by
  -- along the hives: the hits so far have their users, so no later user is filled in
  have hrun : ∀ hits : List (CatalogHit Timestamp),
      (∀ hit ∈ hits, ∀ identity, backfill identity hit = hit) →
      Evals (fun n => userHives.foldlM (scanUser jiff catalog n) hits)
        (.ok (hits ++ users.flatMap fun u => userHits u.registry jiff catalog u.identity)) := by
    induction h with
    | nil =>
      intro hits _
      rw [List.flatMap_nil, List.append_nil]
      exact .const _
    | @cons uh u userHives users huser _ ih =>
      intro hits hsettled
      obtain ⟨identity, hive⟩ := uh
      obtain ⟨rfl, ⟨rel, hshows⟩, hpaths⟩ := huser
      rw [List.flatMap_cons, ← List.append_assoc]
      have hone := scanUser_evals jiff hshows u.identity hpaths
        fun hit hhit => hsettled hit hhit u.identity
      refine hone.bind (g := fun n hits => userHives.foldlM (scanUser jiff catalog n) hits)
        (ih _ fun hit hhit other => ?_)
      rcases List.mem_append.mp hhit with hhit | hhit
      · exact hsettled hit hhit other
      · exact backfill_userHits other hhit
  exact hrun [] fun hit hhit => absurd hhit List.not_mem_nil

/-- **What a scan of users' hives finds**: the hits of each hive in its registry, in order, and each
    hit with the user whose hive it is of.  What has been found for one user is not looked at again,
    apart from hits that have no user yet. -/
theorem scanUsers_finds {userHives : List UserHive} {users : List ShownUser}
    (h : List.Forall₂ (ShowsUser catalog) userHives users) :
    ∃ hits, Evals (fun n => scanUsers jiff catalog n userHives) (.ok hits) ∧
      hits = users.flatMap (fun u => userHits u.registry jiff catalog u.identity) ∧
      ∀ hit ∈ hits, ∃ u ∈ users, hit ∈ userHits u.registry jiff catalog u.identity ∧
        hit.user = known u.identity := by
  refine ⟨_, scanUsers_evals jiff h, rfl, fun hit hhit => ?_⟩
  obtain ⟨u, hu, hhit⟩ := List.mem_flatMap.mp hhit
  exact ⟨u, hu, hhit, user_of_mem_userHits hhit⟩

end Scan

/-- The hive of a user, with a program that is started at logon. -/
def logonBuilder : TestHiveBuilder where
  keys := ["Environment".toList]
  values := [⟨"Software\\Run".toList, "Updater".toList, 1, utf16leBytes "a.exe".toList⟩]
  keyFiletime := 0

set_option maxRecDepth 20000 in
/-- The sample can be written. -/
theorem logonBuilder_valid : logonBuilder.Valid where
  components := by decide
  valueNames := by decide
  children p := by
    have hlen : (logonBuilder.childNames p).length ≤ logonBuilder.closure.length :=
      List.length_filterMap_le _ _
    exact hlen.trans (by decide)
  data := by decide

/-- Started at the logon of any user. -/
def logonDescriptor : ArtifactDescriptor where
  id := "logon".toList
  name := "Logon".toList
  artifactType := .registryKey
  hive := none
  keyPath := "HKU\\SID\\Software\\Run".toList
  valueName := none
  decoder := .identity
  meaning := "started at logon".toList
  mitreTechniques := []

set_option maxRecDepth 20000 in
/-- The path is cut between characters. -/
theorem logon_pathsReturn : UserPathsReturn logonBuilder.registry [logonDescriptor] := by
  intro descriptor hd _
  have htype : logonBuilder.registry.hiveType = .ntUser := by decide
  rw [htype, List.mem_singleton.mp hd]
  refine ⟨some "Software\\Run".toList, by decide, ?_⟩
  rintro _ ⟨⟩
  exact ⟨some [.literal "Software".toList, .literal "Run".toList], by decide⟩

/-- What the descriptor finds. -/
def logonHit (identity : UserIdentity) : CatalogHit Int where
  catalogId := logonDescriptor.id
  artifactName := logonDescriptor.name
  meaning := logonDescriptor.meaning
  keyPath := "Software\\Run".toList
  valueName := some "Updater".toList
  valueData := "a.exe".toList
  mitreTechniques := []
  needsSpecializedDecoder := false
  user := known identity
  bindings := userBindingFor identity
  lastWritten := none

set_option maxRecDepth 20000 in
/-- The one hit, for any user. -/
theorem userHits_logon (identity : UserIdentity) :
    userHits logonBuilder.registry (⟨some, fun _ => none⟩ : Jiff Int) [logonDescriptor] identity =
      [logonHit identity] := by
  have htype : hiveTargetFor logonBuilder.registry.hiveType = some .ntUser := by decide
  have hregistry : isRegistry logonDescriptor.artifactType = true := rfl
  have htemplate : userTemplateOf (some .ntUser) logonDescriptor =
      some [.literal "Software".toList, .literal "Run".toList] := by decide
  obtain ⟨root, hroot, hkey⟩ : ∃ root, logonBuilder.registry.root = some root ∧
      firstNamed logonBuilder.registry.name logonBuilder.registry.subkeyList root
        "Software".toList = some (logonBuilder.nodeAt "Software".toList) := ⟨_, rfl, by decide⟩
  rw [userHits, hroot, Option.elim_some, List.flatMap_singleton, userHitsOf, if_pos hregistry,
    htype, htemplate, Option.elim_some, descriptorHits,
    matchesOf_names _ hkey (c := logonBuilder.nodeAt "Software\\Run".toList) (by decide),
    List.flatMap_singleton, List.append_nil]
  rfl

set_option maxRecDepth 20000 in
/-- A scan of the written sample returns it. -/
theorem scanUsers_finds_logon : ∃ image hive,
    (logonBuilder.build 4 : Exec HiveError Bytes) = .ok image ∧ Hive.fromBytes image = .ok hive ∧
      Evals (fun n => scanUsers (⟨some, fun _ => none⟩ : Jiff Int) [logonDescriptor] n
          [⟨⟨some "alice".toList, none⟩, hive⟩, ⟨⟨none, none⟩, hive⟩])
        (.ok [logonHit ⟨some "alice".toList, none⟩, logonHit ⟨none, none⟩]) := by
  obtain ⟨image, hive, hbuild, hopen, hshows⟩ :=
    build_shows logonBuilder_valid (n := 4) (by decide) (by decide)
  have huser : ∀ identity, ShowsUser [logonDescriptor] ⟨identity, hive⟩
      ⟨identity, logonBuilder.registry⟩ := fun _ => ⟨rfl, ⟨_, hshows⟩, logon_pathsReturn⟩
  obtain ⟨hits, hrun, hhits, _⟩ := scanUsers_finds (⟨some, fun _ => none⟩ : Jiff Int)
    (.cons (huser ⟨some "alice".toList, none⟩) (.cons (huser ⟨none, none⟩) .nil))
  rw [List.flatMap_cons, List.flatMap_singleton, userHits_logon, userHits_logon] at hhits
  subst hhits
  exact ⟨image, hive, hbuild, hopen, hrun⟩

end Catalog

end Winreg
