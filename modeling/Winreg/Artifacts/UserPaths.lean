/-
  WHICH PATHS A USER'S HIVE IS ASKED FOR: the descriptors that are not for one hive.

  Such a descriptor says where to look below the root of all users: its path goes through
  `HKEY_USERS` or `HKU` and one segment that stands for the user, and the rest is what to look for
  in the hive of one user (`UserPath`).

  1. **One path** — `stripUserPlaceholderPrefix` gives exactly that rest, or aborts.
  2. **The catalog** — `ResolvesUserPaths`: the loop over the catalog asks for the rests and for
     nothing else.  It does so unless the hive has no target, since then a descriptor without a hive
     counts as one for that hive (`scanUser_userPaths_iff`).
-/
import Winreg.Artifacts.CatalogScan
import Winreg.Artifacts.Expansion
import Winreg.Artifacts.Prefixes

namespace Winreg

open Rust Relation

namespace Catalog

open PathExpansion

/-! ## One path -/

/-- The root of all users, ASCII case ignored. -/
def UsersRoot (root : Str) : Prop :=
  eqIgnoreAsciiCase root "HKEY_USERS\\".toList ∨ eqIgnoreAsciiCase root "HKU\\".toList

/-- A path below the root of one user, `HKEY_USERS\<segment>\<rest>` or `HKU\<segment>\<rest>`. -/
def UserPath (raw rest : Str) : Prop :=
  rest ≠ [] ∧ ∃ root segment : Str,
    UsersRoot root ∧ '\\' ∉ segment ∧ raw = root ++ (segment ++ '\\' :: rest)

/-- The two places where a path is cut are between characters. -/
def CutsClean (raw : Str) : Prop :=
  ∀ n, n = utf8Len "HKEY_USERS\\".toList ∨ n = utf8Len "HKU\\".toList → n ≤ utf8Len raw →
    IsCharBoundary raw n

/-- The rest of a path is not the path. -/
theorem not_userPath_self (raw : Str) : ¬ UserPath raw raw := by
  rintro ⟨_, root, segment, hroot, _, hraw⟩
  have hlen := congrArg List.length hraw
  simp only [List.length_append, List.length_cons] at hlen
  omega

/-- Neither root of the users starts with the other. -/
theorem tried_usersRoots : Tried ["HKEY_USERS\\".toList, "HKU\\".toList] where
  ascii := by decide
  ordered := by decide

/-- A path below a root of the users leads behind one of the two. -/
theorem usersRoot_iff {raw t : Str} : (∃ root, UsersRoot root ∧ raw = root ++ t) ↔
    Leads ["HKEY_USERS\\".toList] raw t ∨ Leads ["HKU\\".toList] raw t := by
  rw [leads_singleton, leads_singleton]
  constructor
  · rintro ⟨root, hroot | hroot, hraw⟩
    · exact .inl ⟨root, hraw, hroot⟩
    · exact .inr ⟨root, hraw, hroot⟩
  · rintro (⟨root, hraw, hroot⟩ | ⟨root, hraw, hroot⟩)
    · exact ⟨root, .inl hroot, hraw⟩
    · exact ⟨root, .inr hroot, hraw⟩

/-- The two cuts that the loop makes are between characters. -/
theorem cutsClean_iff (raw : Str) :
    CutsClean raw ↔ ¬ InsideChar raw (utf8Len "HKEY_USERS\\".toList) ∧
      ¬ InsideChar raw (utf8Len "HKU\\".toList) := by
  constructor
  · intro h
    exact ⟨fun hinside => (h _ (.inl rfl) hinside.le_utf8Len).not_insideChar hinside,
      fun hinside => (h _ (.inr rfl) hinside.le_utf8Len).not_insideChar hinside⟩
  · rintro ⟨husers, hku⟩ n hn hlen
    refine (isCharBoundary_or_insideChar hlen).resolve_right ?_
    rcases hn with rfl | rfl
    · exact husers
    · exact hku

/-- Stripping the root of all users. -/
theorem stripUsersRoot_eq (raw : Str) :
    (CutsClean raw ∧ ∃ o, stripUsersRoot raw = .ok o ∧
      ∀ t, o = some t ↔ ∃ root, UsersRoot root ∧ raw = root ++ t) ∨
    (¬ CutsClean raw ∧ stripUsersRoot raw = .panic) := by
  simp only [usersRoot_iff, cutsClean_iff, stripUsersRoot]
  have hfirst := cutOff "HKEY_USERS\\".toList raw
  have hsecond := cutOff "HKU\\".toList raw
  generalize stripPrefixCi raw "HKEY_USERS\\".toList = first at hfirst ⊢
  generalize stripPrefixCi raw "HKU\\".toList = second at hsecond ⊢
  cases hfirst with
  | inside hinside => exact .inr ⟨fun hclean => hclean.1 hinside, rfl⟩
  | @taken rest hlead =>
    -- the second root is not tried, and not in front either
    have hother := tried_usersRoots.not_leads hlead List.mem_cons_self
    refine .inl ⟨⟨hlead.not_insideChar, ?_⟩, some rest, rfl, fun t => ?_⟩
    · exact tried_usersRoots.not_insideChar hlead List.mem_cons_self
    · constructor
      · intro h
        cases h
        exact .inl hlead
      · rintro (hlead' | hlead')
        · rw [hlead.unique hlead']
        · exact absurd hlead' (hother t)
  | kept hclean hnot =>
    cases hsecond with
    | inside hinside => exact .inr ⟨fun hclean => hclean.2 hinside, rfl⟩
    | @taken rest hlead =>
      refine .inl ⟨⟨hclean, hlead.not_insideChar⟩, some rest, rfl, fun t => ?_⟩
      constructor
      · intro h
        cases h
        exact .inr hlead
      · rintro (hlead' | hlead')
        · exact absurd hlead' (hnot t)
        · rw [hlead.unique hlead']
    | kept hclean' hnot' =>
      refine .inl ⟨⟨hclean, hclean'⟩, none, rfl, fun t => ⟨nofun, ?_⟩⟩
      rintro (hlead | hlead)
      · exact absurd hlead (hnot t)
      · exact absurd hlead (hnot' t)

/-- **The rest of a path below the root of one user**: it is what the strip gives, unless a cut
    aborts. -/
theorem stripUserPlaceholderPrefix_eq (raw : Str) :
    (CutsClean raw ∧ ∃ o, stripUserPlaceholderPrefix raw = .ok o ∧
      ∀ rest, o = some rest ↔ UserPath raw rest) ∨
    (¬ CutsClean raw ∧ stripUserPlaceholderPrefix raw = .panic) := by
  unfold stripUserPlaceholderPrefix
  rcases stripUsersRoot_eq raw with ⟨hclean, o, ho, hroot⟩ | ⟨hclean, hpanic⟩
  · refine Or.inl ⟨hclean, ?_⟩
    rw [ho, Exec.ok_bind]
    cases hsplit : o.bind (splitOnce '\\') with
    | none =>
      refine ⟨none, rfl, fun rest => ⟨nofun, ?_⟩⟩
      rintro ⟨_, root, segment, husers, hsegment, hraw⟩
      rw [(hroot _).mpr ⟨root, husers, hraw⟩, Option.bind_some,
        splitOnce_eq_some_iff.mpr ⟨rfl, hsegment⟩] at hsplit
      cases hsplit
    | some parts =>
      obtain ⟨t, ht, hparts⟩ := Option.bind_eq_some_iff.mp hsplit
      obtain ⟨hparts, hsegment⟩ := splitOnce_eq_some_iff.mp hparts
      obtain ⟨root, husers, hraw⟩ := (hroot t).mp ht
      refine ⟨_, rfl, fun rest => ⟨fun h => ?_, ?_⟩⟩
      · split at h
        · cases h
        · rename_i hne
          cases h
          exact ⟨hne, root, parts.1, husers, hsegment, by rw [hraw, hparts]⟩
      · rintro ⟨hne, root', segment', husers', hsegment', hraw'⟩
        rw [(hroot _).mpr ⟨root', husers', hraw'⟩, Option.bind_some,
          splitOnce_eq_some_iff.mpr ⟨rfl, hsegment'⟩] at hsplit
        cases hsplit
        exact if_neg hne
  · exact Or.inr ⟨hclean, by rw [hpanic]; rfl⟩

/-! ## The catalog -/

/-- A descriptor that is not for one hive. -/
def Untagged (descriptor : ArtifactDescriptor) : Prop :=
  descriptor.hive = none ∨ descriptor.hive = some .none

/-- A resolver that only notes what it is called with. -/
def noteCall (descriptor : ArtifactDescriptor) (path : Str)
    (calls : List (ArtifactDescriptor × Str)) :
    Exec HiveError (List (ArtifactDescriptor × Str)) := .ok (calls ++ [(descriptor, path)])

/-- The loop over the catalog resolves the untagged registry descriptors with a path below the root
    of one user, each with the rest of that path, and no other untagged ones. -/
def ResolvesUserPaths (catalog : List ArtifactDescriptor) (target : Option HiveTarget) : Prop :=
  ∃ calls, resolvePaths catalog target noteCall [] = .ok calls ∧
    (∀ call ∈ calls, Untagged call.1 → UserPath call.1.keyPath call.2) ∧
    ∀ descriptor ∈ catalog, isRegistry descriptor.artifactType → Untagged descriptor →
      ∀ rest, UserPath descriptor.keyPath rest → (descriptor, rest) ∈ calls

/-- The loop takes one descriptor after the other. -/
theorem resolvePaths_cons {σ : Type} (d : ArtifactDescriptor) (catalog : List ArtifactDescriptor)
    (target : Option HiveTarget) (resolve : ArtifactDescriptor → Str → σ → Exec HiveError σ)
    (s : σ) : resolvePaths (d :: catalog) target resolve s =
      resolvePaths [d] target resolve s >>= resolvePaths catalog target resolve := by
  unfold resolvePaths
  rw [List.foldlM_cons, List.foldlM_cons, bind_assoc]
  rfl

/-- One pass of the loop. -/
theorem resolvePaths_singleton {σ : Type} (d : ArtifactDescriptor) (target : Option HiveTarget)
    (resolve : ArtifactDescriptor → Str → σ → Exec HiveError σ) (s : σ) :
    resolvePaths [d] target resolve s =
      if !isRegistry d.artifactType then .ok s
      else rawPath target d >>= fun o => o.elim (.ok s) fun path => resolve d path s := by
  unfold resolvePaths
  rw [List.foldlM_cons]
  refine (bind_pure _).trans ?_
  split
  · rfl
  · refine congrArg (rawPath target d >>= ·) (funext fun o => ?_)
    cases o with
    | none => rfl
    | some path => rfl

/-- **One descriptor** is resolved if it is for the registry and a path is found for it. -/
theorem resolvePaths_singleton_noteCall {target : Option HiveTarget} {d : ArtifactDescriptor}
    {before after : List (ArtifactDescriptor × Str)}
    (h : resolvePaths [d] target noteCall before = .ok after) :
    (isRegistry d.artifactType → ∃ o, rawPath target d = .ok o) ∧
    ∀ call, call ∈ after ↔ call ∈ before ∨ call.1 = d ∧
      isRegistry call.1.artifactType ∧ rawPath target call.1 = .ok (some call.2) := by
  unfold resolvePaths at h
  rw [List.foldlM_cons] at h
  by_cases hreg : isRegistry d.artifactType = true
  · rw [if_neg (by simp [hreg])] at h
    obtain ⟨_, hround, hdone⟩ := Exec.bind_eq_ok.mp h
    cases hdone
    obtain ⟨o, ho, hnote⟩ := Exec.bind_eq_ok.mp hround
    refine ⟨fun _ => ⟨o, ho⟩, fun call => ?_⟩
    cases o with
    -- no path is found, and nothing is noted
    | none =>
      cases hnote
      refine ⟨Or.inl, ?_⟩
      rintro (hb | ⟨rfl, _, hp⟩)
      · exact hb
      · rw [ho] at hp
        cases hp
    | some path =>
      cases hnote
      rw [List.mem_append, List.mem_singleton]
      refine or_congr Iff.rfl ⟨?_, ?_⟩
      · rintro rfl
        exact ⟨rfl, hreg, ho⟩
      · rintro ⟨rfl, _, hp⟩
        rw [ho] at hp
        cases hp
        rfl
  · -- a descriptor of another type is passed over before its path is asked for
    rw [if_pos (by simp [hreg])] at h
    cases h
    refine ⟨fun h => absurd h hreg, fun call => ⟨Or.inl, ?_⟩⟩
    rintro (hb | ⟨rfl, hr, _⟩)
    · exact hb
    · exact absurd hr hreg

/-- One descriptor adds at most one call to those that are noted. -/
theorem exists_resolvePaths_singleton {target : Option HiveTarget} {d : ArtifactDescriptor}
    (h : isRegistry d.artifactType → ∃ o, rawPath target d = .ok o)
    (before : List (ArtifactDescriptor × Str)) :
    ∃ after, resolvePaths [d] target noteCall before = .ok after := by
  unfold resolvePaths
  rw [List.foldlM_cons]
  by_cases hreg : isRegistry d.artifactType = true
  · obtain ⟨o, ho⟩ := h hreg
    rw [if_neg (by simp [hreg]), ho]
    cases o with
    | none => exact ⟨_, rfl⟩
    | some path => exact ⟨_, rfl⟩
  · rw [if_pos (by simp [hreg])]
    exact ⟨_, rfl⟩

/-- What the loop resolves: the registry descriptors that a path is found for. -/
theorem resolvePaths_noteCall {target : Option HiveTarget} :
    ∀ {catalog : List ArtifactDescriptor} {before calls : List (ArtifactDescriptor × Str)},
      resolvePaths catalog target noteCall before = .ok calls →
      (∀ d ∈ catalog, isRegistry d.artifactType → ∃ o, rawPath target d = .ok o) ∧
      ∀ call, call ∈ calls ↔ call ∈ before ∨ call.1 ∈ catalog ∧
        isRegistry call.1.artifactType ∧ rawPath target call.1 = .ok (some call.2)
  | [], before, calls, h => by
    cases h
    exact ⟨fun d hd => absurd hd List.not_mem_nil, fun call => by simp⟩
  | d :: catalog, before, calls, h => by
    rw [resolvePaths_cons] at h
    obtain ⟨after, hone, hrest⟩ := Exec.bind_eq_ok.mp h
    obtain ⟨hpath, hafter⟩ := resolvePaths_singleton_noteCall hone
    obtain ⟨hall, hcalls⟩ := resolvePaths_noteCall hrest
    refine ⟨List.forall_mem_cons.mpr ⟨hpath, hall⟩, fun call => ?_⟩
    rw [hcalls call, hafter call, List.mem_cons, or_and_right, or_assoc]

/-- The loop comes to its end when all paths do. -/
theorem exists_resolvePaths_noteCall {target : Option HiveTarget} :
    ∀ {catalog : List ArtifactDescriptor},
      (∀ d ∈ catalog, isRegistry d.artifactType → ∃ o, rawPath target d = .ok o) →
      ∀ before, ∃ calls, resolvePaths catalog target noteCall before = .ok calls
  | [], _, before => ⟨before, rfl⟩
  | d :: catalog, h, before => by
    obtain ⟨hpath, hall⟩ := List.forall_mem_cons.mp h
    obtain ⟨after, hone⟩ := exists_resolvePaths_singleton hpath before
    obtain ⟨calls, hrest⟩ := exists_resolvePaths_noteCall hall after
    rw [resolvePaths_cons, hone]
    exact ⟨calls, hrest⟩

/-- **The loop with any resolver** makes the noted calls one after the other; a call that does not
    return ends it, as it ends the fold. -/
theorem resolvePaths_eq_foldlM {σ : Type} {target : Option HiveTarget}
    (resolve : ArtifactDescriptor → Str → σ → Exec HiveError σ) :
    ∀ {catalog : List ArtifactDescriptor} {before calls : List (ArtifactDescriptor × Str)},
      resolvePaths catalog target noteCall before = .ok calls →
      ∃ noted, calls = before ++ noted ∧ ∀ s, resolvePaths catalog target resolve s =
        noted.foldlM (fun s call => resolve call.1 call.2 s) s
  | [], before, calls, h => by
    cases h
    exact ⟨[], (List.append_nil _).symm, fun s => rfl⟩
  | d :: catalog, before, calls, h => by
    rw [resolvePaths_cons] at h
    obtain ⟨after, hone, hrest⟩ := Exec.bind_eq_ok.mp h
    obtain ⟨noted, rfl, hfold⟩ := resolvePaths_eq_foldlM resolve hrest
    -- what is noted for the rest of the catalog is what is resolved for it
    have hbehind : resolvePaths catalog target resolve =
        fun s => noted.foldlM (fun s call => resolve call.1 call.2 s) s := funext hfold
    simp only [resolvePaths_cons d catalog, resolvePaths_singleton, hbehind] at hone ⊢
    by_cases hreg : (!isRegistry d.artifactType) = true
    · rw [if_pos hreg] at hone
      obtain rfl : before = after := Exec.ok.inj hone
      refine ⟨noted, rfl, fun s => ?_⟩
      rw [if_pos hreg]
      rfl
    · rw [if_neg hreg] at hone
      obtain ⟨o, ho, hnote⟩ := Exec.bind_eq_ok.mp hone
      cases o with
      | none =>
        obtain rfl : before = after := Exec.ok.inj hnote
        refine ⟨noted, rfl, fun s => ?_⟩
        rw [if_neg hreg, ho]
        rfl
      | some path =>
        -- one call, in front of the others
        obtain rfl : before ++ [(d, path)] = after := Exec.ok.inj hnote
        refine ⟨(d, path) :: noted, ?_, fun s => ?_⟩
        · rw [List.append_assoc, List.singleton_append]
        · rw [if_neg hreg, ho, List.foldlM_cons]
          rfl

/-- The loop makes the right calls exactly when it does for each descriptor by itself. -/
theorem resolvesUserPaths_iff_rawPath {catalog : List ArtifactDescriptor}
    {target : Option HiveTarget} :
    ResolvesUserPaths catalog target ↔ ∀ d ∈ catalog, isRegistry d.artifactType →
      (∃ o, rawPath target d = .ok o) ∧
      (Untagged d → ∀ path, rawPath target d = .ok (some path) ↔ UserPath d.keyPath path) := by
  constructor
  · rintro ⟨calls, hcalls, honly, hall⟩ d hd hreg
    obtain ⟨hpaths, hmem⟩ := resolvePaths_noteCall hcalls
    refine ⟨hpaths d hd hreg, fun htag path => ⟨fun hp => ?_, fun hp => ?_⟩⟩
    · exact honly (d, path) ((hmem _).mpr (Or.inr ⟨hd, hreg, hp⟩)) htag
    · rcases (hmem (d, path)).mp (hall d hd hreg htag path hp) with hb | ⟨_, _, hp⟩
      · exact absurd hb List.not_mem_nil
      · exact hp
  · intro h
    obtain ⟨calls, hcalls⟩ :=
      exists_resolvePaths_noteCall (fun d hd hreg => (h d hd hreg).1) []
    obtain ⟨_, hmem⟩ := resolvePaths_noteCall hcalls
    refine ⟨calls, hcalls, fun call hcall htag => ?_, fun d hd hreg htag rest hrest => ?_⟩
    · rcases (hmem call).mp hcall with hb | ⟨hd, hreg, hp⟩
      · exact absurd hb List.not_mem_nil
      · exact ((h call.1 hd hreg).2 htag call.2).mp hp
    · exact (hmem (d, rest)).mpr (Or.inr ⟨hd, hreg, ((h d hd hreg).2 htag rest).mpr hrest⟩)

/-- No type of hive has the target of descriptors for no hive. -/
theorem hiveTargetFor_ne_none (hiveType : HiveType) : hiveTargetFor hiveType ≠ some .none := by
  cases hiveType <;> decide

/-- **When the loop asks for the right paths**: the hive has a target, or every registry descriptor
    has a hive; and the paths that are cut are cut between characters. -/
theorem resolvesUserPaths_iff {catalog : List ArtifactDescriptor} (hiveType : HiveType) :
    ResolvesUserPaths catalog (hiveTargetFor hiveType) ↔
      ∀ d ∈ catalog, isRegistry d.artifactType →
        (d.hive = none → hiveTargetFor hiveType ≠ none) ∧
        (Untagged d → CutsClean d.keyPath) := by
  rw [resolvesUserPaths_iff_rawPath]
  refine forall₃_congr fun d hd hreg => ?_
  -- the first branch of the loop takes the raw path, whatever the two options have in common
  by_cases hsame : d.hive = hiveTargetFor hiveType
  · have hpath : rawPath (hiveTargetFor hiveType) d = .ok (some d.keyPath) := if_pos hsame
    rw [hpath]
    refine ⟨fun ⟨_, h⟩ => ?_, fun ⟨h, _⟩ => ⟨⟨_, rfl⟩, fun htag => ?_⟩⟩
    · have htag : ¬ Untagged d := fun htag =>
        not_userPath_self _ ((h htag d.keyPath).mp rfl)
      exact ⟨fun hnone => absurd (Or.inl hnone) htag, fun h => absurd h htag⟩
    · rcases htag with hnone | hnone
      · exact absurd (hsame.symm.trans hnone) (h hnone)
      · exact absurd (hsame.symm.trans hnone) (hiveTargetFor_ne_none hiveType)
  · have htarget : d.hive = none → hiveTargetFor hiveType ≠ none :=
      fun hnone htarget => hsame (hnone.trans htarget.symm)
    by_cases htag : Untagged d
    · have hpath : rawPath (hiveTargetFor hiveType) d = stripUserPlaceholderPrefix d.keyPath := by
        rw [rawPath, if_neg hsame, if_pos]
        rcases htag with h | h <;> simp [h]
      rw [hpath]
      rcases stripUserPlaceholderPrefix_eq d.keyPath with ⟨hclean, o, ho, hrest⟩ | ⟨hclean, hpanic⟩
      · rw [ho]
        refine ⟨fun _ => ⟨htarget, fun _ => hclean⟩, fun _ => ⟨⟨o, rfl⟩, fun _ path => ?_⟩⟩
        rw [← hrest path, Exec.ok.injEq]
      · rw [hpanic]
        refine ⟨fun ⟨⟨o, ho⟩, _⟩ => (by cases ho), fun ⟨_, h⟩ => absurd (h htag) hclean⟩
    · have hpath : rawPath (hiveTargetFor hiveType) d = .ok none := by
        rw [rawPath, if_neg hsame, if_neg]
        rcases hh : d.hive with _ | hive
        · exact absurd (Or.inl hh) htag
        · simpa [Untagged, hh] using htag
      rw [hpath]
      exact ⟨fun _ => ⟨htarget, fun h => absurd h htag⟩,
        fun _ => ⟨⟨_, rfl⟩, fun h => absurd h htag⟩⟩

/-- **What a scan asks a user's hive for**: it runs the loop over the catalog against the root of
    that hive; the loop asks for the rests of the paths below the root of one user exactly when the
    hive has a target or every registry descriptor has a hive, and no cut aborts; and with any
    resolver the loop is the fold over what it asks for. -/
theorem scanUsers_userPaths_iff {Timestamp : Type} (jiff : Jiff Timestamp)
    (catalog : List ArtifactDescriptor) (uh : UserHive) {root : Key} {hiveType : HiveType}
    (hroot : uh.hive.rootKey = .ok root)
    (htype : Exec.Evals uh.hive.detectHiveType (.ok hiveType)) :
    (∃ N, ∀ n, N ≤ n → ∀ before after : List UserHive,
      scanUsers jiff catalog n (before ++ uh :: after) =
        scanUsers jiff catalog n before >>= fun hits =>
        resolvePaths catalog (hiveTargetFor hiveType) (fun descriptor path hits =>
          resolveDescriptor jiff uh.hive.reader n root descriptor path false none
            (userBindingFor uh.identity) hits) hits >>= fun hits =>
        after.foldlM (scanUser jiff catalog n) (hits.map (backfill uh.identity))) ∧
    (ResolvesUserPaths catalog (hiveTargetFor hiveType) ↔
      ∀ d ∈ catalog, isRegistry d.artifactType →
        (d.hive = none → hiveTargetFor hiveType ≠ none) ∧
        (Untagged d → CutsClean d.keyPath)) ∧
    (∀ calls, resolvePaths catalog (hiveTargetFor hiveType) noteCall [] = .ok calls →
      ∀ {σ : Type} (resolve : ArtifactDescriptor → Str → σ → Exec HiveError σ) (s : σ),
        resolvePaths catalog (hiveTargetFor hiveType) resolve s =
          calls.foldlM (fun s call => resolve call.1 call.2 s) s) := by
  refine ⟨?_, resolvesUserPaths_iff hiveType, fun calls hcalls σ resolve s => ?_⟩
  swap
  · obtain ⟨noted, rfl, hfold⟩ := resolvePaths_eq_foldlM resolve hcalls
    exact hfold s
  obtain ⟨N, hN⟩ := htype
  refine ⟨N, fun n hn before after => ?_⟩
  unfold scanUsers
  rw [List.foldlM_append]
  refine congrArg _ (funext fun hits => ?_)
  rw [List.foldlM_cons, scanUser, hN n hn, Exec.ok_bind, hroot, Exec.attempt_ok, Exec.ok_bind]
  dsimp only
  rw [bind_assoc]
  rfl

/-! ## A hive without a type -/

/-- A root with one key `X`, which has the value `V`. -/
def markedRoot : Key := ⟨nkRecord ⟨0x24⟩ 1 112 0 0xFFFFFFFF [], ⟨32⟩⟩
/-- The one key of the sample. -/
def markedKey : Key :=
  ⟨{ nkRecord ⟨0x20⟩ 0 0xFFFFFFFF 1 216 [0x58] with parent := ⟨32⟩ }, ⟨128⟩⟩
/-- Its value. -/
def mark : Value := ⟨⟨1, 0x80000004, 0x2A, .dword, ⟨1⟩, [0x56]⟩, ⟨224⟩⟩

/-- The cells of the sample. -/
def markedCells : Bytes :=
  cellBytes (-80) markedRoot.node.toBytes ++
    (cellBytes (-16) ([0x6C, 0x68] ++ u16Bytes 1 ++ u32Bytes 128 ++ u32Bytes 0) ++
    (cellBytes (-88) (markedKey.node.toBytes ++ List.replicate 7 0) ++
    (cellBytes (-8) (u32Bytes 224) ++
    cellBytes (-32) (vkRecordBytes 0x80000004 0x2A 4 [0x56] ++ List.replicate 7 0))))

/-- A hive whose type is not known. -/
def markedHive : Hive := oneBinHive 32 markedCells

/-- What the hive reads as: its root, the listings, the values of `X`. -/
theorem marked_reads : markedHive.rootKey = .ok markedRoot ∧
    Exec.Evals (fun n => markedRoot.subkeys markedHive.reader n) (.ok [markedKey]) ∧
    Exec.Evals (fun n => markedKey.subkeys markedHive.reader n) (.ok []) ∧
    markedKey.values markedHive.reader = .ok [mark] := by
  have hcells : markedCells.length = 224 := by decide +kernel
  have hread : markedRoot.AtOffset markedHive.reader :=
    Hive.readCell_oneBin 0 80 (by omega) rfl (by decide) (by omega) (by decide)
      (by decide)
  have hreadX : markedKey.AtOffset markedHive.reader :=
    Hive.readCell_oneBin 96 88 (by omega) rfl (by decide) (by omega) (by decide)
      (by decide)
  have hreadV : markedHive.reader.readCell mark.offset = .ok (.keyValue mark.vk) :=
    Hive.readCell_oneBin 192 32 (by omega) rfl (by decide) (by omega) (by decide)
      (by decide)
  have hindex : markedHive.reader.readCell ⟨112⟩ = .ok (.index (.hashLeaf [⟨⟨128⟩, 0⟩])) :=
    Hive.readCell_oneBin 80 16 (by omega) rfl (by decide) (by omega) (by decide)
      (by decide)
  refine ⟨Hive.rootKey_eq hread rfl, ?_, ⟨0, fun _ _ => rfl⟩, ?_⟩
  · exact subkeys_of_listed ⟨by decide, by decide⟩ (.leaf hindex rfl) (.cons ⟨rfl, hreadX⟩ .nil)
  · have hlist : markedHive.reader.readCellRaw ⟨216⟩ =
        .ok (⟨-(8 : Nat)⟩, bytesAt markedCells 188 4) :=
      Hive.readCellRaw_oneBin (k := 184) (by omega) rfl (by decide) (by omega) (by decide)
    have hoff : mark.offset = ⟨leU32 (bytesAt markedCells 188 4) 0⟩ := by decide
    refine values_of_listed rfl (by simp) rfl hlist (by decide) fun i hi => ?_
    obtain rfl : i = 0 := by simpa using hi
    exact ⟨hoff, hreadV⟩

/-- The names below its root say nothing about its type. -/
theorem marked_detect : Exec.Evals markedHive.detectHiveType (.ok .unknown) := by
  obtain ⟨hroot, hlist, _, _⟩ := marked_reads
  unfold Hive.detectHiveType
  rw [hroot]
  refine Exec.Evals.bind (Exec.Evals.const _) ?_
  refine Exec.Evals.bind hlist.attempt ?_
  refine ⟨0, fun n _ => ?_⟩
  rfl

/-- A descriptor without a hive whose path does not go through the root of the users. -/
def marker : ArtifactDescriptor where
  id := "marker".toList
  name := "Marker".toList
  artifactType := .registryKey
  hive := none
  keyPath := "X".toList
  valueName := none
  decoder := .identity
  meaning := "marks a key".toList
  mitreTechniques := []

/-- A time library; the keys of the hive have no time. -/
def untimed : Jiff Int := ⟨some, fun _ => none⟩

/-- The hit that the descriptor gives for a user. -/
def markerHit (identity : UserIdentity) : CatalogHit Int where
  catalogId := marker.id
  artifactName := marker.name
  meaning := marker.meaning
  keyPath := "X".toList
  valueName := some "V".toList
  valueData := "42".toList
  mitreTechniques := []
  needsSpecializedDecoder := false
  user := none
  bindings := userBindingFor identity
  lastWritten := none

/-- The template of the descriptor has one derivation. -/
theorem marked_derivations (graph : KeyGraph markedHive.reader markedRoot) (sets : List Str) :
    derivations Key.name graph.children sets (maxGlobDepth + 1) markedRoot [.literal ['X']] =
      [⟨[], [['X']], markedKey⟩] := by
  have hkids := graph.children_eq ReflTransGen.refl marked_reads.2.1
  have hfind : firstNamed Key.name graph.children markedRoot ['X'] = some markedKey := by
    rw [firstNamed, hkids]
    rfl
  rw [derivations, hfind]
  simp only [Option.toList_some, List.flatMap_singleton]
  rw [show maxGlobDepth = 63 + 1 from rfl, derivations]
  rfl

/-- The descriptor is resolved for every user of the hive, though its path goes to no user. -/
theorem scanUsers_marked (identity : UserIdentity) :
    Exec.Evals (fun n => scanUsers untimed [marker] n [⟨identity, markedHive⟩])
      (.ok [backfill identity (markerHit identity)]) := by
  obtain ⟨hroot, hlist, hlistX, hvalues⟩ := marked_reads
  have hunrolls : Unrolls markedHive.reader markedRoot
      (.node (.ok markedRoot) [.node (.ok markedKey) []]) := by
    refine .listed hlist rfl fun p hp => ?_
    obtain rfl := List.mem_singleton.mp hp
    exact .listed hlistX rfl fun p hp => absurd hp List.not_mem_nil
  obtain ⟨graph⟩ := exists_keyGraph hunrolls.listingsReturn
  have hemit : emitKey untimed markedHive.reader marker ['X'] markedKey
      (userBindingFor identity ++ []) [] = .ok [markerHit identity] := by
    unfold emitKey
    rw [show marker.valueName = none from rfl, hvalues, List.append_nil]
    rfl
  have hexpand := expand_visits graph [.literal ['X']] none (fun hits bindings path key =>
    emitKey untimed markedHive.reader marker path key (userBindingFor identity ++ bindings) hits) []
  rw [marked_derivations graph] at hexpand
  have hscan : Exec.Evals (fun n => scanUser untimed [marker] n [] ⟨identity, markedHive⟩)
      (.ok [backfill identity (markerHit identity)]) := by
    unfold scanUser
    refine Exec.Evals.bind marked_detect ?_
    rw [hroot]
    refine Exec.Evals.bind (Exec.Evals.const _) ?_
    refine Exec.Evals.bind (a := [markerHit identity]) ?_ (Exec.Evals.const _)
    have hrun : Exec.Evals (fun n => expand markedHive.reader n markedRoot [.literal ['X']] none
        (fun hits bindings path key => emitKey untimed markedHive.reader marker path key
          (userBindingFor identity ++ bindings) hits) []) (.ok [markerHit identity]) := by
      have hone : ([⟨[], ['X'], markedKey⟩] : List Emission).foldlM (fun hits e =>
          emitKey untimed markedHive.reader marker e.path e.key
            (userBindingFor identity ++ e.bindings) hits) [] = .ok [markerHit identity] := by
        rw [List.foldlM_cons, hemit]
        rfl
      rw [← hone]
      exact hexpand
    exact hrun.congr fun n => bind_pure _
  refine hscan.congr fun n => ?_
  exact bind_pure _

/-- The sample: a hive without a target and a descriptor without a hive. -/
theorem scanUsers_userPaths_iff_marked :
    (∃ N, ∀ n, N ≤ n → ∀ before after : List UserHive,
      scanUsers untimed [marker] n (before ++ ⟨⟨none, none⟩, markedHive⟩ :: after) =
        scanUsers untimed [marker] n before >>= fun hits =>
        resolvePaths [marker] (hiveTargetFor .unknown) (fun descriptor path hits =>
          resolveDescriptor untimed markedHive.reader n markedRoot descriptor path false none
            (userBindingFor ⟨none, none⟩) hits) hits >>= fun hits =>
        after.foldlM (scanUser untimed [marker] n) (hits.map (backfill ⟨none, none⟩))) ∧
    (ResolvesUserPaths [marker] (hiveTargetFor .unknown) ↔
      ∀ d ∈ [marker], isRegistry d.artifactType →
        (d.hive = none → hiveTargetFor .unknown ≠ none) ∧ (Untagged d → CutsClean d.keyPath)) ∧
    (∀ calls, resolvePaths [marker] (hiveTargetFor .unknown) noteCall [] = .ok calls →
      ∀ {σ : Type} (resolve : ArtifactDescriptor → Str → σ → Exec HiveError σ) (s : σ),
        resolvePaths [marker] (hiveTargetFor .unknown) resolve s =
          calls.foldlM (fun s call => resolve call.1 call.2 s) s) :=
  scanUsers_userPaths_iff untimed [marker] ⟨⟨none, none⟩, markedHive⟩ marked_reads.1 marked_detect

/-- **A descriptor for no hive is taken as one for a hive without a type**: the path `X` goes to no
    user, and it is resolved as it is against the hive of `alice`. -/
theorem scanUsers_resolves_rawPath :
    Hive.fromBytes (oneBinImage 32 markedCells) = .ok markedHive ∧
    markedHive.rootKey = .ok markedRoot ∧ Exec.Evals markedHive.detectHiveType (.ok .unknown) ∧
    isRegistry marker.artifactType ∧ Untagged marker ∧ (¬ ∃ rest, UserPath marker.keyPath rest) ∧
    ¬ ResolvesUserPaths [marker] (hiveTargetFor .unknown) ∧
    ∃ hit : CatalogHit Int, hit.catalogId = marker.id ∧ hit.keyPath = marker.keyPath ∧
      hit.user = some ⟨some "alice".toList, none⟩ ∧
      Exec.Evals (fun n =>
          scanUsers untimed [marker] n [⟨⟨some "alice".toList, none⟩, markedHive⟩])
        (.ok [hit]) := by
  have hcells : markedCells.length = 224 := by decide +kernel
  refine ⟨Hive.fromBytes_oneBinImage (by omega), marked_reads.1, marked_detect, rfl, Or.inl rfl,
    ?_, ?_, ?_⟩
  · rintro ⟨rest, _, root, segment, _, _, hraw⟩
    have hmem : '\\' ∈ marker.keyPath := by
      rw [hraw]
      simp
    revert hmem
    decide
  · rw [resolvesUserPaths_iff]
    intro h
    exact (h marker (List.mem_singleton_self _) rfl).1 rfl rfl
  · exact ⟨_, rfl, rfl, rfl, scanUsers_marked _⟩

end Catalog

end Winreg
