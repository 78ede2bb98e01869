/-
  COM HIJACKING: the classes that a user has registered, and those that the system has.

  A class that is registered for a user shadows the class of the system with the same CLSID.  The
  extractor lists the servers of the user's classes.  It can look each of them up in a second hive,
  which may have the classes in three places, or do without one.

  1. **Classification** — writable directories first, then a server other than the system's
     (`classifyComHijack_fst`).
  2. **The hives** — both extractions as the source has them.
  3. **Comparing** — both list the same servers, and the second hive only adds findings: exactly the
     overridden servers that were not suspicious by themselves (`parsePair_parseHkcuOnly`).
  4. **A hive and itself** — each class overrides itself with the same server, so nothing is added
     (`parsePair_self`).
-/
import Winreg.Base.Utf16
import Winreg.TestUtil.Shown

namespace Winreg

open Rust Exec TestUtil

namespace ComHijacking

/-! ## Classification -/

/-- A class that a user has registered. -/
structure ComHijackInfo (Timestamp : Type) where
  clsid : Str
  hkcuServer : Str
  hkcrServer : Str
  isSuspicious : Bool
  suspiciousReason : Option Str
  lastWritten : Option Timestamp
deriving DecidableEq, Repr

/-- User-writable directories, in the order in which they are looked for. -/
def writableDirs : List Str :=
  ["\\temp\\".toList, "\\appdata\\".toList, "\\downloads\\".toList, "\\public\\".toList,
   "\\programdata\\".toList]

/-- Classify the path of a server. -/
def classifyComHijack (hkcrServer hkcuServer : Str) : Bool × Option Str :=
  if hkcuServer = [] then (false, none)
  else
    let lower := toAsciiLowercase hkcuServer
    match writableDirs.find? (· <:+: lower) with
    | some dir => (true, some ("DLL in ".toList ++ dir))
    -- without a server of the system there is nothing to override
    | none =>
      if hkcrServer ≠ [] ∧ !eqIgnoreAsciiCase hkcuServer hkcrServer then
        (true, some ("HKCU overrides HKCR (".toList ++ hkcrServer ++ [')']))
      else (false, none)

/-- The server is another one than that of the system. -/
def Overrides (hkcrServer hkcuServer : Str) : Prop :=
  hkcrServer ≠ [] ∧ toAsciiLowercase hkcuServer ≠ toAsciiLowercase hkcrServer

/-- The server lies in a writable directory. -/
def InWritableDir (server : Str) : Prop := ∃ dir ∈ writableDirs, dir <:+: toAsciiLowercase server

/-- A server is suspicious in a writable directory, and where it is another one than the
    system's. -/
theorem classifyComHijack_fst {hkcrServer hkcuServer : Str} (h : hkcuServer ≠ []) :
    (classifyComHijack hkcrServer hkcuServer).1 = true ↔
      InWritableDir hkcuServer ∨ Overrides hkcrServer hkcuServer := by
  rw [classifyComHijack, if_neg h]
  dsimp only
  cases hdir : writableDirs.find? (· <:+: toAsciiLowercase hkcuServer) with
  | some dir =>
    have hin : InWritableDir hkcuServer :=
      ⟨dir, List.mem_of_find?_eq_some hdir, by simpa using List.find?_some hdir⟩
    simp [hin]
  | none =>
    have hout : ¬ InWritableDir hkcuServer := by
      rintro ⟨dir, hmem, hwithin⟩
      simpa [hwithin] using List.find?_eq_none.mp hdir dir hmem
    have hoverrides : (hkcrServer ≠ [] ∧ (!eqIgnoreAsciiCase hkcuServer hkcrServer) = true) ↔
        Overrides hkcrServer hkcuServer := by
      rw [Overrides, Bool.not_eq_true', ← Bool.not_eq_true, eqIgnoreAsciiCase_iff]
    dsimp only
    by_cases hover : Overrides hkcrServer hkcuServer
    · rw [if_pos (hoverrides.mpr hover)]
      exact iff_of_true rfl (Or.inr hover)
    · rw [if_neg (mt hoverrides.mp hover)]
      exact iff_of_false Bool.false_ne_true (not_or.mpr ⟨hout, hover⟩)

/-- What is suspicious without a system to compare with is so for the same reason with one. -/
theorem classifyComHijack_of_alone {hkcrServer hkcuServer : Str}
    (h : (classifyComHijack [] hkcuServer).1 = true) :
    classifyComHijack hkcrServer hkcuServer = classifyComHijack [] hkcuServer := by
  unfold classifyComHijack at h ⊢
  by_cases hnil : hkcuServer = []
  · rw [if_pos hnil, if_pos hnil]
  · rw [if_neg hnil] at h
    rw [if_neg hnil, if_neg hnil]
    dsimp only at h ⊢
    cases hdir : writableDirs.find? (· <:+: toAsciiLowercase hkcuServer) with
    | some dir => rfl
    | none =>
      rw [hdir] at h
      exact absurd h (by simp)

/-- The same server overrides nothing. -/
theorem classifyComHijack_self (server : Str) :
    classifyComHijack server server = classifyComHijack [] server := by
  have hsame : eqIgnoreAsciiCase server server = true := eqIgnoreAsciiCase_iff.mpr rfl
  unfold classifyComHijack
  by_cases hnil : server = []
  · rw [if_pos hnil, if_pos hnil]
  · rw [if_neg hnil, if_neg hnil]
    dsimp only
    cases writableDirs.find? (· <:+: toAsciiLowercase server) with
    | some dir => rfl
    | none => simp [hsame]

/-! ## The hives -/

/-- The subkey with the server of a class. -/
def inprocServer32 : Str := "InprocServer32".toList

/-- Where a hive may have the classes of a user. -/
def userPaths : List Str :=
  ["Software\\Classes\\CLSID".toList, "Classes\\CLSID".toList, "CLSID".toList]

/-- Where a hive may have the classes of the system. -/
def systemPaths : List Str :=
  ["SOFTWARE\\Classes\\CLSID".toList, "Classes\\CLSID".toList, "CLSID".toList]

/-- `format!("{path}\\{clsid}\\InprocServer32")` -/
def serverPath (path clsid : Str) : Str := path ++ '\\' :: (clsid ++ '\\' :: inprocServer32)

/-- The default value of a key as a string. -/
def readDefaultValue (r : CellReader) (key : Key) : Exec HiveError Str :=
  (key.values r).okOr [] fun vals =>
    match vals.find? (·.name = []) with
    | some val => (val.asString r).okOr [] fun s => .ok s
    | none => .ok []

/-- Open the key with the classes of a user. -/
def openUserClsidKey (hive : Hive) (n : Nat) : Exec HiveError (Option Key) :=
  hive.openFirst n userPaths

/-- The server of a class of the system; nothing if there is none. -/
def readHkcrServer (hive : Hive) (n : Nat) (clsid : Str) : Exec HiveError Str := do
  match ← findMapM (fun path => (hive.openKey n path).someOr none fun k => do
      let s ← readDefaultValue hive.reader k
      -- an empty server does not end the search
      .ok (if s ≠ [] then some s else none)) (systemPaths.map (serverPath · clsid)) with
  | some s => .ok s
  | none => .ok []

section Parse

variable {Timestamp : Type} (jiff : Jiff Timestamp)

/-- The entry of a class; `hkcrServer` looks it up in the system. -/
def hijackInfo (hkcrServer : Str → Exec HiveError Str) (r : CellReader) (n : Nat) (guidKey : Key) :
    Exec HiveError (List (ComHijackInfo Timestamp)) :=
  (guidKey.subkey r n inprocServer32).someOr [] fun inproc => do
    let hkcuServer ← readDefaultValue r inproc
    if hkcuServer = [] then .ok []
    else do
      let server ← hkcrServer guidKey.name
      let (isSuspicious, suspiciousReason) := classifyComHijack server hkcuServer
      .ok [{
        clsid := guidKey.name
        hkcuServer := hkcuServer
        hkcrServer := server
        isSuspicious := isSuspicious
        suspiciousReason := suspiciousReason
        lastWritten := guidKey.lastWritten jiff }]

/-- The entries of the classes of a user. -/
def hijackInfos (hkcrServer : Str → Exec HiveError Str) (hkuHive : Hive) (n : Nat) :
    Exec HiveError (List (ComHijackInfo Timestamp)) := do
  match ← openUserClsidKey hkuHive n with
  | none => .ok []
  | some clsidKey =>
    (clsidKey.subkeys hkuHive.reader n).okOr [] fun guids =>
      flatMapM (hijackInfo jiff hkcrServer hkuHive.reader n) guids

/-- Parse the classes of a user, and look each up in the system. -/
def parsePair (hkuHive hkcrHive : Hive) (n : Nat) : Exec HiveError (List (ComHijackInfo Timestamp)) :=
  hijackInfos jiff (readHkcrServer hkcrHive n) hkuHive n

/-- Parse the classes of a user alone. -/
def parseHkcuOnly (hkuHive : Hive) (n : Nat) : Exec HiveError (List (ComHijackInfo Timestamp)) :=
  hijackInfos jiff (fun _ => .ok []) hkuHive n

end Parse

/-! ## Comparing -/

section Comparing

variable {Timestamp : Type} (jiff : Jiff Timestamp) (reg : Registry)

/-- The default value of a key, nothing if there is none. -/
def defaultText (a : reg.Node) : Str :=
  ((reg.valueList a).find? (·.name = [])).elim [] fun v => v.text.getD []

/-- The server of a class, nothing if there is none. -/
def serverOf (a : reg.Node) : Str := (reg.subkey a inprocServer32).elim [] (defaultText reg)

/-- The keys with the classes of a user. -/
def classes : List reg.Node := (userPaths.findSome? reg.openKey).elim [] reg.subkeyList

/-- The server of a class of the system, on what is shown. -/
def systemServer (clsid : Str) : Str :=
  ((systemPaths.map (serverPath · clsid)).findSome? fun path => (reg.openKey path).bind fun a =>
    if defaultText reg a ≠ [] then some (defaultText reg a) else none).getD []

/-- The entries of a class, on what is shown. -/
def infosOf (hkcrServer : Str → Str) (a : reg.Node) : List (ComHijackInfo Timestamp) :=
  if serverOf reg a = [] then []
  else [{
    clsid := reg.name a
    hkcuServer := serverOf reg a
    hkcrServer := hkcrServer (reg.name a)
    isSuspicious := (classifyComHijack (hkcrServer (reg.name a)) (serverOf reg a)).1
    suspiciousReason := (classifyComHijack (hkcrServer (reg.name a)) (serverOf reg a)).2
    lastWritten := reg.lastWritten jiff a }]

variable {reg} {hive : Hive} {rel : Key → reg.Node → Prop} (shows_ : hive.Shows reg rel)

include shows_

/-- The server is the text of the default value. -/
theorem readDefaultValue_evals {k : Key} {a : reg.Node} (hk : rel k a) :
    Evals (fun _ => readDefaultValue hive.reader k) (.ok (defaultText reg a)) := by
  refine shows_.onValues hk (h := fun values =>
    (values.find? (·.name = [])).elim [] fun v => v.text.getD []) rfl fun vals values hvals => ?_
  have hfind := forall₂_find? hvals (p := (·.name = [])) (q := (·.name = []))
    fun val v hv => by rw [hv.name]
  generalize vals.find? (·.name = []) = x, values.find? (·.name = []) = o at hfind
  cases hfind with
  | none => exact .const _
  | @some val v hv =>
    have hrun := hv.asString.from.okOr (d := []) (g := fun _ s => .ok s) (h := id)
      fun s t hst => by rw [show s = t from hst]; exact .const _
    cases htext : v.text with
    | none =>
      rw [htext] at hrun
      simp only [Option.elim_some, htext]
      exact hrun
    | some s =>
      rw [htext] at hrun
      simp only [Option.elim_some, htext]
      exact hrun

/-- The system's server of a class is found by its name. -/
theorem readHkcrServer_evals (clsid : Str) :
    Evals (fun n => readHkcrServer hive n clsid) (.ok (systemServer reg clsid)) := by
  have hfind := @Evals.findMapM HiveError _ _ _ Eq (systemPaths.map (serverPath · clsid)) _
    (List.forall₂_same.mpr fun _ _ => rfl)
    (fun n path => (hive.openKey n path).someOr none fun k => do
      let s ← readDefaultValue hive.reader k
      .ok (if s ≠ [] then some s else none))
    (fun path => (reg.openKey path).bind fun a =>
      if defaultText reg a ≠ [] then some (defaultText reg a) else none) <| by
    rintro path _ rfl
    exact (shows_.openKey path).andThen fun k a hk =>
      (readDefaultValue_evals shows_ hk).bind (.const _)
  refine hfind.bind (g := fun _ found => match found with
    | some s => .ok s
    | none => .ok []) ?_
  unfold systemServer
  cases (systemPaths.map (serverPath · clsid)).findSome? _ with
  | none => exact .const _
  | some s => exact .const _

/-- The entry of one class, for any way of finding the system's server. -/
theorem hijackInfo_evals {hkcrServer : Nat → Str → Exec HiveError Str} {server : Str → Str}
    (h : ∀ clsid, Evals (fun n => hkcrServer n clsid) (.ok (server clsid))) {k : Key}
    {a : reg.Node} (hk : rel k a) :
    Evals (fun n => hijackInfo jiff (hkcrServer n) hive.reader n k)
      (.ok (infosOf jiff reg server a)) := by
  have hrun := (shows_.subkey hk inprocServer32).someOr (d := []) (g := fun n inproc => do
      let hkcuServer ← readDefaultValue hive.reader inproc
      if hkcuServer = [] then .ok []
      else do
        let server ← hkcrServer n k.name
        let (isSuspicious, suspiciousReason) := classifyComHijack server hkcuServer
        .ok [(⟨k.name, hkcuServer, server, isSuspicious, suspiciousReason,
          k.lastWritten jiff⟩ : ComHijackInfo Timestamp)])
      (h := fun b => if defaultText reg b = [] then [] else [⟨reg.name a, defaultText reg b,
        server (reg.name a), (classifyComHijack (server (reg.name a)) (defaultText reg b)).1,
        (classifyComHijack (server (reg.name a)) (defaultText reg b)).2,
        reg.lastWritten jiff a⟩]) <| by
    intro inproc b hb
    refine (readDefaultValue_evals shows_ hb).bind ?_
    rw [shows_.name hk, shows_.lastWritten jiff hk]
    split
    · exact .const _
    · exact (h (reg.name a)).bind (.const _)
  unfold infosOf serverOf
  cases hinproc : reg.subkey a inprocServer32 with
  | none =>
    rw [hinproc] at hrun
    exact hrun
  | some b =>
    rw [hinproc] at hrun
    exact hrun

/-- The entries of all classes: both parsers are instances of this, one with the lookup in the
    system's hive and one without a server. -/
theorem hijackInfos_evals {hkcrServer : Nat → Str → Exec HiveError Str} {server : Str → Str}
    (h : ∀ clsid, Evals (fun n => hkcrServer n clsid) (.ok (server clsid))) :
    Evals (fun n => hijackInfos jiff (hkcrServer n) hive n)
      (.ok ((classes reg).flatMap (infosOf jiff reg server))) := by
  obtain ⟨found, hopen, hrel⟩ := shows_.openFirst userPaths
  refine Evals.bind hopen ?_
  unfold classes
  generalize userPaths.findSome? reg.openKey = o at hrel
  cases hrel with
  | none => exact .const _
  | some hk =>
    refine shows_.onSubkeys hk (h := List.flatMap _) rfl fun kids nodes hkids => ?_
    exact Evals.flatMapM hkids fun kid node hkid => hijackInfo_evals jiff shows_ h hkid.2

end Comparing

/-- What is found for one class: alone, and with the system. -/
structure Compares {Timestamp : Type} (system : Registry) (alone pair : ComHijackInfo Timestamp) :
    Prop where
  clsid : pair.clsid = alone.clsid
  hkcuServer : pair.hkcuServer = alone.hkcuServer
  lastWritten : pair.lastWritten = alone.lastWritten
  nothing : alone.hkcrServer = []
  hkcrServer : pair.hkcrServer = systemServer system alone.clsid
  isSuspicious_alone : alone.isSuspicious = true ↔ InWritableDir alone.hkcuServer
  isSuspicious : pair.isSuspicious = true ↔
    alone.isSuspicious = true ∨ Overrides pair.hkcrServer pair.hkcuServer
  reason : alone.isSuspicious = true → pair.suspiciousReason = alone.suspiciousReason

/-- **Comparing adds the overridden servers.**  The user's classes are listed in the same way alone
    and with a system, one entry for each class with a server.  The system adds to the suspicious
    ones those whose server is another one, and changes no reason. -/
theorem parsePair_parseHkcuOnly {Timestamp : Type} (jiff : Jiff Timestamp) {hku hkcr : Hive}
    {user system : Registry} {rel : Key → user.Node → Prop} {rel' : Key → system.Node → Prop}
    (shows_ : hku.Shows user rel) (hsystem : hkcr.Shows system rel') :
    ∃ alone pairs, Evals (fun n => parseHkcuOnly jiff hku n) (.ok alone) ∧
      Evals (fun n => parsePair jiff hku hkcr n) (.ok pairs) ∧
      alone.map (fun e => (e.clsid, e.hkcuServer)) =
        ((classes user).filter fun a => serverOf user a ≠ []).map
          (fun a => (user.name a, serverOf user a)) ∧
      List.Forall₂ (Compares system) alone pairs := by
  refine ⟨_, _, hijackInfos_evals jiff shows_ fun _ => .const _,
    hijackInfos_evals jiff shows_ fun clsid => readHkcrServer_evals hsystem clsid, ?_, ?_⟩
  · induction classes user with
    | nil => rfl
    | cons a rest ih =>
      rw [List.flatMap_cons, List.map_append, ih, infosOf]
      by_cases hserver : serverOf user a = []
      · rw [if_pos hserver, List.filter_cons_of_neg (by simpa using hserver)]
        rfl
      · rw [if_neg hserver, List.filter_cons_of_pos (by simpa using hserver)]
        rfl
  · induction classes user with
    | nil => exact .nil
    | cons a rest ih =>
      rw [List.flatMap_cons, List.flatMap_cons, infosOf, infosOf]
      by_cases hserver : serverOf user a = []
      · rwa [if_pos hserver, if_pos hserver]
      · rw [if_neg hserver, if_neg hserver]
        have halone : (classifyComHijack [] (serverOf user a)).1 = true ↔
            InWritableDir (serverOf user a) :=
          (classifyComHijack_fst hserver).trans (or_iff_left fun h => h.1 rfl)
        refine .cons ⟨rfl, rfl, rfl, rfl, rfl, halone, ?_, fun h => ?_⟩ ih
        · exact (classifyComHijack_fst hserver).trans (or_congr_left halone.symm)
        · exact congrArg Prod.snd (classifyComHijack_of_alone h)

/-! ## A hive and itself -/

section Itself

variable {reg : Registry}

/-- The classes of a user are where those of the system are. -/
theorem map_openKey_systemPaths :
    systemPaths.map reg.openKey = userPaths.map reg.openKey := by
  have hfirst : reg.openKey "SOFTWARE\\Classes\\CLSID".toList =
      reg.openKey "Software\\Classes\\CLSID".toList := by
    have hupper : Key.pathParts "SOFTWARE\\Classes\\CLSID".toList =
        ["SOFTWARE".toList, "Classes".toList, "CLSID".toList] := by decide
    have hmixed : Key.pathParts "Software\\Classes\\CLSID".toList =
        ["Software".toList, "Classes".toList, "CLSID".toList] := by decide
    have hsame : toAsciiUppercase "SOFTWARE".toList = toAsciiUppercase "Software".toList := by
      decide
    simp only [Registry.openKey, hupper, hmixed, Registry.descend, reg.subkey_congr hsame]
  simp only [systemPaths, userPaths, List.map_cons, hfirst]

/-- What comes behind the first thing that is found. -/
theorem findSome?_bind {α β γ : Type} {f : α → Option β} {g : β → Option γ} {c : β} {s : γ} :
    ∀ {xs : List α}, xs.findSome? f = some c → g c = some s →
      xs.findSome? (fun x => (f x).bind g) = some s
  | [], h, _ => by cases h
  | x :: xs, h, hg => by
    rw [List.findSome?_cons] at h ⊢
    cases hx : f x with
    | none =>
      rw [hx] at h
      exact findSome?_bind h hg
    | some b =>
      rw [hx] at h
      obtain rfl := Option.some.inj h
      rw [Option.bind_some, hg]

/-- A search finds what it finds among the results. -/
theorem findSome?_congr_map {α β γ : Type} {f : α → Option γ} {g : β → Option γ} {xs : List α}
    {ys : List β} (h : xs.map f = ys.map g) : xs.findSome? f = ys.findSome? g := by
  have hid : ∀ {δ : Type} (zs : List δ) (k : δ → Option γ),
      zs.findSome? k = (zs.map k).findSome? id := by
    intro δ zs k
    rw [List.findSome?_map]
    rfl
  rw [hid xs, hid ys, h]

variable (reg) in
/-- The key with the server of a class, from the key with the classes. -/
def inprocOf (clsid : Str) (c : reg.Node) : Option reg.Node :=
  (reg.subkey c clsid).bind (reg.subkey · inprocServer32)

/-- The paths of the server lead through the keys with the classes. -/
theorem openKey_serverPath {path clsid : Str} (hpath : path ∈ systemPaths)
    (hclsid : clsid ≠ [] ∧ '\\' ∉ clsid) :
    reg.openKey (serverPath path clsid) = (reg.openKey path).bind (inprocOf reg clsid) := by
  have hparts : Key.pathParts path ≠ [] := by
    revert path
    decide
  exact reg.openKey_below hparts hclsid.1 hclsid.2 (by decide)

/-- A class with a server has the key with it. -/
theorem inprocOf_eq {c a : reg.Node} (ha : a ∈ reg.subkeyList c)
    (hdistinct : ((reg.subkeyList c).map fun a => toAsciiUppercase (reg.name a)).Nodup)
    (hserver : serverOf reg a ≠ []) :
    ∃ b, inprocOf reg (reg.name a) c = some b ∧ serverOf reg a = defaultText reg b := by
  have hsubkey : reg.subkey c (reg.name a) = some a := Registry.subkey_eq_some hdistinct ha rfl
  cases hb : reg.subkey a inprocServer32 with
  | none => exact absurd (by rw [serverOf, hb]; rfl) hserver
  | some b =>
    refine ⟨b, ?_, by rw [serverOf, hb]; rfl⟩
    rw [inprocOf, hsubkey, Option.bind_some, hb]

/-- The system has the server that the user has, if it is the same hive. -/
theorem systemServer_eq {a : reg.Node} (ha : a ∈ classes reg)
    (hdistinct : ((classes reg).map fun a => toAsciiUppercase (reg.name a)).Nodup)
    (hname : reg.name a ≠ [] ∧ '\\' ∉ reg.name a) (hserver : serverOf reg a ≠ []) :
    systemServer reg (reg.name a) = serverOf reg a := by
  unfold classes at ha hdistinct
  cases hopen : userPaths.findSome? reg.openKey with
  | none =>
    rw [hopen] at ha
    cases ha
  | some c =>
    rw [hopen] at ha hdistinct
    obtain ⟨b, hb, htext⟩ := inprocOf_eq ha hdistinct hserver
    let server (k : reg.Node) : Option Str :=
      if defaultText reg k ≠ [] then some (defaultText reg k) else none
    let below (k : reg.Node) : Option Str := (inprocOf reg (reg.name a) k).bind server
    -- the user's path that opens first has the class, so the search ends there
    have hfound : userPaths.findSome? (fun path => (reg.openKey path).bind below) =
        some (serverOf reg a) := by
      refine findSome?_bind hopen ?_
      show (inprocOf reg (reg.name a) c).bind server = _
      rw [hb, Option.bind_some, htext]
      exact if_pos (htext ▸ hserver)
    -- and the system's paths open the same keys, one by one
    have hmaps : (systemPaths.map (serverPath · (reg.name a))).map
        (fun path => (reg.openKey path).bind server) =
          userPaths.map fun path => (reg.openKey path).bind below := by
      calc (systemPaths.map (serverPath · (reg.name a))).map
            (fun path => (reg.openKey path).bind server)
        _ = systemPaths.map fun path => (reg.openKey path).bind below := by
          rw [List.map_map]
          refine List.map_congr_left fun path hpath => ?_
          show (reg.openKey (serverPath path (reg.name a))).bind server = _
          rw [openKey_serverPath hpath hname, Option.bind_assoc]
        _ = (systemPaths.map reg.openKey).map (·.bind below) := by rw [List.map_map]; rfl
        _ = (userPaths.map reg.openKey).map (·.bind below) := by rw [map_openKey_systemPaths]
        _ = userPaths.map fun path => (reg.openKey path).bind below := by rw [List.map_map]; rfl
    show ((systemPaths.map (serverPath · (reg.name a))).findSome?
      fun path => (reg.openKey path).bind server).getD [] = _
    rw [findSome?_congr_map hmaps, hfound, Option.getD_some]

variable {Timestamp : Type} (jiff : Jiff Timestamp) {hive : Hive} {rel : Key → reg.Node → Prop}
  (shows_ : hive.Shows reg rel)

include shows_

/-- **A hive does not override itself.**  Where the names of the classes are components of paths
    and differ by more than ASCII case, comparing a hive with itself finds for every class its own
    server, and flags what it flags without comparing, for the same reasons. -/
theorem parsePair_self (hnames : ∀ a ∈ classes reg, reg.name a ≠ [] ∧ '\\' ∉ reg.name a)
    (hdistinct : ((classes reg).map fun a => toAsciiUppercase (reg.name a)).Nodup) :
    ∃ alone, Evals (fun n => parseHkcuOnly jiff hive n) (.ok alone) ∧
      Evals (fun n => parsePair jiff hive hive n)
        (.ok (alone.map fun e => { e with hkcrServer := e.hkcuServer })) := by
  refine ⟨_, hijackInfos_evals jiff shows_ fun _ => .const _, ?_⟩
  have hrun := hijackInfos_evals jiff shows_ fun clsid => readHkcrServer_evals shows_ clsid
  have hall : ∀ a ∈ classes reg, infosOf jiff reg (systemServer reg) a =
      (infosOf jiff reg (fun _ => []) a).map fun e => { e with hkcrServer := e.hkcuServer } := by
    intro a ha
    unfold infosOf
    by_cases hserver : serverOf reg a = []
    · rw [if_pos hserver, if_pos hserver]
      rfl
    · rw [if_neg hserver, if_neg hserver, systemServer_eq ha hdistinct (hnames a ha) hserver,
        classifyComHijack_self]
      rfl
  rw [List.map_flatMap]
  rwa [List.flatMap_congr hall] at hrun

end Itself

/-- A class of a user with this server. -/
def classBuilder (path : Str) (server : Str) : TestHiveBuilder where
  keys := []
  values := [⟨serverPath path "{a}".toList, [], 1, utf16leBytes server⟩]
  keyFiletime := 0

/-- The hive of a user with one class. -/
def userBuilder : TestHiveBuilder := classBuilder "Software\\Classes\\CLSID".toList "u.dll".toList
/-- The system's hive, with the same class and another server. -/
def systemBuilder : TestHiveBuilder := classBuilder "Classes\\CLSID".toList "s.dll".toList

set_option maxRecDepth 20000 in
/-- The user's hive can be written. -/
theorem userBuilder_valid : userBuilder.Valid where
  components := by decide
  valueNames := by decide
  children p := by
    have hlen : (userBuilder.childNames p).length ≤ userBuilder.closure.length :=
      List.length_filterMap_le _ _
    exact hlen.trans (by decide)
  data := by decide

set_option maxRecDepth 20000 in
/-- So can the system's. -/
theorem systemBuilder_valid : systemBuilder.Valid where
  components := by decide
  valueNames := by decide
  children p := by
    have hlen : (systemBuilder.childNames p).length ≤ systemBuilder.closure.length :=
      List.length_filterMap_le _ _
    exact hlen.trans (by decide)
  data := by decide

set_option maxRecDepth 20000 in
/-- Two servers for one class: the entry is suspicious when the two are compared. -/
theorem parsePair_parseHkcuOnly_override : ∃ image hku image' hkcr pair,
    (userBuilder.build 6 : Exec HiveError Bytes) = .ok image ∧ Hive.fromBytes image = .ok hku ∧
      (systemBuilder.build 5 : Exec HiveError Bytes) = .ok image' ∧
      Hive.fromBytes image' = .ok hkcr ∧
      Evals (fun n => parsePair (⟨some, fun _ => none⟩ : Jiff Int) hku hkcr n) (.ok [pair]) ∧
      pair.isSuspicious = true := by
  obtain ⟨image, hku, hbuild, hopen, hshows⟩ :=
    build_shows userBuilder_valid (n := 6) (by decide) (by decide)
  obtain ⟨image', hkcr, hbuild', hopen', hshows'⟩ :=
    build_shows systemBuilder_valid (n := 5) (by decide) (by decide)
  obtain ⟨alone, pairs, _, hpairs, hmap, hcompares⟩ :=
    parsePair_parseHkcuOnly ⟨some, fun _ => none⟩ hshows hshows'
  have hmap : alone.map (fun e => (e.clsid, e.hkcuServer)) = [("{a}".toList, "u.dll".toList)] :=
    hmap.trans (by decide)
  obtain ⟨e, rfl, he⟩ := List.map_eq_singleton_iff.mp hmap
  obtain ⟨pair, rest, hpair, hrest, rfl⟩ := List.forall₂_cons_left_iff.mp hcompares
  obtain rfl := List.forall₂_nil_left_iff.mp hrest
  obtain ⟨hclsid, hserver⟩ := Prod.mk.inj he
  refine ⟨image, hku, image', hkcr, pair, hbuild, hopen, hbuild', hopen', hpairs, ?_⟩
  refine hpair.isSuspicious.mpr (Or.inr ?_)
  rw [hpair.hkcrServer, hpair.hkcuServer, hclsid, hserver]
  exact ⟨by decide, by decide⟩

/-- The entry of the user's class against itself: its own server stands for the system's too, so it
    overrides nothing. -/
def selfEntry : ComHijackInfo Int where
  clsid := "{a}".toList
  hkcuServer := "u.dll".toList
  hkcrServer := "u.dll".toList
  isSuspicious := false
  suspiciousReason := none
  lastWritten := none

set_option maxRecDepth 20000 in
/-- The user's hive against itself. -/
theorem parsePair_self_user : ∃ image hive,
    (userBuilder.build 6 : Exec HiveError Bytes) = .ok image ∧ Hive.fromBytes image = .ok hive ∧
      Evals (fun n => parsePair (⟨some, fun _ => none⟩ : Jiff Int) hive hive n)
        (.ok [selfEntry]) := by
  obtain ⟨image, hive, hbuild, hopen, hshows⟩ :=
    build_shows userBuilder_valid (n := 6) (by decide) (by decide)
  obtain ⟨alone, halone, hpair⟩ :=
    parsePair_self ⟨some, fun _ => none⟩ hshows (by decide) (by decide)
  -- what the user's hive lists alone is read off the registry that it was built from
  have hlisted : Evals (fun n => parseHkcuOnly (⟨some, fun _ => none⟩ : Jiff Int) hive n) _ :=
    hijackInfos_evals (⟨some, fun _ => none⟩ : Jiff Int) hshows fun _ => .const (.ok [])
  obtain rfl : alone = _ := Exec.ok.inj (halone.unique hlisted)
  have hself : ((classes userBuilder.registry).flatMap
      (infosOf (⟨some, fun _ => none⟩ : Jiff Int) userBuilder.registry fun _ => [])).map
        (fun e => { e with hkcrServer := e.hkcuServer }) = [selfEntry] := by decide
  rw [hself] at hpair
  exact ⟨image, hive, hbuild, hopen, hpair⟩

end ComHijacking

end Winreg
