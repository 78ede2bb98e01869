/-
  RUN KEYS: the commands that a hive starts, and which of them are suspicious.

  1. `classifyRunEntry` tries its rules one after the other on the lower-cased command.
  2. `Rule.Matches` says of each documented rule when it holds, ignoring case; `Documented` says
     that one does.
  3. `\temp\` is documented to count anywhere in the command, and counts only at its start
     (`classifyRunEntry_documented_iff`).
  4. What `parse` returns is classified (`parse_classified`).
-/
import Winreg.Core.Detect
import Winreg.Core.Path

namespace Winreg

open Rust

namespace RunKeys

/-! ## Where commands are -/

/-- Run key paths of a SOFTWARE hive. -/
def softwareRunPaths : List Str :=
  ["Microsoft\\Windows\\CurrentVersion\\Run".toList,
   "Microsoft\\Windows\\CurrentVersion\\RunOnce".toList,
   "Microsoft\\Windows\\CurrentVersion\\RunServices".toList,
   "Microsoft\\Windows\\CurrentVersion\\RunServicesOnce".toList]

/-- Run key paths of an NTUSER.DAT hive. -/
def ntuserRunPaths : List Str :=
  ["Software\\Microsoft\\Windows\\CurrentVersion\\Run".toList,
   "Software\\Microsoft\\Windows\\CurrentVersion\\RunOnce".toList,
   "Software\\Microsoft\\Windows\\CurrentVersion\\RunServices".toList,
   "Software\\Microsoft\\Windows\\CurrentVersion\\RunServicesOnce".toList]

/-- The key of Winlogon in a SOFTWARE hive. -/
def winlogonPathSoftware : Str := "Microsoft\\Windows NT\\CurrentVersion\\Winlogon".toList

/-- And in the hive of a user. -/
def winlogonPathNtuser : Str := "Software\\Microsoft\\Windows NT\\CurrentVersion\\Winlogon".toList

/-- Winlogon values that can hold persistence commands. -/
def winlogonValues : List Str := ["Userinit".toList, "Shell".toList]

/-- A single autorun entry. -/
structure RunKeyEntry (Timestamp : Type) where
  hive : Str
  keyPath : Str
  valueName : Str
  command : Str
  isSuspicious : Bool
  suspiciousReason : Option Str
  lastWritten : Option Timestamp
deriving DecidableEq, Repr

/-! ## Classification -/

/-- The reason why a command is suspicious; `none` for a benign one. -/
def classifyRunEntry (command : Str) : Option Str :=
  if command = [] then none
  else
    let lower := toAsciiLowercase command
    let contains (needle : String) : Bool := decide (needle.toList <:+: lower)
    if contains "powershell" ∧ (contains "-enc" ∨ contains "-encodedcommand") then
      some "powershell encoded command (-enc / -encodedcommand)".toList
    else if contains "cmd" ∧ contains "/c" ∧
        (contains "http" ∨ contains "ftp" ∨ contains "\\\\") then
      some "cmd /c with remote resource (http/ftp/UNC)".toList
    else if contains "mshta" then
      some "mshta execution (HTML Application host abuse)".toList
    else if contains "regsvr32" ∧ (contains "/s" ∧ contains "/n") ∨
        (contains "regsvr32" ∧ contains "/u" ∧ contains "/s") then
      some "regsvr32 /s /n or /u /s (AppLocker bypass / squiblydoo)".toList
    else if contains "certutil" ∧ (contains "-decode" ∨ contains "-urlcache") then
      some "certutil -decode or -urlcache (download cradle / obfuscation)".toList
    else if contains "bitsadmin" ∧ contains "/transfer" then
      some "bitsadmin /transfer (BITS download abuse)".toList
    else if (contains "wscript" ∨ contains "cscript") ∧
        (contains "\\temp\\" ∨ contains "\\appdata\\") then
      some "wscript/cscript launched from \\temp\\ or \\appdata\\ path".toList
    else if contains "rundll32" ∧ (contains "\\temp\\" ∨ contains "\\appdata\\") then
      some "rundll32 with DLL in \\temp\\ or \\appdata\\ path".toList
    else if contains "\\appdata\\local\\temp\\" ∨ "\\temp\\".toList <+: lower then
      some "executable path is in \\temp\\ or \\appdata\\local\\temp\\".toList
    else if contains "msiexec" ∧ contains "/q" ∧ contains "http" then
      some "msiexec /q with HTTP URL (silent remote install)".toList
    else none

/-! ## The hive -/

variable {Timestamp : Type} (jiff : Jiff Timestamp)

/-- The entry of one value. -/
def runEntry (r : CellReader) (hiveLabel keyPath valueName : Str)
    (lastWritten : Option Timestamp) (val : Value) : Exec HiveError (RunKeyEntry Timestamp) := do
  let command ← (val.asString r).unwrapOr []
  let suspiciousReason := classifyRunEntry command
  .ok {
    hive := hiveLabel
    keyPath := keyPath
    valueName := valueName
    command := command
    isSuspicious := suspiciousReason.isSome
    suspiciousReason := suspiciousReason
    lastWritten := lastWritten }

/-- The entries of one Run key; none if it does not open or cannot be listed. -/
def runKeyEntries (hive : Hive) (n : Nat) (hiveLabel keyPath : Str) :
    Exec HiveError (List (RunKeyEntry Timestamp)) := do
  match ← (hive.openKey n keyPath).attempt with
  | .ok (some key) =>
    match ← (key.values hive.reader).attempt with
    | .ok values =>
      values.mapM fun val =>
        runEntry hive.reader hiveLabel keyPath val.name (key.lastWritten jiff) val
    | .error _ => .ok []
  | _ => .ok []

/-- The entry of one Winlogon value, if it is there. -/
def winlogonEntry (hive : Hive) (hiveLabel keyPath : Str) (winlogon : Key) (vname : Str) :
    Exec HiveError (List (RunKeyEntry Timestamp)) := do
  match ← (winlogon.value hive.reader vname).attempt with
  | .ok (some val) => do
    let entry ← runEntry hive.reader hiveLabel keyPath vname (winlogon.lastWritten jiff) val
    .ok [entry]
  | _ => .ok []

/-- Extract all Run-key entries of a hive. -/
def parse (hive : Hive) (n : Nat) : Exec HiveError (List (RunKeyEntry Timestamp)) := do
  let hiveType ← hive.detectHiveType n
  let (hiveLabel, runPaths, winlogonPath) := match hiveType with
    | .software => ("HKLM".toList, softwareRunPaths, winlogonPathSoftware)
    | .ntUser => ("HKCU".toList, ntuserRunPaths, winlogonPathNtuser)
    | _ => ("UNKNOWN".toList, softwareRunPaths, winlogonPathSoftware)
  let entries ← runPaths.foldlM (fun entries keyPath => do
    let new ← runKeyEntries jiff hive n hiveLabel keyPath
    .ok (entries ++ new)) []
  match ← (hive.openKey n winlogonPath).attempt with
  | .ok (some winlogon) => winlogonValues.foldlM (fun entries vname => do
      let new ← winlogonEntry jiff hive hiveLabel winlogonPath winlogon vname
      .ok (entries ++ new)) entries
  | _ => .ok entries

/-! ## The documented rules -/

/-- The rules that the documentation lists. -/
inductive Rule where
  | powershell
  | cmd
  | mshta
  | regsvr32
  | certutil
  | bitsadmin
  | script
  | rundll32
  | tempPath
  | msiexec
deriving DecidableEq, Repr

/-- A word occurs in the command, ignoring case. -/
def Mentions (command : Str) (word : String) : Prop :=
  ∃ piece, piece <:+: command ∧ eqIgnoreAsciiCase word.toList piece

/-- What the documentation says of each rule. -/
def Rule.Matches (command : Str) : Rule → Prop
  | .powershell => Mentions command "powershell" ∧ Mentions command "-enc"
  | .cmd => Mentions command "cmd" ∧ Mentions command "/c" ∧
      (Mentions command "http" ∨ Mentions command "ftp" ∨ Mentions command "\\\\")
  | .mshta => Mentions command "mshta"
  | .regsvr32 => Mentions command "regsvr32" ∧
      (Mentions command "/s" ∧ Mentions command "/n" ∨
        Mentions command "/u" ∧ Mentions command "/s")
  | .certutil => Mentions command "certutil" ∧
      (Mentions command "-decode" ∨ Mentions command "-urlcache")
  | .bitsadmin => Mentions command "bitsadmin" ∧ Mentions command "/transfer"
  | .script => (Mentions command "wscript" ∨ Mentions command "cscript") ∧
      (Mentions command "\\temp\\" ∨ Mentions command "\\appdata\\")
  | .rundll32 => Mentions command "rundll32" ∧
      (Mentions command "\\temp\\" ∨ Mentions command "\\appdata\\")
  | .tempPath => Mentions command "\\temp\\" ∨ Mentions command "\\appdata\\local\\temp\\"
  | .msiexec => Mentions command "msiexec" ∧ Mentions command "/q" ∧ Mentions command "http"

/-- Some documented rule matches. -/
def Documented (command : Str) : Prop := ∃ rule : Rule, rule.Matches command

/-- A rule that matches whatever `\temp\` does on its own: one of the other nine, or
    `\appdata\local\temp\`. -/
def MatchesApart (command : Str) : Prop :=
  (∃ rule : Rule, rule ≠ .tempPath ∧ rule.Matches command) ∨
    Mentions command "\\appdata\\local\\temp\\"

/-- The command begins with a word, ignoring case. -/
def BeginsWith (command : Str) (word : String) : Prop :=
  ∃ piece, piece <+: command ∧ eqIgnoreAsciiCase word.toList piece

/-- A lower-case word is found in the lower-cased command. -/
theorem mentions_iff {command : Str} {word : String}
    (h : toAsciiLowercase word.toList = word.toList) :
    Mentions command word ↔ word.toList <:+: toAsciiLowercase command := by
  show _ ↔ word.toList <:+: command.map Char.toLower
  rw [List.infix_map_iff]
  refine exists_congr fun piece => and_congr_right fun _ => ?_
  rw [eqIgnoreAsciiCase_iff, h]
  rfl

/-- Beginning with a word, whatever the case of the command. -/
theorem beginsWith_iff {command : Str} {word : String}
    (h : toAsciiLowercase word.toList = word.toList) :
    BeginsWith command word ↔ word.toList <+: toAsciiLowercase command := by
  show _ ↔ word.toList <+: command.map Char.toLower
  rw [List.prefix_map_iff]
  refine exists_congr fun piece => and_congr_right fun _ => ?_
  rw [eqIgnoreAsciiCase_iff, h]
  rfl

/-- What a command begins with it mentions. -/
theorem BeginsWith.mentions {command : Str} {word : String} (h : BeginsWith command word) :
    Mentions command word := by
  obtain ⟨piece, hpiece, heq⟩ := h
  exact ⟨piece, hpiece.isInfix, heq⟩

/-- A part of a word that occurs occurs. -/
theorem Mentions.of_infix {command : Str} {word part : String} (h : Mentions command word)
    (hword : toAsciiLowercase word.toList = word.toList)
    (hpart : toAsciiLowercase part.toList = part.toList) (hin : part.toList <:+: word.toList) :
    Mentions command part :=
  (mentions_iff hpart).mpr (hin.trans ((mentions_iff hword).mp h))

/-- The empty command mentions no word. -/
theorem not_mentions_nil {word : String} (h : word.toList ≠ []) : ¬ Mentions [] word := by
  rintro ⟨piece, hpiece, heq⟩
  rw [List.infix_nil.mp hpiece] at heq
  have hlen := congrArg List.length (eqIgnoreAsciiCase_iff.mp heq)
  unfold toAsciiLowercase at hlen
  rw [List.length_map, List.map_nil, List.length_nil] at hlen
  exact h (List.eq_nil_of_length_eq_zero hlen)

/-- No rule matches the empty command. -/
theorem Rule.not_matches_nil (rule : Rule) : ¬ rule.Matches [] := by
  cases rule <;> simp (disch := decide) only [Rule.Matches, not_mentions_nil, or_self, and_false,
    not_false_eq_true]

/-! ## What is classified -/

/-- One rule of the chain. -/
theorem isSome_rule {p : Prop} [Decidable p] (reason : Str) (rest : Option Str) :
    (if p then some reason else rest).isSome = true ↔ p ∨ rest.isSome = true := by
  by_cases h : p
  · rw [if_pos h]
    simp [h]
  · rw [if_neg h]
    simp [h]

/-- **What the code flags**: a command that a rule matches apart from `\temp\`, or that begins with
    `\temp\`. -/
theorem classifyRunEntry_isSome (command : Str) : (classifyRunEntry command).isSome = true ↔
    MatchesApart command ∨ BeginsWith command "\\temp\\" := by
  -- the longer flag contains the shorter one, so its test adds nothing
  have hencoded : Mentions command "-encodedcommand" → Mentions command "-enc" := fun h =>
    h.of_infix (by decide) (by decide) (by decide)
  unfold classifyRunEntry
  by_cases hempty : command = []
  · subst hempty
    rw [if_pos rfl]
    constructor
    · intro h
      cases h
    · rintro ((⟨rule, _, h⟩ | h) | h)
      · exact absurd h (Rule.not_matches_nil rule)
      · exact absurd h (not_mentions_nil (by decide))
      · exact absurd h.mentions (not_mentions_nil (by decide))
  rw [if_neg hempty]
  have hbegins : "\\temp\\".toList <+: toAsciiLowercase command ↔ BeginsWith command "\\temp\\" :=
    (beginsWith_iff (by decide)).symm
  -- from here on both sides are the same tests, in the order of the source
  simp only [isSome_rule, decide_eq_true_eq]
  simp (disch := decide) only [← mentions_iff]
  rw [hbegins]
  constructor
  · rintro (h | h | h | h | h | h | h | h | h | h | h)
    · exact .inl (.inl ⟨.powershell, by decide, h.1, h.2.elim id hencoded⟩)
    · exact .inl (.inl ⟨.cmd, by decide, h⟩)
    · exact .inl (.inl ⟨.mshta, by decide, h⟩)
    · refine .inl (.inl ⟨.regsvr32, by decide, ?_⟩)
      exact h.elim (fun h => ⟨h.1, .inl h.2⟩) fun h => ⟨h.1, .inr h.2⟩
    · exact .inl (.inl ⟨.certutil, by decide, h⟩)
    · exact .inl (.inl ⟨.bitsadmin, by decide, h⟩)
    · exact .inl (.inl ⟨.script, by decide, h⟩)
    · exact .inl (.inl ⟨.rundll32, by decide, h⟩)
    · exact h.elim (fun h => .inl (.inr h)) .inr
    · exact .inl (.inl ⟨.msiexec, by decide, h⟩)
    · cases h
  · rintro ((⟨rule, hrule, h⟩ | h) | h)
    · cases rule with
      | powershell => exact .inl ⟨h.1, .inl h.2⟩
      | cmd => exact .inr (.inl h)
      | mshta => exact .inr (.inr (.inl h))
      | regsvr32 =>
        refine .inr (.inr (.inr (.inl ?_)))
        exact h.2.elim (fun h' => .inl ⟨h.1, h'⟩) fun h' => .inr ⟨h.1, h'⟩
      | certutil => exact .inr (.inr (.inr (.inr (.inl h))))
      | bitsadmin => exact .inr (.inr (.inr (.inr (.inr (.inl h)))))
      | script => exact .inr (.inr (.inr (.inr (.inr (.inr (.inl h))))))
      | rundll32 => exact .inr (.inr (.inr (.inr (.inr (.inr (.inr (.inl h)))))))
      | tempPath => exact absurd rfl hrule
      | msiexec => exact .inr (.inr (.inr (.inr (.inr (.inr (.inr (.inr (.inr (.inl h)))))))))
    · simp only [h, true_or, or_true]
    · simp only [h, true_or, or_true]

/-- The documented rules, with the one about `\temp\` singled out. -/
theorem documented_iff (command : Str) :
    Documented command ↔ MatchesApart command ∨ Mentions command "\\temp\\" := by
  constructor
  · rintro ⟨rule, h⟩
    by_cases hrule : rule = .tempPath
    · subst hrule
      exact h.elim .inr fun huser => .inl (.inr huser)
    · exact .inl (.inl ⟨rule, hrule, h⟩)
  · rintro ((⟨rule, _, h⟩ | h) | h)
    · exact ⟨rule, h⟩
    · exact ⟨.tempPath, .inr h⟩
    · exact ⟨.tempPath, .inl h⟩

/-- **The documented rules decide** exactly when `\temp\` in the command is at its start, or another
    rule matches. -/
theorem classifyRunEntry_documented_iff (command : Str) :
    ((classifyRunEntry command).isSome = true ↔ Documented command) ↔
      (Mentions command "\\temp\\" →
        BeginsWith command "\\temp\\" ∨ MatchesApart command) := by
  rw [classifyRunEntry_isSome, documented_iff]
  constructor
  · intro hiff htemp
    exact (hiff.mpr (.inr htemp)).symm
  · intro hclose
    constructor
    · exact Or.imp_right BeginsWith.mentions
    · rintro (hapart | htemp)
      · exact .inl hapart
      · exact (hclose htemp).symm

/-- A program in the directory for temporary files of Windows is not flagged. -/
theorem classifyRunEntry_misses_temp : ∃ command : Str,
    command = "C:\\Windows\\Temp\\evil.exe".toList ∧ Documented command ∧
      classifyRunEntry command = none := by
  refine ⟨_, rfl, ⟨.tempPath, .inl ((mentions_iff (by decide)).mpr ?_)⟩, ?_⟩
  · decide
  · decide

/-! ## Entries -/

/-- An entry carries the verdict on its own command. -/
def RunKeyEntry.Classified (entry : RunKeyEntry Timestamp) : Prop :=
  entry.suspiciousReason = classifyRunEntry entry.command ∧
    entry.isSuspicious = (classifyRunEntry entry.command).isSome

/-- An entry has the flag and the reason of its own command. -/
theorem runEntry_classified {r : CellReader} {hiveLabel keyPath valueName : Str}
    {lastWritten : Option Timestamp} {val : Value} {entry : RunKeyEntry Timestamp}
    (h : runEntry r hiveLabel keyPath valueName lastWritten val = .ok entry) :
    entry.Classified := by
  obtain ⟨command, _, hok⟩ := Exec.bind_eq_ok.mp h
  obtain rfl := Exec.ok.inj hok
  exact ⟨rfl, rfl⟩

/-- So have all entries of a run key, by induction on the values. -/
theorem runKeyEntries_classified {hive : Hive} {n : Nat} {hiveLabel keyPath : Str}
    {entries : List (RunKeyEntry Timestamp)}
    (h : runKeyEntries jiff hive n hiveLabel keyPath = .ok entries) :
    ∀ entry ∈ entries, entry.Classified := by
  obtain ⟨opened, _, h⟩ := Exec.bind_eq_ok.mp h
  split at h
  · obtain ⟨listed, _, h⟩ := Exec.bind_eq_ok.mp h
    split at h
    · intro entry hentry
      obtain ⟨val, _, hval⟩ := forall₂_right (Exec.mapM_eq_ok h) hentry
      exact runEntry_classified hval
    · cases h
      intro entry hentry
      cases hentry
  · cases h
    intro entry hentry
    cases hentry

/-- And those of Winlogon. -/
theorem winlogonEntry_classified {hive : Hive} {hiveLabel keyPath : Str} {winlogon : Key}
    {vname : Str} {entries : List (RunKeyEntry Timestamp)}
    (h : winlogonEntry jiff hive hiveLabel keyPath winlogon vname = .ok entries) :
    ∀ entry ∈ entries, entry.Classified := by
  obtain ⟨found, _, h⟩ := Exec.bind_eq_ok.mp h
  split at h
  · obtain ⟨entry, hentry, hok⟩ := Exec.bind_eq_ok.mp h
    obtain rfl := Exec.ok.inj hok
    intro e he
    obtain rfl := List.mem_singleton.mp he
    exact runEntry_classified hentry
  · cases h
    intro entry hentry
    cases hentry

/-- **Every entry is classified** by its command, wherever it comes from. -/
theorem parse_classified {hive : Hive} {n : Nat} {entries : List (RunKeyEntry Timestamp)}
    (h : parse jiff hive n = .ok entries) : ∀ entry ∈ entries, entry.Classified := by
  obtain ⟨hiveType, _, h⟩ := Exec.bind_eq_ok.mp h
  obtain ⟨runEntries, hrun, h⟩ := Exec.bind_eq_ok.mp h
  have hrunEntries : ∀ entry ∈ runEntries, entry.Classified :=
    Exec.foldlM_collect_inv _ (fun _ _ => runKeyEntries_classified jiff)
      (fun _ he => absurd he List.not_mem_nil) hrun
  obtain ⟨opened, _, h⟩ := Exec.bind_eq_ok.mp h
  split at h
  · exact Exec.foldlM_collect_inv _ (fun _ _ => winlogonEntry_classified jiff) hrunEntries h
  · obtain rfl := Exec.ok.inj h
    exact hrunEntries

end RunKeys

end Winreg
