/-
  TYPED URLS: the addresses typed into the browser, and which of them are suspicious.

  1. `classifyUrl` looks for a listed domain, then cuts the host out of the URL and asks whether it
     is an IPv4 address.
  2. `UrlParts` is a URL by its grammar: scheme, userinfo, host, port, and the rest that begins with
     a path, a query or a fragment.
  3. `seenHost` says what the cut takes for the host of such a URL (`isIpv4_seenHost`).
  4. `UrlParts.Fair` says for which URLs that agrees with the grammar (`classifyUrl_grammar_iff`).
-/
import Winreg.Core.Detect
import Winreg.Core.Path
import Winreg.Base.OrdMap
import Winreg.Base.Search

namespace Winreg

open Rust

namespace TypedUrls

/-- Where the URLs are. -/
def typedUrlsPath : Str := "Software\\Microsoft\\Internet Explorer\\TypedURLs".toList

/-- Where their times are. -/
def typedUrlsTimePath : Str := "Software\\Microsoft\\Internet Explorer\\TypedURLsTime".toList

/-- Domains for sharing files, for pasting and for tunnels. -/
def suspiciousDomains : List Str :=
  ["pastebin.com".toList, "paste.ee".toList, "hastebin.com".toList, "transfer.sh".toList,
   "mega.nz".toList, "anonfiles.com".toList, "file.io".toList, "temp.sh".toList,
   "gofile.io".toList, "ngrok.io".toList, "trycloudflare.com".toList]

/-- A typed URL. -/
structure TypedUrl where
  url : Str
  lastVisited : Option Str
  isSuspicious : Bool
  suspiciousReason : Option Str
deriving DecidableEq, Repr

/-! ## Classification -/

/-- The number that decimal digits write. -/
def decimalValue (digits : Str) : Nat :=
  digits.foldl (fun n c => 10 * n + (c.toNat - '0'.toNat)) 0

/-- `p.parse::<u8>()`: digits, after a plus sign or none. -/
def parseU8 (p : Str) : Option UInt8 :=
  let digits := match p with
    | '+' :: rest => rest
    | _ => p
  if digits ≠ [] ∧ digits.all Char.isDigit ∧ decimalValue digits ≤ 255 then
    some (UInt8.ofNat (decimalValue digits))
  else none

/-- Whether a text looks like a dotted-decimal IPv4 address. -/
def isIpv4 (s : Str) : Bool :=
  let parts := s.splitOn '.'
  if parts.length ≠ 4 then false else parts.all fun p => (parseU8 p).isSome

/-- The reason why a URL is suspicious; `none` for a benign one. -/
def classifyUrl (url : Str) : Option Str :=
  let lower := toAsciiLowercase url
  match suspiciousDomains.find? (· <:+: lower) with
  | some domain => some ("suspicious domain: ".toList ++ domain)
  | none =>
    match afterFirst "://".toList lower with
    | some afterScheme =>
      let authority := cutAtFirst '/' afterScheme
      -- strip the port if present
      let host := cutAtLast ':' authority
      if isIpv4 host then some ("raw IP address in URL: ".toList ++ host) else none
    | none => none

/-! ## The hive -/

variable {Timestamp : Type} (jiff : Jiff Timestamp)

/-- The time that a value of the time key holds, as text. -/
def timeText (r : CellReader) (val : Value) : Exec HiveError (Option Str) := do
  match ← (val.rawData r).attempt with
  | .ok raw =>
    .ok (if 8 ≤ raw.length then (filetimeToDatetime jiff (u64At raw 0)).bind jiff.format else none)
  | .error _ => .ok none

/-- From the name of a value to its time; empty without a time key. -/
def timeMap (hive : Hive) (n : Nat) : Exec HiveError (BTreeMap Str Str) := do
  match ← (hive.openKey n typedUrlsTimePath).attempt with
  | .ok (some timeKey) =>
    match ← (timeKey.values hive.reader).attempt with
    | .ok vals => vals.foldlM (fun map val => do
        let time ← timeText jiff hive.reader val
        .ok (match time with
          | some s => map.insert val.name s
          | none => map)) ∅
    | .error _ => .ok ∅
  | _ => .ok ∅

/-- The entry of one value; none if it is no string, or the empty one. -/
def typedUrl (r : CellReader) (times : BTreeMap Str Str) (val : Value) :
    Exec HiveError (List TypedUrl) := do
  match ← (val.asString r).attempt with
  | .ok url =>
    if url = [] then .ok []
    else
      let suspiciousReason := classifyUrl url
      .ok [{
        url := url
        lastVisited := times[val.name]?
        isSuspicious := suspiciousReason.isSome
        suspiciousReason := suspiciousReason }]
  | .error _ => .ok []

/-- Extract all typed URLs of a hive. -/
def parse (hive : Hive) (n : Nat) : Exec HiveError (List TypedUrl) := do
  match ← (hive.openKey n typedUrlsPath).attempt with
  | .ok (some urlsKey) => do
    let times ← timeMap jiff hive n
    match ← (urlsKey.values hive.reader).attempt with
    | .ok values => values.foldlM (fun entries val => do
        let new ← typedUrl hive.reader times val
        .ok (entries ++ new)) []
    | .error _ => .ok []
  | _ => .ok []

/-! ## IPv4 addresses -/

/-- Digits that write at most 255. -/
def DecimalOctet (s : Str) : Prop := s ≠ [] ∧ (∀ c ∈ s, c.isDigit) ∧ decimalValue s ≤ 255

/-- Four decimal octets with dots between them. -/
def DecimalIpv4 (s : Str) : Prop :=
  ∃ a b c d, DecimalOctet a ∧ DecimalOctet b ∧ DecimalOctet c ∧ DecimalOctet d ∧
    s = ['.'].intercalate [a, b, c, d]

/-- Which texts the library's parser of small numbers takes: an octet, with a plus in front or
    not. -/
theorem parseU8_isSome_iff {p : Str} : (parseU8 p).isSome = true ↔
    DecimalOctet p ∨ ∃ rest, p = '+' :: rest ∧ DecimalOctet rest := by
  have hplus : ∀ rest : Str, ¬ DecimalOctet ('+' :: rest) := by
    intro rest h
    exact absurd (h.2.1 '+' List.mem_cons_self) (by decide)
  have hdigits : ∀ digits : Str,
      (if digits ≠ [] ∧ digits.all Char.isDigit ∧ decimalValue digits ≤ 255 then
        some (UInt8.ofNat (decimalValue digits)) else none).isSome = true ↔
        DecimalOctet digits := by
    intro digits
    rw [Option.isSome_ite, List.all_eq_true]
    rfl
  unfold parseU8
  dsimp only
  rw [hdigits]
  split
  · rename_i rest
    constructor
    · intro h
      exact .inr ⟨rest, rfl, h⟩
    · rintro (h | ⟨rest', heq, h⟩)
      · exact absurd h (hplus rest)
      · rw [(List.cons.inj heq).2]
        exact h
  · rename_i hne
    constructor
    · exact .inl
    · rintro (h | ⟨rest, heq, _⟩)
      · exact h
      · exact absurd heq (hne rest)

/-- A character of an address as the code reads it. -/
def IsIpv4Char (c : Char) : Prop := c.isDigit ∨ c = '+' ∨ c = '.'

instance : DecidablePred IsIpv4Char := fun c =>
  inferInstanceAs (Decidable (c.isDigit ∨ c = '+' ∨ c = '.'))

/-- Such a text has digits and the plus only. -/
theorem isIpv4Char_of_parseU8 {p : Str} (h : (parseU8 p).isSome = true) :
    ∀ c ∈ p, IsIpv4Char c ∧ c ≠ '.' := by
  have hoctet : ∀ {s : Str}, DecimalOctet s → ∀ c ∈ s, IsIpv4Char c ∧ c ≠ '.' := by
    intro s hs c hc
    have hdigit := hs.2.1 c hc
    refine ⟨.inl hdigit, ?_⟩
    rintro rfl
    exact absurd hdigit (by decide)
  intro c hc
  rcases parseU8_isSome_iff.mp h with hp | ⟨rest, rfl, hp⟩
  · exact hoctet hp c hc
  · rcases List.mem_cons.mp hc with rfl | hc
    · exact ⟨.inr (.inl rfl), by decide⟩
    · exact hoctet hp c hc

/-- What `isIpv4` accepts: four numbers with dots between them. -/
theorem isIpv4_iff {s : Str} : isIpv4 s = true ↔ ∃ a b c d,
    (∀ p ∈ [a, b, c, d], (parseU8 p).isSome = true) ∧ s = ['.'].intercalate [a, b, c, d] := by
  unfold isIpv4
  dsimp only
  constructor
  · intro h
    split at h
    · cases h
    · rename_i hlen
      obtain ⟨a, b, c, d, hparts⟩ := List.length_eq_four.mp (not_not.mp hlen)
      rw [hparts, List.all_eq_true] at h
      exact ⟨a, b, c, d, h, by rw [← hparts, List.intercalate_splitOn]⟩
  · rintro ⟨a, b, c, d, hall, rfl⟩
    have hdots : ∀ p ∈ [a, b, c, d], '.' ∉ p := fun p hp hdot =>
      (isIpv4Char_of_parseU8 (hall p hp) _ hdot).2 rfl
    have hsplit : (['.'].intercalate [a, b, c, d]).splitOn '.' = [a, b, c, d] :=
      List.splitOn_intercalate '.' hdots (List.cons_ne_nil _ _)
    rw [hsplit, if_neg (show ¬ [a, b, c, d].length ≠ 4 from not_not.mpr rfl), List.all_eq_true]
    exact hall

/-- A character of four joined parts is the separator or in a part. -/
theorem mem_intercalate_four {x sep : Char} {a b c d : Str} :
    x ∈ [sep].intercalate [a, b, c, d] ↔ x = sep ∨ ∃ p ∈ [a, b, c, d], x ∈ p := by
  simp only [List.intercalate, List.intersperse_cons_cons, List.intersperse_singleton,
    List.flatten_cons, List.flatten_nil, List.append_nil, List.cons_append, List.nil_append,
    List.mem_append, List.mem_cons, List.not_mem_nil, or_false, exists_eq_or_imp, exists_eq_left]
  tauto

/-- An address has only its own characters. -/
theorem isIpv4Char_of_isIpv4 {s : Str} (h : isIpv4 s = true) : ∀ c ∈ s, IsIpv4Char c := by
  obtain ⟨a, b, c, d, hall, rfl⟩ := isIpv4_iff.mp h
  intro x hx
  rcases mem_intercalate_four.mp hx with rfl | ⟨p, hp, hxp⟩
  · exact .inr (.inr rfl)
  · exact (isIpv4Char_of_parseU8 (hall p hp) x hxp).1

/-- **The code accepts more than addresses**: a number may have a plus sign. -/
theorem decimalIpv4_iff {s : Str} : DecimalIpv4 s ↔ isIpv4 s = true ∧ '+' ∉ s := by
  constructor
  · rintro ⟨a, b, c, d, ha, hb, hc, hd, rfl⟩
    have hall : ∀ p ∈ [a, b, c, d], DecimalOctet p := by
      simp only [List.mem_cons, List.not_mem_nil, or_false, forall_eq_or_imp, forall_eq]
      exact ⟨ha, hb, hc, hd⟩
    refine ⟨isIpv4_iff.mpr ⟨a, b, c, d, fun p hp => parseU8_isSome_iff.mpr (.inl (hall p hp)), rfl⟩,
      ?_⟩
    intro hplus
    rcases mem_intercalate_four.mp hplus with heq | ⟨p, hp, hmem⟩
    · exact absurd heq (by decide)
    · exact absurd ((hall p hp).2.1 _ hmem) (by decide)
  · rintro ⟨hip, hplus⟩
    obtain ⟨a, b, c, d, hall, rfl⟩ := isIpv4_iff.mp hip
    have hoctet : ∀ p ∈ [a, b, c, d], DecimalOctet p := by
      intro p hp
      rcases parseU8_isSome_iff.mp (hall p hp) with h | ⟨rest, rfl, _⟩
      · exact h
      · exact absurd (mem_intercalate_four.mpr (.inr ⟨_, hp, List.mem_cons_self⟩)) hplus
    simp only [List.mem_cons, List.not_mem_nil, or_false, forall_eq_or_imp, forall_eq] at hoctet
    exact ⟨a, b, c, d, hoctet.1, hoctet.2.1, hoctet.2.2.1, hoctet.2.2.2, rfl⟩

/-! ## Lower case -/

/-- The digits by their numbers. -/
theorem isDigit_iff_toNat {c : Char} : c.isDigit = true ↔ 48 ≤ c.toNat ∧ c.toNat ≤ 57 := by
  unfold Char.isDigit
  rw [Bool.and_eq_true, decide_eq_true_iff, decide_eq_true_iff]
  exact and_congr UInt32.le_iff_toNat_le UInt32.le_iff_toNat_le

/-- Folding leaves these characters, and makes no others into them. -/
theorem IsIpv4Char.keepsOnly {c : Char} (h : IsIpv4Char c) : KeepsOnly Char.toLower c := by
  rcases h with hdigit | rfl | rfl
  · have hrange := isDigit_iff_toNat.mp hdigit
    exact toLower_keepsOnly (by omega) (by omega)
  · exact toLower_keepsOnly (by decide) (by decide)
  · exact toLower_keepsOnly (by decide) (by decide)

/-- Addresses have no letters. -/
theorem isIpv4_toAsciiLowercase (s : Str) : isIpv4 (toAsciiLowercase s) = isIpv4 s := by
  have hsame : isIpv4 s = true ∨ isIpv4 (toAsciiLowercase s) = true → toAsciiLowercase s = s := by
    intro h
    have hchar : ∀ c ∈ s, c.toLower = c := by
      intro c hc
      rcases h with h | h
      · exact ((isIpv4Char_of_isIpv4 h c hc).keepsOnly c).mpr rfl
      · exact (((isIpv4Char_of_isIpv4 h _ (List.mem_map_of_mem hc)).keepsOnly c).mp rfl).symm
    exact (List.map_congr_left hchar).trans (List.map_id' s)
  rw [Bool.eq_iff_iff]
  constructor
  · intro h
    rwa [hsame (.inr h)] at h
  · intro h
    rwa [hsame (.inl h)]

/-! ## The grammar -/

/-- The authority ends before such a character. -/
def EndsAuthority (c : Char) : Prop := c = '/' ∨ c = '?' ∨ c = '#'

instance : DecidablePred EndsAuthority := fun c =>
  inferInstanceAs (Decidable (c = '/' ∨ c = '?' ∨ c = '#'))

/-- Looked for in the text, not among all characters. -/
instance (s : Str) : Decidable (∀ c ∈ s, ¬ EndsAuthority c) :=
  List.decidableBAll (fun c => ¬ EndsAuthority c) s

/-- A URL `scheme://authority` and what follows; the authority is a host, with a userinfo before it
    and a port after it or without. -/
structure UrlParts where
  scheme : Str
  userinfo : Option Str
  host : Str
  port : Option Str
  /-- A path, a query or a fragment, or nothing. -/
  rest : Str
  scheme_colon : ':' ∉ scheme
  userinfo_ends : ∀ u ∈ userinfo, ∀ c ∈ u, ¬ EndsAuthority c
  host_ends : ∀ c ∈ host, ¬ EndsAuthority c
  host_free : ':' ∉ host ∧ '@' ∉ host
  port_ends : ∀ p ∈ port, ∀ c ∈ p, ¬ EndsAuthority c
  port_free : ∀ p ∈ port, ':' ∉ p ∧ '@' ∉ p
  rest_begins : ∀ c ∈ rest.head?, EndsAuthority c

namespace UrlParts

/-- The authority of a URL: user, host and port. -/
def authority (p : UrlParts) : Str :=
  (p.userinfo.elim [] fun u => u ++ ['@']) ++ p.host ++ p.port.elim [] fun n => ':' :: n

/-- The URL itself. -/
def text (p : UrlParts) : Str := p.scheme ++ ("://".toList ++ (p.authority ++ p.rest))

/-- What follows the authority and stands before the first slash: the code takes it for part of the
    authority. -/
def spill (p : UrlParts) : Str := cutAtFirst '/' p.rest

/-- What the code takes for the host. -/
def seenHost (p : UrlParts) : Str := cutAtLast ':' (p.authority ++ p.spill)

/-- There is no slash in it. -/
theorem slash_not_mem_authority (p : UrlParts) : '/' ∉ p.authority := by
  intro h
  rcases List.mem_append.mp h with h | h
  · rcases List.mem_append.mp h with h | h
    · cases hu : p.userinfo with
      | none => rw [hu] at h; cases h
      | some u =>
        rw [hu] at h
        rcases List.mem_append.mp h with h | h
        · exact p.userinfo_ends u hu _ h (.inl rfl)
        · exact absurd (List.mem_singleton.mp h) (by decide)
    · exact p.host_ends _ h (.inl rfl)
  · cases hn : p.port with
    | none => rw [hn] at h; cases h
    | some n =>
      rw [hn] at h
      rcases List.mem_cons.mp h with h | h
      · exact absurd h (by decide)
      · exact p.port_ends n hn _ h (.inl rfl)

/-- What is classified: the host that the code sees. -/
theorem classifyUrl_isSome {p : UrlParts}
    (h : ∀ domain ∈ suspiciousDomains, ¬ domain <:+: toAsciiLowercase p.text) :
    (classifyUrl p.text).isSome = isIpv4 p.seenHost := by
  have hdomain : suspiciousDomains.find? (· <:+: toAsciiLowercase p.text) = none :=
    List.find?_eq_none.mpr fun domain hmem => by
      rw [decide_eq_true_iff]
      exact h domain hmem
  have hslash : KeepsOnly Char.toLower '/' := toLower_keepsOnly (by decide) (by decide)
  have hcolon : KeepsOnly Char.toLower ':' := toLower_keepsOnly (by decide) (by decide)
  have hafter : afterFirst "://".toList (toAsciiLowercase p.text) =
      some (toAsciiLowercase (p.authority ++ p.rest)) := by
    unfold text toAsciiLowercase
    rw [List.map_append, List.map_append]
    exact afterFirst_append _ (mt hcolon.mem_map.mp p.scheme_colon)
  have hcut : cutAtLast ':' (cutAtFirst '/' (toAsciiLowercase (p.authority ++ p.rest))) =
      toAsciiLowercase p.seenHost := by
    unfold seenHost spill toAsciiLowercase
    rw [cutAtFirst_map hslash, cutAtFirst_append p.slash_not_mem_authority, cutAtLast_map hcolon]
  unfold classifyUrl
  dsimp only
  rw [hdomain, hafter]
  dsimp only
  rw [hcut, isIpv4_toAsciiLowercase]
  cases isIpv4 p.seenHost <;> rfl

/-! ## The host that is seen -/

/-- No userinfo, and a port where the rest goes on without a slash. -/
def Plain (p : UrlParts) : Prop :=
  p.userinfo = none ∧ ':' ∉ p.spill ∧ (p.port.isSome ∨ p.spill = [])

/-- The last colon is the one between a user and a secret. -/
def Leaks (p : UrlParts) (user secret : Str) : Prop :=
  p.userinfo = some (user ++ ':' :: secret) ∧ ':' ∉ secret ∧ p.port = none ∧ ':' ∉ p.spill

/-- What spills begins a query or a fragment. -/
theorem spill_begins (p : UrlParts) :
    p.spill = [] ∨ ∃ c tail, p.spill = c :: tail ∧ (c = '?' ∨ c = '#') := by
  unfold spill
  cases hrest : p.rest with
  | nil => exact .inl rfl
  | cons c tail =>
    by_cases hc : c = '/'
    · exact .inl (by rw [hc]; rfl)
    · refine .inr ⟨c, cutAtFirst '/' tail, List.takeWhile_cons_of_pos (decide_eq_true hc), ?_⟩
      exact (p.rest_begins c (by rw [hrest]; rfl)).resolve_left hc

/-- Of a plain URL the code sees the host. -/
theorem seenHost_plain {p : UrlParts} (h : p.Plain) : p.seenHost = p.host := by
  obtain ⟨huser, hspill, hport⟩ := h
  unfold seenHost authority
  rw [huser]
  cases hn : p.port with
  | none =>
    rw [hn] at hport
    have hnil : p.spill = [] := hport.resolve_left Bool.false_ne_true
    rw [hnil]
    show cutAtLast ':' (([] ++ p.host ++ []) ++ []) = p.host
    rw [List.append_nil, List.append_nil, List.nil_append, cutAtLast_eq_self p.host_free.1]
  | some n =>
    have hfree : ':' ∉ n ++ p.spill :=
      List.not_mem_append (p.port_free n hn).1 hspill
    show cutAtLast ':' (([] ++ p.host ++ ':' :: n) ++ p.spill) = p.host
    rw [List.nil_append, List.append_assoc, List.cons_append, cutAtLast_append_cons _ hfree]

/-- With a user and a password in front it sees the user. -/
theorem seenHost_leaks {p : UrlParts} {user secret : Str} (h : p.Leaks user secret) :
    p.seenHost = user := by
  obtain ⟨huser, hsecret, hport, hspill⟩ := h
  have hfree : ':' ∉ secret ++ ('@' :: (p.host ++ p.spill)) := by
    simp only [List.mem_append, List.mem_cons, not_or]
    exact ⟨hsecret, by decide, p.host_free.1, hspill⟩
  unfold seenHost authority
  rw [huser, hport]
  have htext : ((user ++ ':' :: secret) ++ ['@'] ++ p.host ++ []) ++ p.spill =
      user ++ ':' :: (secret ++ '@' :: (p.host ++ p.spill)) := by
    simp only [List.append_assoc, List.cons_append, List.nil_append, List.append_nil]
  show cutAtLast ':' (((user ++ ':' :: secret) ++ ['@'] ++ p.host ++ []) ++ p.spill) = user
  rw [htext, cutAtLast_append_cons _ hfree]

/-- A text with a character that addresses do not have is none. -/
theorem isIpv4_eq_false {s : Str} {c : Char} (hc : c ∈ s) (h : ¬ IsIpv4Char c) :
    isIpv4 s = false := by
  cases hip : isIpv4 s with
  | false => rfl
  | true => exact absurd (isIpv4Char_of_isIpv4 hip c hc) h

/-- In every other URL a delimiter is taken for a part of the host. -/
theorem isIpv4_seenHost_other {p : UrlParts} (hplain : ¬ p.Plain)
    (hleaks : ∀ user secret, ¬ p.Leaks user secret) : isIpv4 p.seenHost = false := by
  by_cases hcolon : ':' ∈ p.spill
  · -- the last colon is in the query, which begins before it
    obtain ⟨a, b, hab, hb⟩ := eq_append_cons_last hcolon
    have hseen : p.seenHost = p.authority ++ a := by
      unfold seenHost
      rw [hab, ← List.append_assoc, cutAtLast_append_cons _ hb]
    rcases p.spill_begins with hnil | ⟨c, tail, hspill, hc⟩
    · rw [hnil] at hcolon
      cases hcolon
    · cases a with
      | nil =>
        rw [hspill] at hab
        obtain ⟨rfl, _⟩ := List.cons.inj hab
        exact absurd hc (by decide)
      | cons x a =>
        rw [hspill] at hab
        obtain ⟨rfl, _⟩ := List.cons.inj hab
        rw [hseen]
        refine isIpv4_eq_false (List.mem_append_right _ List.mem_cons_self) ?_
        rcases hc with rfl | rfl <;> decide
  · cases huser : p.userinfo with
    | none =>
      -- without a port, what spills follows the host
      have hport : p.port = none := by
        cases hn : p.port with
        | none => rfl
        | some n => exact absurd ⟨huser, hcolon, .inl (by rw [hn]; rfl)⟩ hplain
      have hseen : p.seenHost = p.host ++ p.spill := by
        unfold seenHost authority
        rw [huser, hport]
        show cutAtLast ':' (([] ++ p.host ++ []) ++ p.spill) = p.host ++ p.spill
        rw [List.append_nil, List.nil_append,
          cutAtLast_eq_self (List.not_mem_append p.host_free.1 hcolon)]
      rcases p.spill_begins with hnil | ⟨c, tail, hspill, hc⟩
      · exact absurd ⟨huser, hcolon, .inr hnil⟩ hplain
      · rw [hseen, hspill]
        refine isIpv4_eq_false (List.mem_append_right _ List.mem_cons_self) ?_
        rcases hc with rfl | rfl <;> decide
    | some u =>
      -- the at sign stays, or the cut is in the userinfo
      have hkept : ∃ tail, p.seenHost = u ++ '@' :: tail := by
        unfold seenHost authority
        rw [huser]
        cases hn : p.port with
        | none =>
          have hu : ':' ∉ u := by
            intro hmem
            obtain ⟨user, secret, rfl, hsecret⟩ := eq_append_cons_last hmem
            exact hleaks user secret ⟨huser, hsecret, hn, hcolon⟩
          have hfree : ':' ∉ u ++ '@' :: (p.host ++ p.spill) := by
            simp only [List.mem_append, List.mem_cons, not_or]
            exact ⟨hu, by decide, p.host_free.1, hcolon⟩
          refine ⟨p.host ++ p.spill, ?_⟩
          show cutAtLast ':' ((u ++ ['@'] ++ p.host ++ []) ++ p.spill) = _
          rw [List.append_nil, List.append_assoc, List.append_assoc, List.singleton_append,
            cutAtLast_eq_self hfree]
        | some n =>
          have hfree : ':' ∉ n ++ p.spill := List.not_mem_append (p.port_free n hn).1 hcolon
          refine ⟨p.host, ?_⟩
          show cutAtLast ':' ((u ++ ['@'] ++ p.host ++ ':' :: n) ++ p.spill) = _
          rw [List.append_assoc, List.cons_append, cutAtLast_append_cons _ hfree,
            List.append_assoc, List.singleton_append]
      obtain ⟨tail, hseen⟩ := hkept
      rw [hseen]
      exact isIpv4_eq_false (List.mem_append_right u List.mem_cons_self) (by decide)

/-- The URLs that are classified by their host. -/
structure Fair (p : UrlParts) : Prop where
  /-- No number of the host is written with a plus sign. -/
  plain : p.Plain → '+' ∈ p.host → isIpv4 p.host = false
  /-- The name of the user is an address just when the host is. -/
  leaks : ∀ user secret, p.Leaks user secret → (isIpv4 user = true ↔ DecimalIpv4 p.host)
  /-- Behind a userinfo, or before a query without a slash, there is no address. -/
  other : ¬ p.Plain → (∀ user secret, ¬ p.Leaks user secret) → ¬ DecimalIpv4 p.host

/-- **A URL is flagged for its address** by its grammar exactly when it is fair. -/
theorem classifyUrl_grammar_iff {p : UrlParts}
    (h : ∀ domain ∈ suspiciousDomains, ¬ domain <:+: toAsciiLowercase p.text) :
    ((classifyUrl p.text).isSome = true ↔ DecimalIpv4 p.host) ↔ p.Fair := by
  rw [classifyUrl_isSome h]
  -- what the code takes for the host decides: the host, the user in front of it, or neither
  by_cases hplain : p.Plain
  · have hnone : ∀ user secret, ¬ p.Leaks user secret := by
      intro user secret hleaks
      have huser := hplain.1
      rw [hleaks.1] at huser
      cases huser
    rw [seenHost_plain hplain, decimalIpv4_iff]
    constructor
    · intro hiff
      refine ⟨fun _ hplus => ?_, fun user secret h => absurd h (hnone user secret),
        fun h => absurd hplain h⟩
      rw [Bool.eq_false_iff]
      exact fun hip => (hiff.mp hip).2 hplus
    · intro hfair
      refine ⟨fun hip => ⟨hip, fun hplus => ?_⟩, And.left⟩
      rw [hfair.plain hplain hplus] at hip
      cases hip
  by_cases hleaks : ∃ user secret, p.Leaks user secret
  · obtain ⟨user, secret, hleak⟩ := hleaks
    rw [seenHost_leaks hleak]
    constructor
    · intro hiff
      refine ⟨fun h => absurd h hplain, fun user' secret' hleak' => ?_,
        fun _ h => absurd hleak (h user secret)⟩
      rw [← seenHost_leaks hleak', seenHost_leaks hleak]
      exact hiff
    · intro hfair
      exact hfair.leaks user secret hleak
  · have hnone : ∀ user secret, ¬ p.Leaks user secret := fun user secret h =>
      hleaks ⟨user, secret, h⟩
    rw [isIpv4_seenHost_other hplain hnone]
    constructor
    · intro hiff
      exact ⟨fun h => absurd h hplain, fun user secret h => absurd h (hnone user secret),
        fun _ _ hdec => Bool.false_ne_true (hiff.mpr hdec)⟩
    · intro hfair
      exact ⟨fun h => absurd h Bool.false_ne_true,
        fun hdec => absurd hdec (hfair.other hplain hnone)⟩

/-- An address with a port and a path. -/
theorem classifyUrl_grammar_iff_port : ∃ p : UrlParts,
    p.text = "http://192.168.1.1:8080/x".toList ∧ p.host = "192.168.1.1".toList ∧
      (((classifyUrl p.text).isSome = true ↔ DecimalIpv4 p.host) ↔ p.Fair) := by
  let p : UrlParts := {
    scheme := "http".toList
    userinfo := none
    host := "192.168.1.1".toList
    port := some "8080".toList
    rest := "/x".toList
    scheme_colon := by decide
    userinfo_ends := by simp
    host_ends := by decide
    host_free := by decide
    port_ends := by simp; decide
    port_free := by simp
    rest_begins := by simp; decide }
  exact ⟨p, by decide, rfl, classifyUrl_grammar_iff (by decide)⟩

/-- An address before a query is not flagged. -/
theorem classifyUrl_misses_query : ∃ p : UrlParts,
    p.text = "http://1.2.3.4?x".toList ∧ p.host = "1.2.3.4".toList ∧ p.rest = "?x".toList ∧
      (∀ domain ∈ suspiciousDomains, ¬ domain <:+: toAsciiLowercase p.text) ∧
      DecimalIpv4 p.host ∧ classifyUrl p.text = none := by
  let p : UrlParts := {
    scheme := "http".toList
    userinfo := none
    host := "1.2.3.4".toList
    port := none
    rest := "?x".toList
    scheme_colon := by decide
    userinfo_ends := by simp
    host_ends := by decide
    host_free := by decide
    port_ends := by simp
    port_free := by simp
    rest_begins := by simp; decide }
  refine ⟨p, by decide, rfl, rfl, by decide, decimalIpv4_iff.mpr ?_, by decide⟩
  decide

end UrlParts

/-! ## Entries -/

/-- An entry has a URL, and carries the verdict on it. -/
def TypedUrl.Classified (entry : TypedUrl) : Prop :=
  entry.url ≠ [] ∧ entry.suspiciousReason = classifyUrl entry.url ∧
    entry.isSuspicious = (classifyUrl entry.url).isSome

/-- An entry has the flag and the reason of its own URL. -/
theorem typedUrl_classified {r : CellReader} {times : BTreeMap Str Str} {val : Value}
    {entries : List TypedUrl} (h : typedUrl r times val = .ok entries) :
    ∀ entry ∈ entries, entry.Classified := by
  obtain ⟨read, _, h⟩ := Exec.bind_eq_ok.mp h
  split at h
  · split at h
    · cases h
      exact fun _ he => absurd he List.not_mem_nil
    · rename_i url hne
      cases h
      intro entry he
      obtain rfl := List.mem_singleton.mp he
      exact ⟨hne, rfl, rfl⟩
  · cases h
    exact fun _ he => absurd he List.not_mem_nil

/-- **Every entry is classified** by its URL. -/
theorem parse_classified {hive : Hive} {n : Nat} {entries : List TypedUrl}
    (h : parse jiff hive n = .ok entries) : ∀ entry ∈ entries, entry.Classified := by
  obtain ⟨opened, _, h⟩ := Exec.bind_eq_ok.mp h
  split at h
  · obtain ⟨times, _, h⟩ := Exec.bind_eq_ok.mp h
    obtain ⟨listed, _, h⟩ := Exec.bind_eq_ok.mp h
    split at h
    · exact Exec.foldlM_collect_inv _ (fun _ _ => typedUrl_classified)
        (fun _ he => absurd he List.not_mem_nil) h
    · cases h
      exact fun _ he => absurd he List.not_mem_nil
  · cases h
    exact fun _ he => absurd he List.not_mem_nil

end TypedUrls

end Winreg
