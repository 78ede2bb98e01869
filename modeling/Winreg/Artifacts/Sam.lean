/-
  SAM ACCOUNTS: the local users of a SAM hive.

  `Users\Names` has one key for each user name; the type field of its unnamed value is the RID of
  the account.  The record `F` of an account is a value of the key that is named after the RID, in
  eight hexadecimal digits, and has its times, its flags and the number of logins at fixed places.

  1. **The hive** — the extraction as the source has it.
  2. **Records** — what may be stored for an account, and that it is read back
     (`parseFRecord_toBytes`).
  3. **Accounts** — each nonempty user name has one entry, in order; that of a stored account is the
     account, and two RIDs never share a record (`parse_accounts`).
-/
import Winreg.TestUtil.Shown

namespace Winreg

open Rust Exec TestUtil

namespace Sam

/-! ## The hive -/

/-- A local user account. -/
structure SamUserEntry where
  username : Str
  rid : UInt32
  lastLogin : Option Str
  passwordLastSet : Option Str
  accountExpires : Option Str
  loginCount : UInt16
  accountFlags : UInt32
  isDisabled : Bool
  isLocked : Bool
deriving DecidableEq, Repr

/-- The places of the fields in the fixed part of an account. -/
def fLastLoginOff : Nat := 8
def fPasswordLastSetOff : Nat := 16
def fAccountExpiresOff : Nat := 24
def fAccountFlagsOff : Nat := 56
def fLoginCountOff : Nat := 66

/-- The bit of a disabled account. -/
def accountDisabled : UInt32 := 0x0001
/-- The bit of a locked one. -/
def accountLocked : UInt32 := 0x0010

/-- The key with the user names. -/
def namesPath : Str := "SAM\\Domains\\Account\\Users\\Names".toList

/-- The key with the accounts. -/
def usersPath : Str := "SAM\\Domains\\Account\\Users".toList

/-- A `u32` of a record, zero if the record is too short. -/
def readU32 (data : Bytes) (offset : Nat) : UInt32 :=
  if offset + 4 > data.length then 0 else u32At data offset

/-- A `u16` of a record, zero if the record is too short. -/
def readU16 (data : Bytes) (offset : Nat) : UInt16 :=
  if offset + 2 > data.length then 0 else u16At data offset

/-- The RID and the record of a user name. -/
def ridAndF (r : CellReader) (n : Nat) (nameKey usersKey : Key) :
    Exec HiveError (Option (UInt32 × Bytes)) :=
  (nameKey.value r []).someOr none fun v =>
    -- the default value of a name has no data: its type is the RID
    match v.dataType with
    | .unknown rid =>
      (usersKey.subkey r n (hexUpper 8 rid.toNat)).someOr none fun account =>
        (account.value r ['F']).someOr none fun f =>
          (f.rawData r).okOr none fun data => .ok (some (rid, data))
    | _ => .ok none

section Parse

variable {Timestamp : Type} (jiff : Jiff Timestamp)

/-- A FILETIME of a record as text. -/
def readFiletime (data : Bytes) (offset : Nat) : Option Str :=
  if offset + 8 > data.length then none else jiff.iso (u64At data offset)

/-- The entry of a record. -/
def parseFRecord (username : Str) (rid : UInt32) (f : Bytes) : SamUserEntry :=
  let accountFlags := readU32 f fAccountFlagsOff
  { username := username
    rid := rid
    lastLogin := readFiletime jiff f fLastLoginOff
    passwordLastSet := readFiletime jiff f fPasswordLastSetOff
    accountExpires := readFiletime jiff f fAccountExpiresOff
    loginCount := readU16 f fLoginCountOff
    accountFlags := accountFlags
    isDisabled := accountFlags &&& accountDisabled ≠ 0
    isLocked := accountFlags &&& accountLocked ≠ 0 }

/-- The entry of a user name without a record. -/
def bareEntry (username : Str) : SamUserEntry :=
  ⟨username, 0, none, none, none, 0, 0, false, false⟩

/-- The entry of a user name. -/
def nameEntry (r : CellReader) (n : Nat) (usersKey nameKey : Key) :
    Exec HiveError (List SamUserEntry) :=
  if nameKey.name = [] then .ok []
  else do
    match ← ridAndF r n nameKey usersKey with
    -- an account without a record is reported all the same
    | none => .ok [bareEntry nameKey.name]
    | some (rid, fData) => .ok [parseFRecord jiff nameKey.name rid fData]

/-- Parse the local user accounts of a SAM hive. -/
def parse (hive : Hive) (n : Nat) : Exec HiveError (List SamUserEntry) :=
  (hive.openKey n namesPath).someOr [] fun namesKey =>
    (hive.openKey n usersPath).someOr [] fun usersKey =>
      (namesKey.subkeys hive.reader n).okOr [] fun usernameKeys =>
        flatMapM (nameEntry jiff hive.reader n usersKey) usernameKeys

end Parse

/-! ## Records -/

/-- The record of an account.  The bytes between the documented fields are free. -/
structure Account where
  rid : UInt32
  lastLogin : UInt64
  passwordLastSet : UInt64
  accountExpires : UInt64
  accountFlags : UInt32
  loginCount : UInt16
  head : Bytes
  beforeFlags : Bytes
  beforeCount : Bytes
  tail : Bytes
  length_head : head.length = 8
  length_beforeFlags : beforeFlags.length = 24
  length_beforeCount : beforeCount.length = 6

namespace Account

/-- The bytes of an account: the fields at their places, and what lies between and behind them. -/
def toBytes (a : Account) : Bytes :=
  a.head ++ (u64Bytes a.lastLogin ++ (u64Bytes a.passwordLastSet ++ (u64Bytes a.accountExpires ++
    (a.beforeFlags ++ (u32Bytes a.accountFlags ++ (a.beforeCount ++
      (u16Bytes a.loginCount ++ a.tail)))))))

/-- The entry of an account. -/
def entry {Timestamp : Type} (jiff : Jiff Timestamp) (username : Str) (a : Account) :
    SamUserEntry where
  username := username
  rid := a.rid
  lastLogin := jiff.iso a.lastLogin
  passwordLastSet := jiff.iso a.passwordLastSet
  accountExpires := jiff.iso a.accountExpires
  loginCount := a.loginCount
  accountFlags := a.accountFlags
  isDisabled := a.accountFlags &&& accountDisabled ≠ 0
  isLocked := a.accountFlags &&& accountLocked ≠ 0

/-- The fixed part has 68 bytes. -/
theorem length_toBytes (a : Account) : a.toBytes.length = 68 + a.tail.length := by
  simp only [toBytes, List.length_append, length_u64Bytes, length_u32Bytes, length_u16Bytes,
    a.length_head, a.length_beforeFlags, a.length_beforeCount]
  omega

/-- **A record is read back.** -/
theorem parseFRecord_toBytes {Timestamp : Type} (jiff : Jiff Timestamp) (username : Str)
    (a : Account) : parseFRecord jiff username a.rid a.toBytes = a.entry jiff username := by
  have hlen := a.length_toBytes
  -- the record, cut in front of one part after the other
  have hloginAt : a.toBytes = a.head ++ (u64Bytes a.lastLogin ++ _) := rfl
  have hsetAt := hloginAt.trans (List.append_assoc _ _ _).symm
  have hexpiresAt := hsetAt.trans (List.append_assoc _ _ _).symm
  have hfirstAt := hexpiresAt.trans (List.append_assoc _ _ _).symm
  have hflagsAt := hfirstAt.trans (List.append_assoc _ _ _).symm
  have hsecondAt := hflagsAt.trans (List.append_assoc _ _ _).symm
  have hcountAt := hsecondAt.trans (List.append_assoc _ _ _).symm
  have hlogin : u64At a.toBytes 8 = a.lastLogin :=
    u64At_of_bytesAt (bytesAt_part hloginAt a.length_head (length_u64Bytes _))
  have hset : u64At a.toBytes 16 = a.passwordLastSet := by
    refine u64At_of_bytesAt (bytesAt_part hsetAt ?_ (length_u64Bytes _))
    simp only [List.length_append, length_u64Bytes, a.length_head]
  have hexpires : u64At a.toBytes 24 = a.accountExpires := by
    refine u64At_of_bytesAt (bytesAt_part hexpiresAt ?_ (length_u64Bytes _))
    simp only [List.length_append, length_u64Bytes, a.length_head]
  have hflags : u32At a.toBytes 56 = a.accountFlags := by
    refine u32At_of_bytesAt (bytesAt_part hflagsAt ?_ (length_u32Bytes _))
    simp only [List.length_append, length_u64Bytes, a.length_head, a.length_beforeFlags]
  have hcount : u16At a.toBytes 66 = a.loginCount := by
    refine u16At_of_bytesAt (bytesAt_part hcountAt ?_ (length_u16Bytes _))
    simp only [List.length_append, length_u64Bytes, length_u32Bytes, a.length_head,
      a.length_beforeFlags, a.length_beforeCount]
  have hfiletime : ∀ offset, offset + 8 ≤ 68 →
      readFiletime jiff a.toBytes offset = jiff.iso (u64At a.toBytes offset) :=
    fun offset h => if_neg (by omega)
  have hreadFlags : readU32 a.toBytes fAccountFlagsOff = a.accountFlags := by
    rw [readU32, fAccountFlagsOff, if_neg (by omega), hflags]
  have hreadCount : readU16 a.toBytes fLoginCountOff = a.loginCount := by
    rw [readU16, fLoginCountOff, if_neg (by omega), hcount]
  rw [parseFRecord, hreadFlags, hreadCount, hfiletime fLastLoginOff (by decide),
    hfiletime fPasswordLastSetOff (by decide), hfiletime fAccountExpiresOff (by decide),
    fLastLoginOff, hlogin, fPasswordLastSetOff, hset, fAccountExpiresOff, hexpires]
  rfl

end Account

/-! ## Accounts -/

section Accounts

variable {Timestamp : Type} (jiff : Jiff Timestamp) (reg : Registry)

/-- The RID and the record of a user name, on what is shown. -/
def recordOf (users a : reg.Node) : Option (UInt32 × Bytes) :=
  (reg.value a []).bind fun v =>
    match v.dataType with
    | .unknown rid => (reg.subkey users (hexUpper 8 rid.toNat)).bind fun account =>
        (reg.value account ['F']).bind fun f => f.data.map fun data => (rid, data)
    | _ => none

/-- The entries of a user name, on what is shown. -/
def entriesOf (users a : reg.Node) : List SamUserEntry :=
  if reg.name a = [] then []
  else [match recordOf reg users a with
    | none => bareEntry (reg.name a)
    | some (rid, fData) => parseFRecord jiff (reg.name a) rid fData]

/-- All entries. -/
def accountsOf : List SamUserEntry :=
  (reg.openKey namesPath).elim [] fun names => (reg.openKey usersPath).elim [] fun users =>
    (reg.subkeyList names).flatMap (entriesOf jiff reg users)

/-- The account is stored for a user name: its RID is the type of the unnamed value, and its record
    is the value `F` of a key that is named after the RID. -/
structure Stores (users a : reg.Node) (account : Account) : Prop where
  rid : ∃ v, reg.value a [] = some v ∧ v.dataType = .unknown account.rid
  record : ∃ b ∈ reg.subkeyList users,
    toAsciiUppercase (reg.name b) = hexUpper 8 account.rid.toNat ∧
      ∃ f, reg.value b ['F'] = some f ∧ f.data = some account.toBytes

variable {reg}

/-- The record of a stored account is found. -/
theorem Stores.recordOf_eq {users a : reg.Node} {account : Account}
    (hdistinct : ((reg.subkeyList users).map fun b => toAsciiUppercase (reg.name b)).Nodup)
    (h : Stores reg users a account) :
    recordOf reg users a = some (account.rid, account.toBytes) := by
  obtain ⟨v, hv, htype⟩ := h.rid
  obtain ⟨b, hb, hname, f, hf, hdata⟩ := h.record
  rw [← toAsciiUppercase_hexUpper] at hname
  rw [recordOf, hv, Option.bind_some, htype]
  show (reg.subkey users (hexUpper 8 account.rid.toNat)).bind _ = _
  rw [Registry.subkey_eq_some hdistinct hb hname, Option.bind_some, hf, Option.bind_some, hdata]
  rfl

variable {hive : Hive} {rel : Key → reg.Node → Prop} (shows_ : hive.Shows reg rel)

include shows_

/-- The number and the record of a name, as the registry has them. -/
theorem ridAndF_evals {nameKey usersKey : Key} {a users : reg.Node} (hname : rel nameKey a)
    (husers : rel usersKey users) :
    Evals (fun n => ridAndF hive.reader n nameKey usersKey) (.ok (recordOf reg users a)) := by
  refine (shows_.value hname []).andThen fun val v hv => ?_
  rw [hv.dataType]
  cases v.dataType with
  | unknown rid =>
    refine (shows_.subkey husers _).andThen fun key account haccount => ?_
    exact (shows_.value haccount ['F']).andThen fun fval f hf => hf.data.map? fun data => (rid, data)
  | _ => exact .const _

/-- The entry of one name. -/
theorem nameEntry_evals {nameKey usersKey : Key} {a users : reg.Node} (hname : rel nameKey a)
    (husers : rel usersKey users) :
    Evals (fun n => nameEntry jiff hive.reader n usersKey nameKey)
      (.ok (entriesOf jiff reg users a)) := by
  simp only [nameEntry, entriesOf, shows_.name hname]
  by_cases hempty : reg.name a = []
  · simp only [if_pos hempty]
    exact .const _
  · simp only [if_neg hempty]
    refine Evals.bind (ridAndF_evals shows_ hname husers) ?_
    cases recordOf reg users a with
    | none => exact .const _
    | some found => exact .const _

/-- What the extraction does, on what is shown. -/
theorem parse_evals : Evals (fun n => parse jiff hive n) (.ok (accountsOf jiff reg)) :=
  (shows_.openKey namesPath).someOr (d := []) fun _ _ ha =>
    (shows_.openKey usersPath).someOr (d := []) fun _ _ hu =>
      shows_.onSubkeys ha (h := List.flatMap _) rfl fun _ _ hkids =>
        Evals.flatMapM hkids fun _ _ hkid => nameEntry_evals jiff shows_ hkid.2 hu

/-- The entry of a user name: a stored account as it is, or the name alone if no record is found. -/
structure EntryOf (users a : reg.Node) (e : SamUserEntry) : Prop where
  username : e.username = reg.name a
  stored : ∀ account, Stores reg users a account → e = account.entry jiff (reg.name a)
  bare : recordOf reg users a = none → e = bareEntry (reg.name a)

omit shows_ in
/-- A nonempty name has one entry: the stored account where its record is found, and the name alone
    otherwise. -/
theorem entriesOf_eq {users a : reg.Node} (hname : reg.name a ≠ [])
    (hdistinct : ((reg.subkeyList users).map fun b => toAsciiUppercase (reg.name b)).Nodup) :
    ∃ e, entriesOf jiff reg users a = [e] ∧ EntryOf jiff users a e := by
  refine ⟨_, if_neg hname, ?_, fun account h => ?_, fun h => ?_⟩
  · cases recordOf reg users a <;> rfl
  · rw [h.recordOf_eq hdistinct]
    exact account.parseFRecord_toBytes jiff (reg.name a)
  · rw [h]

/-- **Every account has its entry.**  Where the keys with the accounts can be told apart, each
    nonempty user name has one entry, in the order of the names: the stored account, field by
    field, or the name alone.  A key with a record belongs to one RID. -/
theorem parse_accounts {names users : reg.Node} (hnames : reg.openKey namesPath = some names)
    (husers : reg.openKey usersPath = some users)
    (hdistinct : ((reg.subkeyList users).map fun b => toAsciiUppercase (reg.name b)).Nodup) :
    (∃ entries, Evals (fun n => parse jiff hive n) (.ok entries) ∧
      List.Forall₂ (EntryOf jiff users)
        ((reg.subkeyList names).filter fun a => reg.name a ≠ []) entries) ∧
    ∀ (b : reg.Node) (rid rid' : UInt32), reg.subkey users (hexUpper 8 rid.toNat) = some b →
      reg.subkey users (hexUpper 8 rid'.toNat) = some b → rid = rid' := by
  have hrun := parse_evals jiff shows_
  rw [accountsOf, hnames, husers] at hrun
  refine ⟨⟨_, hrun, ?_⟩, fun b rid rid' h h' => ?_⟩
  · clear hrun
    show List.Forall₂ _ _ ((reg.subkeyList names).flatMap (entriesOf jiff reg users))
    induction reg.subkeyList names with
    | nil => exact .nil
    | cons a rest ih =>
      rw [List.flatMap_cons]
      by_cases hname : reg.name a = []
      · rw [List.filter_cons_of_neg (by simpa using hname), entriesOf, if_pos hname]
        exact ih
      · obtain ⟨e, hentries, he⟩ := entriesOf_eq jiff hname hdistinct
        rw [List.filter_cons_of_pos (by simpa using hname), hentries]
        exact .cons he ih
  · have hsame := (Registry.mem_of_subkey h).2.symm.trans (Registry.mem_of_subkey h').2
    rw [toAsciiUppercase_hexUpper, toAsciiUppercase_hexUpper] at hsame
    have hvalue := congrArg hexValue hsame
    rw [hexValue_hexUpper, hexValue_hexUpper] at hvalue
    exact UInt32.toNat_inj.mp hvalue

end Accounts

theorem length_guestHead : (List.replicate 8 (0 : UInt8)).length = 8 := List.length_replicate

/-- A disabled account that never expires. -/
def guest : Account where
  rid := 501
  lastLogin := 0
  passwordLastSet := 0
  accountExpires := 0x7FFFFFFFFFFFFFFF
  accountFlags := 0x0211
  loginCount := 2
  head := List.replicate 8 0
  beforeFlags := List.replicate 24 0
  beforeCount := List.replicate 6 0
  tail := List.replicate 4 0
  length_head := length_guestHead
  length_beforeFlags := List.length_replicate
  length_beforeCount := List.length_replicate

/-- A hive with this account. -/
def guestBuilder : TestHiveBuilder where
  keys := []
  values := [⟨namesPath ++ "\\Guest".toList, [], guest.rid, []⟩,
    ⟨usersPath ++ "\\000001F5".toList, ['F'], 3, guest.toBytes⟩]
  keyFiletime := 0

set_option maxRecDepth 20000 in
/-- The sample can be written. -/
theorem guestBuilder_valid : guestBuilder.Valid where
  components := by decide
  valueNames := by decide
  children p := by
    have hlen : (guestBuilder.childNames p).length ≤ guestBuilder.closure.length :=
      List.length_filterMap_le _ _
    exact hlen.trans (by decide)
  data := by decide

set_option maxRecDepth 20000 in
/-- The sample stores the account under its number. -/
theorem guest_stored :
    Stores guestBuilder.registry (guestBuilder.nodeAt usersPath)
      (guestBuilder.nodeAt (namesPath ++ "\\Guest".toList)) guest where
  rid := ⟨⟨[], .unknown 501, some []⟩, by decide, rfl⟩
  record := ⟨guestBuilder.nodeAt (usersPath ++ "\\000001F5".toList), by decide, by decide,
    ⟨['F'], .binary, some guest.toBytes⟩, by decide, rfl⟩

set_option maxRecDepth 20000 in
/-- The one account, field by field. -/
theorem parse_accounts_guest : ∃ image hive,
    (guestBuilder.build 7 : Exec HiveError Bytes) = .ok image ∧ Hive.fromBytes image = .ok hive ∧
      Evals (fun n => parse (⟨some, fun _ => none⟩ : Jiff Int) hive n)
        (.ok [guest.entry ⟨some, fun _ => none⟩ "Guest".toList]) := by
  obtain ⟨image, hive, hbuild, hopen, hshows⟩ :=
    build_shows guestBuilder_valid (n := 7) (by decide) (by decide)
  refine ⟨image, hive, hbuild, hopen, ?_⟩
  obtain ⟨⟨entries, hrun, hall⟩, _⟩ :=
    @parse_accounts _ ⟨some, fun _ => none⟩ _ _ _ hshows (guestBuilder.nodeAt namesPath)
      (guestBuilder.nodeAt usersPath)
      (by decide) (by decide) (by decide)
  have hnames : ((guestBuilder.registry.subkeyList (guestBuilder.nodeAt namesPath)).filter fun a =>
      guestBuilder.registry.name a ≠ []) = [guestBuilder.nodeAt (namesPath ++ "\\Guest".toList)] := by
    decide
  rw [hnames] at hall
  obtain ⟨e, rest, he, hrest, rfl⟩ := List.forall₂_cons_left_iff.mp hall
  obtain rfl := List.forall₂_nil_left_iff.mp hrest
  rwa [he.stored guest guest_stored] at hrun

end Sam

end Winreg
