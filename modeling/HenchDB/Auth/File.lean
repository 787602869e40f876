import HenchDB.Auth.UserStore

/-!
# The bytes of the user store

`auth.bin` begins with a magic number, the version and the number of accounts.  An account
is its name, its plugin, its hash and its grants.  `decodeFile` reads these in turn and
makes each check where the source makes it.

What was saved is read as the fields it was written from, or refused as they are
(`loadBytes_bytes`), so a run may keep the file by its fields.  Whatever a file says, no
more than 10,000 accounts are loaded from it (`size_of_loadBytes`).
-/

namespace HenchDB.Auth

open Codec
open Std (ExtTreeMap)
open Query (GrantRule Privilege)

/-! ## Writing -/

def authMagic : Bytes := [72, 68, 66, 65]

/-- `Privilege::codec_byte`. -/
def codecByte : Privilege → UInt8
  | .select => 1
  | .insert => 2
  | .update => 3
  | .delete => 4
  | .create => 5
  | .drop => 6
  | .all => 7

/-- A text and its length in front of it. -/
def textBytes (s : String) : Bytes := leBytes 4 (utf8 s).length ++ utf8 s

def grantBytes (g : GrantRule) : Bytes :=
  [codecByte g.privilege] ++ (textBytes g.db ++ textBytes g.tbl)

/-- What `encode_grants` writes. -/
def grantsBytes (grants : List GrantRule) : Bytes :=
  leBytes 4 grants.length ++ grants.flatMap grantBytes

/-- The byte of a plugin that `encodeUser` has accepted. -/
def pluginByte (plugin : String) : UInt8 := if plugin = pluginCachingSha2 then 1 else 2

def hashBytes (hash : Bytes) : Bytes := [UInt8.ofNat hash.length] ++ hash

def verifierBytes (v : Verifier) : Bytes :=
  [pluginByte v.plugin] ++ (hashBytes v.hash ++ grantsBytes v.grants)

/-- An account, its name in front. -/
def userBytes (e : String × Verifier) : Bytes := textBytes e.1 ++ verifierBytes e.2

/-- What `UserStore::save` writes. -/
def AuthFile.bytes (f : AuthFile) : Bytes :=
  authMagic ++ (leBytes 4 f.version ++ (leBytes 4 f.users.length ++ f.users.flatMap userBytes))

/-- `UserStore::save`, which returns the bytes of the new file. -/
def saveBytes (disk : Disk) (users : Accounts) : Except String Bytes :=
  return (← save disk users).bytes

/-! ## Reading -/

def truncated : String := "auth file: truncated"

/-- `Privilege::from_codec_byte`. -/
def fromCodecByte : UInt8 → Option Privilege
  | 1 => some .select
  | 2 => some .insert
  | 3 => some .update
  | 4 => some .delete
  | 5 => some .create
  | 6 => some .drop
  | 7 => some .all
  | _ => none

/-- `String::from_utf8` on the next `n` bytes. -/
def takeText (n : Nat) (bad : String) : Decoder String String := do
  match fromUtf8 (← takeN n truncated) with
  | some s => return s
  | none => throw bad

/-- `read_u32_capped` as `decode_grants` calls it, and the text it reads. -/
def takeScope : Decoder String String := do
  let n ← takeLe 4 truncated
  if 1024 < n then throw "auth file: grant scope too large"
  else takeText n "auth file: bad grant scope"

def takePrivilege : Decoder String Privilege := do
  match fromCodecByte (← takeByte truncated) with
  | some p => return p
  | none => throw "auth file: bad privilege"

/-- A rule of `decode_grants`. -/
def takeGrant : Decoder String GrantRule := do
  let p ← takePrivilege
  let db ← takeScope
  let tbl ← takeScope
  if db = "" || tbl = "" then throw "auth file: bad grant scope" else return ⟨p, db, tbl⟩

/-- `decode_grants`, for a file of a version that has grants. -/
def takeGrants (version : Nat) : Decoder String (List GrantRule) :=
  if version = authFormatV1 then pure []
  else do
    let n ← takeLe 4 truncated
    if 65536 < n then throw "auth file: too many grants" else takeMany takeGrant n

def takeName : Decoder String String := do
  let n ← takeLe 4 truncated
  if n = 0 || 1024 < n then throw "auth file: bad username"
  else takeText n "auth file: bad username"

def takePlugin : Decoder String String := do
  match ← takeByte truncated with
  | 1 => return pluginCachingSha2
  | 2 => return pluginNative
  | _ => throw "auth file: bad plugin"

def takeHash : Decoder String Bytes := do
  let n ← takeByte truncated
  if 64 < n.toNat then throw "auth file: bad verifier"
  else
    let hash ← takeN n.toNat truncated
    if hash ≠ [] && hash.length ≠ 32 && hash.length ≠ 20 then throw "auth file: bad verifier"
    else return hash

/-- An account behind its name. -/
def takeVerifier (version : Nat) : Decoder String Verifier := do
  let plugin ← takePlugin
  let hash ← takeHash
  let grants ← takeGrants version
  return ⟨plugin, hash, grants⟩

/-- An account of `UserStore::load`. -/
def takeUser (version : Nat) : Decoder String (String × Verifier) := do
  let name ← takeName
  let v ← takeVerifier version
  return (name, v)

/-- What `UserStore::load` reads; bytes behind the last account stay unread. -/
def decodeFile : Decoder String AuthFile := do
  let magic ← takeN 4 truncated
  if magic ≠ authMagic then throw "auth file: bad magic"
  else
    let version ← takeLe 4 truncated
    if version ≠ authFormatVersion && version ≠ authFormatV1 then throw "auth file: version"
    else
      let n ← takeLe 4 truncated
      if 10000 < n then throw "auth file: user count too large"
      else return ⟨version, ← takeMany (takeUser version) n⟩

/-- `UserStore::load`, of the bytes of the file. -/
def loadBytes (disk : Disk) (file : Option Bytes) : Except String Accounts :=
  match disk.reading, file with
  | some e, _ => .error e
  | none, none => .error "auth file: No such file or directory (os error 2)"
  | none, some bytes => do
    let (f, _) ← decodeFile.run bytes
    return f.accounts

/-! ## What was written is read back, or refused -/

variable {disk disk' : Disk} {users : Accounts} {f : AuthFile} {g : GrantRule}
  {grants : List GrantRule} {s n : String} {v : Verifier}

theorem saveBytes_of_save (h : save disk users = .ok f) : saveBytes disk users = .ok f.bytes := by
  rw [saveBytes, h]
  rfl

theorem reads_takeText (bad : String) : Reads (takeText (utf8 s).length bad) (utf8 s) s := by
  refine (reads_takeN truncated rfl).bind_pure ?_
  rw [fromUtf8_utf8]
  exact .pure

theorem reads_takeScope (h : (utf8 s).length ≤ 1024) : Reads takeScope (textBytes s) s := by
  refine (reads_takeLe truncated (h.trans_lt (by decide))).bind ?_
  rw [if_neg (by omega)]
  exact reads_takeText _

theorem reads_takePrivilege (p : Privilege) : Reads takePrivilege [codecByte p] p := by
  refine (reads_takeByte _ _).bind_pure ?_
  cases p <;> exact .pure

theorem answers_takeGrant (hdb : (utf8 g.db).length ≤ 1024) (htbl : (utf8 g.tbl).length ≤ 1024) :
    Answers takeGrant (grantBytes g) (decodeGrant g >>= fun _ => .ok g) := by
  rw [decodeGrant, if_neg (by simp only [Bool.or_eq_true, decide_eq_true_eq]; omega)]
  refine (reads_takePrivilege _).bind_answers ((reads_takeScope hdb).bind_answers ?_)
  rw [← List.append_nil (textBytes g.tbl)]
  refine (reads_takeScope htbl).bind_answers ?_
  split
  · exact .throw
  · exact Reads.pure

theorem encodeUser_iff : encodeUser v = .ok () ↔
    (v.plugin = pluginCachingSha2 ∨ v.plugin = pluginNative) ∧ v.hash.length ≤ 64 ∧
      encodeGrants v.grants = .ok () := by
  rw [encodeUser]
  split_ifs <;> grind

theorem encodeGrants_iff : encodeGrants grants = .ok () ↔ grants.length ≤ 65536 ∧
    ∀ g ∈ grants, (utf8 g.db).length ≤ 1024 ∧ (utf8 g.tbl).length ≤ 1024 := by
  rw [encodeGrants]
  split
  · simp_all
  · rw [Outcome.forM_ok]
    have hlen : grants.length ≤ 65536 := by omega
    simp only [hlen, true_and]
    refine forall₂_congr fun g _ => ?_
    split_ifs <;> grind

theorem answers_takeGrants (h : encodeGrants grants = .ok ()) :
    Answers (takeGrants authFormatVersion) (grantsBytes grants)
      (decodeGrants grants >>= fun _ => .ok grants) := by
  obtain ⟨hlen, hscopes⟩ := encodeGrants_iff.mp h
  rw [decodeGrants, takeGrants, if_neg (by decide)]
  refine (reads_takeLe truncated (hlen.trans_lt (by decide))).bind_answers ?_
  rw [if_neg (by omega), if_neg (by omega)]
  exact answers_takeMany fun g hg => answers_takeGrant (hscopes g hg).1 (hscopes g hg).2

theorem answers_takeName (h : (utf8 n).length < 2 ^ 32) : Answers takeName (textBytes n)
    (if (utf8 n).length = 0 || 1024 < (utf8 n).length then .error "auth file: bad username"
      else .ok n) := by
  refine (reads_takeLe truncated h).bind_answers ?_
  split
  · exact .throw
  · exact reads_takeText _

theorem reads_takePlugin (h : v.plugin = pluginCachingSha2 ∨ v.plugin = pluginNative) :
    Reads takePlugin [pluginByte v.plugin] v.plugin := by
  refine (reads_takeByte _ _).bind_pure ?_
  rcases h with h | h <;> rw [h] <;> exact .pure

theorem answers_takeHash (h : v.hash.length ≤ 64) : Answers takeHash (hashBytes v.hash)
    (if v.hash ≠ [] && v.hash.length ≠ 32 && v.hash.length ≠ 20 then
      .error "auth file: bad verifier" else .ok v.hash) := by
  have hlen : (UInt8.ofNat v.hash.length).toNat = v.hash.length :=
    UInt8.toNat_ofNat_of_lt' (h.trans_lt (by decide))
  refine (reads_takeByte _ _).bind_answers ?_
  rw [hlen, if_neg (by omega), ← List.append_nil v.hash]
  refine (reads_takeN truncated (by simp)).bind_answers ?_
  rw [List.append_nil]
  split
  · exact .throw
  · exact Reads.pure

/-- An account that was written is read, or refused for what `decodeUser` finds. -/
theorem answers_takeUser (h : encodeUser v = .ok ()) (hn : (utf8 n).length < 2 ^ 32) :
    Answers (takeUser authFormatVersion) (userBytes (n, v))
      (decodeUser authFormatVersion n v >>= fun _ => .ok (n, v)) := by
  obtain ⟨hplugin, hhash, hgrants⟩ := encodeUser_iff.mp h
  have hverifier : Answers (takeVerifier authFormatVersion) (verifierBytes v) _ :=
    (reads_takePlugin hplugin).bind_answers ((answers_takeHash hhash).bind fun hash _ =>
      (answers_takeGrants hgrants).bind_pure fun grants => Verifier.mk v.plugin hash grants)
  have hall := (answers_takeName hn).bind fun name _ => hverifier.bind_pure fun v => (name, v)
  refine Eq.mp (congrArg (Answers _ _) ?_) hall
  have hknown : (v.plugin ≠ pluginCachingSha2 && v.plugin ≠ pluginNative) = false := by
    rcases hplugin with h | h <;> simp [h]
  have hversion : ¬ authFormatVersion = authFormatV1 := by decide
  rw [decodeUser, hknown, if_neg Bool.false_ne_true, if_neg (by omega : ¬ 64 < v.hash.length),
    if_neg hversion]
  split_ifs
  · rfl
  · rfl
  · rfl
  · cases decodeGrants v.grants <;> rfl

/-- A file that was saved is loaded from its bytes as from its fields. -/
theorem loadBytes_bytes (hsave : save disk users = .ok f) (hsize : users.size < 2 ^ 32)
    (hnames : ∀ e ∈ users.toList, (utf8 e.1).length < 2 ^ 32) :
    loadBytes disk' (some f.bytes) = load disk' (some f) := by
  obtain ⟨hencode, -, rfl⟩ := save_iff.mp hsave
  have hcount : users.toList.length < 2 ^ 32 := by rwa [ExtTreeMap.length_toList]
  generalize users.toList = us at hencode hnames hcount
  have husers := (answers_takeMany fun e he => answers_takeUser (n := e.1) (v := e.2)
    (hencode e he) (hnames e he)).bind_pure (AuthFile.mk authFormatVersion)
  have hfile : Answers decodeFile (AuthFile.bytes ⟨authFormatVersion, us⟩)
      (AuthFile.check ⟨authFormatVersion, us⟩ >>= fun _ => .ok ⟨authFormatVersion, us⟩) := by
    have hmagic : Reads (takeN 4 truncated) authMagic authMagic := reads_takeN _ rfl
    have hversion : Reads (takeLe 4 truncated) (leBytes 4 authFormatVersion) authFormatVersion :=
      reads_takeLe _ (by decide)
    refine hmagic.bind_answers ?_
    rw [if_neg (not_not.mpr rfl)]
    refine hversion.bind_answers ?_
    rw [if_neg (by decide)]
    refine (reads_takeLe truncated hcount).bind_answers ?_
    have hcheck : AuthFile.check ⟨authFormatVersion, us⟩ =
        if 10000 < us.length then .error "auth file: user count too large"
        else us.forM fun e => decodeUser authFormatVersion e.1 e.2 := rfl
    rw [hcheck]
    split
    · exact .throw
    · refine Eq.mp (congrArg (Answers _ _) ?_) husers
      cases us.forM fun e => decodeUser authFormatVersion e.1 e.2 <;> rfl
  have hrun := hfile []
  rw [List.append_nil] at hrun
  cases hr : disk'.reading with
  | some e => simp only [loadBytes, load, hr]
  | none =>
    simp only [loadBytes, load, hr, hrun]
    cases AuthFile.check ⟨authFormatVersion, us⟩ <;> rfl

/-! ## Too many accounts -/

theorem size_accounts_le (f : AuthFile) : f.accounts.size ≤ f.users.length := by
  rw [AuthFile.accounts, ← Entries.foldl_insert_eq]
  refine (Entries.size_foldl_insert_le _ _).trans ?_
  split <;> simp

theorem yields_decodeFile : Yields decodeFile fun f => f.users.length ≤ 10000 := by
  refine Yields.trivial.bind fun magic _ => ?_
  split
  · exact .throw
  · refine Yields.trivial.bind fun version _ => ?_
    split
    · exact .throw
    · refine Yields.trivial.bind fun n _ => ?_
      split
      · exact .throw
      · exact (yields_takeMany Yields.trivial n).bind fun l hl =>
          .pure (hl.1.trans_le (not_lt.mp ‹_›))

theorem size_of_loadBytes {file : Option Bytes} (h : loadBytes disk file = .ok users) :
    users.size ≤ 10000 := by
  unfold loadBytes at h
  split at h
  · cases h
  · cases h
  · obtain ⟨⟨f, rest⟩, hf, h⟩ := Outcome.bind_ok h
    cases h
    exact (size_accounts_le f).trans (yields_decodeFile _ _ _ hf)

end HenchDB.Auth
