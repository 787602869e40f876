import HenchDB.Lib.Entries
import HenchDB.Lib.Outcome
import HenchDB.Query.Gate

/-!
# The user store

`auth.bin` holds the accounts of the server: for each name the plugin, the hash
of the password and the grants.  A file is kept here by its fields, in the order
they are written (`AuthFile`); how long a field may be is checked by `load` and
`save` as the source does.  Reading and writing can also fail for reasons of the
disk, which a call is given (`Disk`).  A write goes to a temporary file that is
renamed at the end, so a write that fails leaves the file as it was.

The two digests are arbitrary functions with results of 32 and 20 bytes.
-/

namespace HenchDB.Auth

open Std (ExtTreeMap)
open Query (GrantRule)

/-! ## Verifiers -/

/-- `sha256` and `sha1`. -/
structure Digests where
  sha256 : Bytes → Bytes
  sha1 : Bytes → Bytes
  length_sha256 : ∀ data, (sha256 data).length = 32
  length_sha1 : ∀ data, (sha1 data).length = 20

def pluginCachingSha2 : String := "caching_sha2_password"

def pluginNative : String := "mysql_native_password"

structure Verifier where
  plugin : String
  hash : Bytes
  grants : List GrantRule
deriving DecidableEq, Repr

namespace Verifier

def newSha2 (d : Digests) (password : Bytes) : Verifier := ⟨pluginCachingSha2, d.sha256 password, []⟩

def newNative (d : Digests) (password : Bytes) : Verifier :=
  ⟨pluginNative, d.sha1 (d.sha1 password), []⟩

def empty : Verifier := ⟨pluginCachingSha2, [], []⟩

end Verifier

/-- The map of a `UserStore`. -/
abbrev Accounts := ExtTreeMap String Verifier

/-! ## The file -/

/-- The fields of `auth.bin`. -/
structure AuthFile where
  version : Nat
  users : List (String × Verifier)
deriving DecidableEq, Repr

/-- What the disk answers with when a call reads the file and when it writes it:
an error, or none. -/
structure Disk where
  reading : Option String
  writing : Option String

def authFormatVersion : Nat := 2

def authFormatV1 : Nat := 1

/-- The check that `decode_grants` makes of one rule. -/
def decodeGrant (g : GrantRule) : Except String Unit :=
  if 1024 < (utf8 g.db).length || 1024 < (utf8 g.tbl).length then
    .error "auth file: grant scope too large"
  else if g.db = "" || g.tbl = "" then .error "auth file: bad grant scope"
  else .ok ()

def decodeGrants (grants : List GrantRule) : Except String Unit :=
  if 65536 < grants.length then .error "auth file: too many grants" else grants.forM decodeGrant

/-- The checks of one account in `UserStore::load`. -/
def decodeUser (version : Nat) (name : String) (v : Verifier) : Except String Unit :=
  if (utf8 name).length = 0 || 1024 < (utf8 name).length then .error "auth file: bad username"
  else if v.plugin ≠ pluginCachingSha2 && v.plugin ≠ pluginNative then
    .error "auth file: bad plugin"
  else if 64 < v.hash.length then .error "auth file: bad verifier"
  else if v.hash ≠ [] && v.hash.length ≠ 32 && v.hash.length ≠ 20 then
    .error "auth file: bad verifier"
  else if version = authFormatV1 then .ok () else decodeGrants v.grants

/-- The checks of `UserStore::load`. -/
def AuthFile.check (f : AuthFile) : Except String Unit :=
  if f.version ≠ authFormatVersion && f.version ≠ authFormatV1 then .error "auth file: version"
  else if 10000 < f.users.length then .error "auth file: user count too large"
  else f.users.forM fun e => decodeUser f.version e.1 e.2

/-- An account of a file of the first version, which has no grants in it. -/
def migrate (name : String) (v : Verifier) : Verifier :=
  { v with grants := if name = "root" then [] else [⟨.all, "*", "*"⟩] }

def AuthFile.accounts (f : AuthFile) : Accounts :=
  Entries.alterAll (fun v _ => some v)
    (if f.version = authFormatV1 then f.users.map fun e => (e.1, migrate e.1 e.2) else f.users) ∅

def load (disk : Disk) (file : Option AuthFile) : Except String Accounts :=
  match disk.reading, file with
  | some e, _ => .error e
  | none, none => .error "auth file: No such file or directory (os error 2)"
  | none, some f => do
    f.check
    return f.accounts

def encodeGrants (grants : List GrantRule) : Except String Unit :=
  if 65536 < grants.length then .error "auth file: too many grants"
  else grants.forM fun g =>
    if 1024 < (utf8 g.db).length || 1024 < (utf8 g.tbl).length then
      .error "auth file: bad grant scope"
    else .ok ()

/-- The checks of one account in `UserStore::save`. -/
def encodeUser (v : Verifier) : Except String Unit :=
  if v.plugin ≠ pluginCachingSha2 && v.plugin ≠ pluginNative then .error "auth file: bad plugin"
  else if 64 < v.hash.length then .error "auth file: bad verifier"
  else encodeGrants v.grants

/-- `UserStore::save`, which returns the new file. -/
def save (disk : Disk) (users : Accounts) : Except String AuthFile := do
  users.toList.forM fun e => encodeUser e.2
  match disk.writing with
  | some e => .error e
  | none => return ⟨authFormatVersion, users.toList⟩

/-- `UserStore::load_or_bootstrap`: the store, whether it is fresh, and the file. -/
def loadOrBootstrap (disk : Disk) : Option AuthFile →
    Except String (Accounts × Bool) × Option AuthFile
  | some f => (do return (← load disk (some f), false), some f)
  | none =>
    let users : Accounts := (∅ : Accounts).insert "root" .empty
    match save disk users with
    | .ok f => (.ok (users, true), some f)
    | .error e => (.error e, none)

/-- The verifier `UserStore::set_password` makes. -/
def newVerifier (d : Digests) (user : String) (password : Bytes) (plugin : String) :
    Except String Verifier :=
  if user = "" || 256 < (utf8 user).length || user.toList.contains '\x00' then
    .error "bad username"
  else if plugin = pluginCachingSha2 then .ok (.newSha2 d password)
  else if plugin = pluginNative then .ok (.newNative d password)
  else .error s!"unknown plugin '{plugin}'"

/-- `UserStore::set_password`: the store and the file it is saved to. -/
def setPassword (d : Digests) (disk : Disk) (users : Accounts) (user : String) (password : Bytes)
    (plugin : String) : Except String (Accounts × AuthFile) := do
  let v ← newVerifier d user password plugin
  let users := users.insert user v
  return (users, ← save disk users)

/-- `passwd_cmd`: a store of its own, loaded for the one change. -/
def passwdCmd (d : Digests) (disk : Disk) (file : Option AuthFile) (user : String)
    (password : Bytes) (plugin : String) : Except String Unit × Option AuthFile :=
  match loadOrBootstrap disk file with
  | (.error e, file) => (.error e, file)
  | (.ok (users, _), file) =>
    match setPassword d disk users user password plugin with
    | .ok (_, f) => (.ok (), some f)
    | .error e => (.error e, file)

/-! ## What loading and saving do -/

variable {disk : Disk} {users : Accounts} {f : AuthFile}

theorem load_iff {a : Accounts} : load disk (some f) = .ok a ↔
    disk.reading = none ∧ f.check = .ok () ∧ f.accounts = a := by
  cases hr : disk.reading <;> cases hc : f.check <;>
    simp [load, hr, hc, bind, Except.bind, pure, Except.pure]

theorem load_eq_ok {a : Accounts} (h : load disk (some f) = .ok a) : a = f.accounts :=
  (load_iff.mp h).2.2.symm

theorem save_iff : save disk users = .ok f ↔
    (∀ e ∈ users.toList, encodeUser e.2 = .ok ()) ∧ disk.writing = none ∧
      f = ⟨authFormatVersion, users.toList⟩ := by
  rw [← Outcome.forM_ok, save]
  cases users.toList.forM fun e => encodeUser e.2 <;> cases disk.writing <;>
    simp [bind, Except.bind, pure, Except.pure, eq_comm]

/-- A file that was saved holds what was saved. -/
theorem accounts_of_save (h : save disk users = .ok f) : f.accounts = users := by
  obtain ⟨-, -, rfl⟩ := save_iff.mp h
  exact Entries.alterAll_toList_empty users

/-- A verifier that was made has a digest and no grants. -/
theorem newVerifier_spec {d : Digests} {user plugin : String} {password : Bytes} {v : Verifier}
    (h : newVerifier d user password plugin = .ok v) :
    v.grants = [] ∧ (v.hash.length = 32 ∨ v.hash.length = 20) ∧
      (utf8 user).length ≠ 0 ∧ (utf8 user).length ≤ 256 := by
  rw [newVerifier] at h
  split at h
  · cases h
  · next hname =>
    have hnamed : (utf8 user).length ≠ 0 ∧ (utf8 user).length ≤ 256 := by
      simp only [Bool.or_eq_true, decide_eq_true_eq, not_or] at hname
      refine ⟨fun hlen => hname.1.1 ?_, by omega⟩
      simpa [utf8] using hlen
    split at h
    · cases h
      exact ⟨rfl, .inl (d.length_sha256 _), hnamed⟩
    · split at h
      · cases h
        exact ⟨rfl, .inr (d.length_sha1 _), hnamed⟩
      · cases h

end HenchDB.Auth
