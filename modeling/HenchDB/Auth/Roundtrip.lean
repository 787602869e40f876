import HenchDB.Auth.File
import HenchDB.Auth.Persist

/-!
# What is saved is read back

`load` refuses more than 10,000 users and a grant with an empty scope, `save` neither.
Apart from these, whatever a server gives to `save` is within the limits of the reader
(`Kept`): a name comes from the parser, from `set_password` or from a file that was
loaded, and a hash is a digest or was loaded.  So a saved file is read back just if the
accounts are few enough and no scope is empty (`saved_loads`).
-/

namespace HenchDB.Auth

open Std (ExtTreeMap)
open Relation (ReflTransGen)
open Query (GrantRule)

/-- The names that `parse_user_name` returns. -/
def UserStatement.Parsed : UserStatement → Prop
  | .createUser n _ _ | .dropUser n _ | .alterUser n _ | .grant _ _ n | .revoke _ _ n =>
    (utf8 n).length ≠ 0 ∧ (utf8 n).length ≤ 256

/-- An action whose statement the parser has returned. -/
def Acts (d : Digests) (s s' : Server) : Prop :=
  ∃ a, (∀ session stmt, a = .statement session stmt → stmt.Parsed) ∧ s' = s.act d a

/-- The accounts that a persist or a `passwd` gives to `save`. -/
inductive Saves (d : Digests) (s : Server) : Accounts → Prop
  | persist (disk : Disk) :
    Saves d s (merge d (loaded disk s.file) s.privs.exportPrivileges.1)
  | setPassword {disk : Disk} {users : Accounts} {user plugin : String} {password : Bytes}
    {v : Verifier} (hload : load disk s.file = .ok users)
    (hv : newVerifier d user password plugin = .ok v) : Saves d s (users.insert user v)

/-! ## The limits of the reader -/

def Named (n : String) : Prop := (utf8 n).length ≠ 0 ∧ (utf8 n).length ≤ 1024

def Hashed (hash : Bytes) : Prop := hash = [] ∨ hash.length = 32 ∨ hash.length = 20

def Readable (users : Accounts) : Prop :=
  ∀ n v, users[n]? = some v → Named n ∧ Hashed v.hash

def Scoped (g : GrantRule) : Prop := g.db ≠ "" ∧ g.tbl ≠ ""

variable {d : Digests} {disk : Disk} {file : Option AuthFile} {f : AuthFile} {s s' : Server}
  {users : Accounts} {n : String} {v : Verifier} {k : Nat} {grants : List GrantRule}

theorem decodeUser_iff : decodeUser k n v = .ok () ↔
    Named n ∧ (v.plugin = pluginCachingSha2 ∨ v.plugin = pluginNative) ∧ Hashed v.hash ∧
      (k = authFormatV1 ∨ decodeGrants v.grants = .ok ()) := by
  have hlen : v.hash = [] ↔ v.hash.length = 0 := List.length_eq_zero_iff.symm
  simp only [decodeUser, Named, Hashed]
  split_ifs <;> grind

/-- The reader checks of a list of grants what the writer does, and the scopes. -/
theorem decodeGrants_iff : decodeGrants grants = .ok () ↔
    encodeGrants grants = .ok () ∧ ∀ g ∈ grants, Scoped g := by
  rw [decodeGrants, encodeGrants]
  split
  · simp
  · rw [Outcome.forM_ok, Outcome.forM_ok, ← forall₂_and]
    refine forall₂_congr fun g _ => ?_
    rw [decodeGrant, Scoped]
    split_ifs <;> grind

theorem check_iff : f.check = .ok () ↔
    (f.version = authFormatVersion ∨ f.version = authFormatV1) ∧ f.users.length ≤ 10000 ∧
      ∀ e ∈ f.users, decodeUser f.version e.1 e.2 = .ok () := by
  rw [AuthFile.check, ← Outcome.forM_ok]
  split_ifs <;> simp_all
  omega

theorem readable_empty : Readable ∅ := fun n v h => by simp at h

theorem Readable.insert (h : Readable users) (hn : Named n) (hv : Hashed v.hash) :
    Readable (users.insert n v) := by
  intro m w hw
  rw [ExtTreeMap.getElem?_insert] at hw
  split at hw
  · next heq =>
    cases Std.compare_eq_iff_eq.mp heq
    cases hw
    exact ⟨hn, hv⟩
  · exact h m w hw

theorem mem_users_of_accounts (h : f.accounts[n]? = some v) :
    ∃ w, (n, w) ∈ f.users ∧ v.hash = w.hash := by
  rw [AuthFile.accounts, ← Entries.foldl_insert_eq] at h
  have hmem := (Entries.of_getElem?_foldl_insert h).resolve_right (by simp)
  split at hmem
  · obtain ⟨⟨m, w⟩, hin, heq⟩ := List.mem_map.mp hmem
    cases heq
    exact ⟨w, hin, rfl⟩
  · exact ⟨v, hmem, rfl⟩

theorem readable_of_load (h : load disk file = .ok users) : Readable users := by
  cases file with
  | none => cases hr : disk.reading <;> simp [load, hr] at h
  | some f =>
    obtain ⟨-, hcheck, rfl⟩ := load_iff.mp h
    intro n v hv
    obtain ⟨w, hw, hhash⟩ := mem_users_of_accounts hv
    obtain ⟨hn, -, hw, -⟩ := decodeUser_iff.mp ((check_iff.mp hcheck).2.2 _ hw)
    exact ⟨hn, hhash ▸ hw⟩

theorem readable_loaded : Readable (loaded disk file) := by
  rw [loaded]
  split
  · next h => exact readable_of_load h
  · exact readable_empty

/-! ## What is given to the writer -/

/-- What holds of a server at any time. -/
structure Kept (s : Server) : Prop where
  present : s.file.isSome
  readable : Readable s.accounts
  pending : ∀ n, n ∈ s.privs.pending → Named n

theorem readable_merge {privs : PrivilegeStore} (h : Readable users)
    (hpending : ∀ n, n ∈ privs.pending → Named n) :
    Readable (merge d users privs.exportPrivileges.1) := by
  have hstaged : ∀ n v, staged d privs users n = some v → Named n ∧ Hashed v.hash := by
    intro n v hv
    rw [staged] at hv
    cases hp : privs.pending[n]? with
    | none => exact h n v (by simpa [hp] using hv)
    | some password =>
      have hn := hpending n (by rw [ExtTreeMap.mem_iff_isSome_getElem?, hp]; rfl)
      have hsha : Hashed (d.sha256 (utf8 password)) := .inr (.inl (d.length_sha256 _))
      simp only [hp, Option.elim_some, stage] at hv
      split at hv
      · cases hv
        exact ⟨hn, hsha⟩
      · cases hv
        exact ⟨hn, hsha⟩
  intro n v hv
  rw [getElem?_merge] at hv
  split at hv
  · cases hv
  · split at hv
    · obtain ⟨w, hw, rfl⟩ := Option.map_eq_some_iff.mp hv
      exact hstaged n w hw
    · exact hstaged n v hv

theorem Readable.set {user plugin : String} {password : Bytes} (h : Readable users)
    (hv : newVerifier d user password plugin = .ok v) : Readable (users.insert user v) := by
  obtain ⟨-, hhash, hn⟩ := newVerifier_spec hv
  exact h.insert ⟨hn.1, hn.2.trans (by decide)⟩ (.inr hhash)

/-- A name that a statement stages is one the parser returned. -/
theorem statement_pending {session : Query.Session} {privs privs' : PrivilegeStore}
    {stmt : UserStatement} {text : String} (hparsed : stmt.Parsed)
    (h : execUserMgmt session privs stmt = .ok (text, privs')) (hn : n ∈ privs'.pending) :
    n ∈ privs.pending ∨ Named n := by
  have hevent : ∀ pw, event privs stmt = some (n, some pw) → Named n := by
    intro pw he
    have hnamed : (utf8 n).length ≠ 0 ∧ (utf8 n).length ≤ 256 := by
      cases stmt <;> simp only [event] at he
      · split at he <;> cases he
        exact hparsed
      · split at he <;> cases he
      · cases he
        exact hparsed
      · cases he
      · cases he
    exact ⟨hnamed.1, hnamed.2.trans (by decide)⟩
  generalize hev : event privs stmt = ev at hevent
  cases hev ▸ execUserMgmt_effect h with
  | kept => exact .inl hn
  | created m pw | altered m pw =>
    rcases ExtTreeMap.mem_insert.mp hn with heq | hmem
    · cases Std.compare_eq_iff_eq.mp heq
      exact .inr (hevent pw rfl)
    · exact .inl hmem
  | dropped m => exact .inl (ExtTreeMap.mem_erase.mp hn).2

theorem persist_kept (h : Kept s) : Kept (persistPrivileges d disk s).2 := by
  have hpending : ∀ n, n ∈ (persistPrivileges d disk s).2.privs.pending → Named n := by
    intro n hn
    rw [persist_privs] at hn
    simp [PrivilegeStore.importMissingUsers, PrivilegeStore.exportPrivileges] at hn
  by_cases hs : (save disk (merge d (loaded disk s.file) s.privs.exportPrivileges.1)).isOk
  · obtain ⟨haccounts, -, hfile⟩ := persist_accounts hs
    exact ⟨hfile, haccounts ▸ readable_merge readable_loaded h.pending, hpending⟩
  · obtain ⟨hfile, -⟩ := persist_accounts_of_error hs
    refine ⟨hfile ▸ h.present, ?_, hpending⟩
    rw [Server.accounts, hfile]
    exact h.readable

/-- The step lemma. -/
theorem act_kept (h : Kept s) (hstep : Acts d s s') : Kept s' := by
  obtain ⟨a, hparsed, rfl⟩ := hstep
  cases a with
  | statement session stmt =>
    cases hx : execUserMgmt session s.privs stmt with
    | error e => simpa only [Server.act, hx] using h
    | ok r =>
      simp only [Server.act, hx]
      exact ⟨h.present, h.readable, fun n hn =>
        (statement_pending (hparsed session stmt rfl) hx hn).elim (h.pending n) id⟩
  | setPassword disk user password plugin =>
    obtain ⟨f, hf⟩ := Option.isSome_iff_exists.mp h.present
    rcases passwdCmd_cases (d := d) (f := f) user password plugin with
      ⟨hfile, -⟩ | ⟨v, f', hv, hl, hs, hcmd⟩
    · rw [Server.act, hf, hfile, ← hf]
      exact h
    · rw [Server.act, hf, hcmd]
      have haccounts : (⟨s.privs, some f'⟩ : Server).accounts = s.accounts.insert user v := by
        simp [Server.accounts, accounts_of_save hs, hf]
      exact ⟨rfl, haccounts ▸ h.readable.set hv, h.pending⟩
  | persist disk => exact persist_kept h
  | hook disk before =>
    rw [Server.act, persistIfChanged]
    split
    · exact persist_kept h
    · exact h

theorem boot_kept (h : boot disk file = .ok s) : Kept s := by
  rw [boot] at h
  split at h
  · cases h
  · next users fresh file' hl =>
    cases h
    obtain ⟨hfrom, f, rfl, rfl⟩ := loadOrBootstrap_ok hl
    refine ⟨rfl, ?_, fun n hn => by simp [PrivilegeStore.importPrivileges] at hn⟩
    show Readable f.accounts
    rcases hfrom with hload | hroot
    · exact readable_of_load hload
    · have hname : Named "root" := by
        constructor <;> decide +kernel
      exact hroot ▸ readable_empty.insert hname (.inl rfl)

theorem saves_readable (h : Kept s) (hsaves : Saves d s users) : Readable users := by
  cases hsaves with
  | persist disk => exact readable_merge readable_loaded h.pending
  | setPassword hload hv => exact (readable_of_load hload).set hv

/-! ## The round trip -/

/-- In every run, the bytes of the accounts that are saved are read back just if there are
at most 10,000 users and no grant has an empty scope. -/
theorem saved_loads (d : Digests) {disk₀ disk disk' : Disk} {file : Option AuthFile}
    {s₀ s : Server} {users : Accounts} {bytes : Bytes} (hboot : boot disk₀ file = .ok s₀)
    (hrun : ReflTransGen (Acts d) s₀ s) (hsaves : Saves d s users)
    (hsave : saveBytes disk users = .ok bytes) (hread : disk'.reading = none) :
    loadBytes disk' (some bytes) = .ok users ↔
      users.size ≤ 10000 ∧ ∀ (n : String) (v : Verifier), users[n]? = some v →
        ∀ g ∈ v.grants, Scoped g := by
  have hreadable : Readable users := saves_readable
    (Transition.invariant (boot_kept hboot) (fun _ _ => act_kept) hrun) hsaves
  have hmem : ∀ {e : String × Verifier}, e ∈ users.toList → users[e.1]? = some e.2 :=
    ExtTreeMap.mem_toList_iff_getElem?_eq_some.mp
  obtain ⟨f, hfile, hbytes⟩ := Outcome.bind_ok hsave
  cases hbytes
  have haccounts := accounts_of_save hfile
  have hfields : users.size ≤ 10000 →
      loadBytes disk' (some f.bytes) = load disk' (some f) := fun hsize =>
    loadBytes_bytes hfile (hsize.trans_lt (by decide)) fun e he =>
      (hreadable e.1 e.2 (hmem he)).1.2.trans_lt (by decide)
  obtain ⟨hencode, -, rfl⟩ := save_iff.mp hfile
  have huser : ∀ e ∈ users.toList, (decodeUser authFormatVersion e.1 e.2 = .ok () ↔
      ∀ g ∈ e.2.grants, Scoped g) := by
    intro e he
    obtain ⟨hplugin, -, hgrants⟩ := encodeUser_iff.mp (hencode e he)
    obtain ⟨hn, hhash⟩ := hreadable e.1 e.2 (hmem he)
    have hversion : ¬ authFormatVersion = authFormatV1 := by decide
    simp [decodeUser_iff, decodeGrants_iff, hplugin, hgrants, hn, hhash, hversion]
  constructor
  · intro hload
    have hsize := size_of_loadBytes hload
    obtain ⟨-, hcheck, -⟩ := load_iff.mp (hfields hsize ▸ hload)
    refine ⟨hsize, fun n v hv => ?_⟩
    have he := ExtTreeMap.mem_toList_iff_getElem?_eq_some.mpr hv
    exact (huser (n, v) he).mp ((check_iff.mp hcheck).2.2 (n, v) he)
  · rintro ⟨hsize, hscoped⟩
    have hlen : users.toList.length ≤ 10000 := by rwa [ExtTreeMap.length_toList]
    rw [hfields hsize, load_iff, check_iff]
    exact ⟨hread, ⟨.inl rfl, hlen, fun e he => (huser e he).mpr (hscoped _ _ (hmem he))⟩, haccounts⟩

/-- `CREATE USER bob IDENTIFIED BY ''` and `GRANT SELECT ON *.* TO bob`. -/
theorem saved_loads_granted :
    ∃ users bytes, users["bob"]?.map Verifier.grants = some [⟨.select, "*", "*"⟩] ∧
      saveBytes .sound users = .ok bytes ∧ (loadBytes .sound (some bytes) = .ok users ↔
        users.size ≤ 10000 ∧ ∀ (n : String) (v : Verifier), users[n]? = some v →
          ∀ g ∈ v.grants, Scoped g) := by
  have hrun : ReflTransGen (Acts emptyDigests) freshServer withGrant := by
    refine .tail (.single ⟨.statement rootSession (.createUser "bob" false ""), ?_, rfl⟩)
      ⟨.statement rootSession (.grant [.select] .global "bob"), ?_, rfl⟩
    all_goals
      rintro _ _ ⟨⟩
      constructor <;> decide +kernel
  have hsave : save .sound (merge emptyDigests (loaded .sound withGrant.file)
      withGrant.privs.exportPrivileges.1) = .ok _ := save_iff.mpr ⟨by decide +kernel, rfl, rfl⟩
  have hbytes := saveBytes_of_save hsave
  exact ⟨_, _, by decide +kernel, hbytes, saved_loads emptyDigests
    (show boot .sound none = .ok freshServer from rfl) hrun (.persist .sound) hbytes rfl⟩

/-- After `GRANT SELECT ON ''.* TO bob` the file is saved and not read back. -/
theorem empty_scope_is_saved :
    let granted := withBob.act emptyDigests
      (.statement rootSession (.grant [.select] (.database "") "bob"))
    let users := merge emptyDigests (loaded .sound granted.file) granted.privs.exportPrivileges.1
    ∃ bytes, saveBytes .sound users = .ok bytes ∧
      loadBytes .sound (some bytes) = .error "auth file: bad grant scope" := by
  intro granted users
  have hsave : save .sound users = .ok _ := save_iff.mpr ⟨by decide +kernel, rfl, rfl⟩
  refine ⟨_, saveBytes_of_save hsave, ?_⟩
  rw [loadBytes_bytes hsave (by decide +kernel) (by decide +kernel)]
  decide +kernel

end HenchDB.Auth
