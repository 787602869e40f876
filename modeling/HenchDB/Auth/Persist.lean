import HenchDB.Auth.Principals
import HenchDB.Lib.Transition

/-!
# Persisting privileges

After a statement the server exports the engine's store, lays it over the
accounts of the file and saves the result (`persistPrivileges`).  A file that
cannot be loaded counts as a file without accounts, and the staged passwords and
names are drained whether the save succeeds or not.

`World` keeps next to the server the password that was last set for each account
that exists.  Its book and the server agree as long as no persist writes over a
file it could not load, none drains what it then fails to save, and no password
is set from outside for an account with something staged (`Harmless`).  On such
runs a persist that succeeds leaves in the file the accounts of the book, with
the grants held in memory (`accounts_survive`).
-/

namespace HenchDB.Auth

open Std (ExtTreeMap ExtTreeSet)
open Relation (ReflTransGen)

/-! ## The server -/

/-- The engine's principals and the file beside the log. -/
structure Server where
  privs : PrivilegeStore
  file : Option AuthFile

def Server.accounts (s : Server) : Accounts := (s.file.map AuthFile.accounts).getD ∅

def stage (d : Digests) (password : String) (account : Option Verifier) : Option Verifier :=
  let v := Verifier.newSha2 d (utf8 password)
  match account with
  | some e => some { e with hash := v.hash, plugin := v.plugin }
  | none => some v

/-- The three loops of `persist_privileges`: staged passwords, grants, dropped accounts. -/
def merge (d : Digests) (users : Accounts) (e : Export) : Accounts :=
  Entries.eraseAll e.tombstones <|
    Entries.alterAll (fun rules account => account.map fun v => { v with grants := rules }) e.users <|
      Entries.alterAll (stage d) e.pending users

def freshNames (users : Accounts) (e : Export) : List String :=
  users.keys.filter fun n => n ≠ "root" && !(e.users.any fun u => u.1 = n)

/-- The store `persist_privileges` starts from. -/
def loaded (disk : Disk) (file : Option AuthFile) : Accounts :=
  match load disk file with
  | .ok users => users
  | .error _ => ∅

def persistPrivileges (d : Digests) (disk : Disk) (s : Server) : Except String Unit × Server :=
  let (e, privs) := s.privs.exportPrivileges
  let users := merge d (loaded disk s.file) e
  let privs := privs.importMissingUsers (freshNames users e)
  match save disk users with
  | .ok f => (.ok (), ⟨privs, some f⟩)
  | .error err => (.error err, ⟨privs, s.file⟩)

def persistIfChanged (d : Digests) (disk : Disk) (s : Server) (before : UInt64) : Server :=
  if s.privs.version ≠ before then (persistPrivileges d disk s).2 else s

/-- The start of the server: the file is loaded and its accounts are imported. -/
def boot (disk : Disk) (file : Option AuthFile) : Except String Server :=
  match loadOrBootstrap disk file with
  | (.error e, _) => .error e
  | (.ok (users, _), file) =>
    .ok ⟨PrivilegeStore.new.importPrivileges (users.toList.map fun e => (e.1, e.2.grants)), file⟩

/-! ## Runs -/

/-- What happens to a server. -/
inductive Action where
  | statement (session : Query.Session) (stmt : UserStatement)
  | setPassword (disk : Disk) (user : String) (password : Bytes) (plugin : String)
  | persist (disk : Disk)
  | hook (disk : Disk) (before : UInt64)

/-- Let it happen. -/
def Server.act (d : Digests) (s : Server) : Action → Server
  | .statement session stmt =>
    match execUserMgmt session s.privs stmt with
    | .ok (_, privs) => { s with privs }
    | .error _ => s
  | .setPassword disk user password plugin =>
    { s with file := (passwdCmd d disk s.file user password plugin).2 }
  | .persist disk => (persistPrivileges d disk s).2
  | .hook disk before => persistIfChanged d disk s before

/-- What a client proves to know: the plugin and the hash. -/
abbrev Credential := String × Bytes

def Verifier.credential (v : Verifier) : Credential := (v.plugin, v.hash)

def sqlCredential (d : Digests) (password : String) : Credential :=
  (Verifier.newSha2 d (utf8 password)).credential

/-- The accounts that exist, each with the password that was last set for it. -/
abbrev Book := String → Option Credential

/-- Enter what a statement says about an account. -/
def Book.enter (d : Digests) (book : Book) : Option (String × Option String) → Book
  | none => book
  | some (n, password) => Function.update book n (password.map (sqlCredential d))

/-- What an action sets, creates or drops, if it succeeds. -/
def Server.record (d : Digests) (s : Server) (book : Book) : Action → Book
  | .statement session stmt =>
    match execUserMgmt session s.privs stmt with
    | .ok _ => book.enter d (event s.privs stmt)
    | .error _ => book
  | .setPassword disk user password plugin =>
    match newVerifier d user password plugin, (passwdCmd d disk s.file user password plugin).1 with
    | .ok v, .ok _ => Function.update book user (some v.credential)
    | _, _ => book
  | .persist _ | .hook _ _ => book

/-- The credential of an account once everything staged has been persisted. -/
def landing (d : Digests) (privs : PrivilegeStore) (users : Accounts) : Book := fun n =>
  if n ∈ privs.tombstones then none
  else privs.pending[n]?.elim (users[n]?.map Verifier.credential) fun password =>
    some (sqlCredential d password)

/-- A persist that loses nothing.  One that saves has loaded the file, or
everything the file holds is staged; one that does not save had nothing to
change. -/
def SafePersist (d : Digests) (disk : Disk) (s : Server) : Prop :=
  let users := merge d (loaded disk s.file) s.privs.exportPrivileges.1
  if (save disk users).isOk then
    (load disk s.file).isOk ∨ ∀ n ∈ s.accounts, n ∈ s.privs.pending ∨ n ∈ s.privs.tombstones
  else ∀ n, landing d s.privs s.accounts n = s.accounts[n]?.map Verifier.credential

/-- Nothing is staged for the account that a persist would put over the password. -/
def Unstaged (d : Digests) (privs : PrivilegeStore) (user : String) (c : Credential) : Prop :=
  user ∉ privs.tombstones ∧
    ∀ password, privs.pending[user]? = some password → sqlCredential d password = c

/-- An action that loses no account and no password. -/
def Harmless (d : Digests) (s : Server) : Action → Prop
  | .statement _ _ => True
  | .setPassword disk user password plugin =>
    ∀ v, newVerifier d user password plugin = .ok v → (load disk s.file).isOk →
      (save disk (s.accounts.insert user v)).isOk → Unstaged d s.privs user v.credential
  | .persist disk => SafePersist d disk s
  | .hook disk before => s.privs.version ≠ before → SafePersist d disk s

/-- A server and its book. -/
structure World where
  server : Server
  book : Book

/-- One harmless action. -/
def Step (d : Digests) (w w' : World) : Prop :=
  ∃ a, Harmless d w.server a ∧ w' = ⟨w.server.act d a, w.server.record d w.book a⟩

def World.start (s : Server) : World := ⟨s, fun n => s.accounts[n]?.map Verifier.credential⟩

/-! ## What a persist writes -/

variable {d : Digests} {disk : Disk} {s : Server} {book : Book} {users : Accounts} {n : String}

def staged (d : Digests) (privs : PrivilegeStore) (users : Accounts) (n : String) :
    Option Verifier :=
  privs.pending[n]?.elim users[n]? fun password => stage d password users[n]?

theorem getElem?_merge (d : Digests) (privs : PrivilegeStore) (users : Accounts) (n : String) :
    (merge d users privs.exportPrivileges.1)[n]? =
      if n ∈ privs.tombstones then none
      else if n ∈ privs.users then
        (staged d privs users n).map fun v => { v with grants := privs.grants.getD n [] }
      else staged d privs users n := by
  simp only [merge, PrivilegeStore.exportPrivileges, Entries.getElem?_eraseAll,
    ExtTreeSet.mem_toList, Entries.getElem?_alterAll_map, Entries.getElem?_alterAll_toList, staged]

theorem staged_credential (privs : PrivilegeStore) :
    (staged d privs users n).map Verifier.credential =
      privs.pending[n]?.elim (users[n]?.map Verifier.credential) fun password =>
        some (sqlCredential d password) := by
  rw [staged]
  cases privs.pending[n]? with
  | none => rfl
  | some password => cases users[n]? <;> rfl

/-- The merged accounts have the credentials that were to land. -/
theorem merge_credential (privs : PrivilegeStore) :
    (merge d users privs.exportPrivileges.1)[n]?.map Verifier.credential =
      landing d privs users n := by
  rw [getElem?_merge, landing]
  split
  · rfl
  · rw [← staged_credential]
    split
    · cases staged d privs users n <;> rfl
    · rfl

variable {privs : PrivilegeStore} {v : Verifier} {ev : Option (String × Option String)}
  {file : Option AuthFile}

/-- A merged account of a principal has the grants held in memory. -/
theorem merge_grants (hn : n ∈ privs.users)
    (h : (merge d users privs.exportPrivileges.1)[n]? = some v) :
    v.grants = privs.grants.getD n [] := by
  rw [getElem?_merge] at h
  split at h
  · cases h
  · rw [Option.map_eq_some_iff] at h
    obtain ⟨account, -, rfl⟩ := h
    rfl

/-- A merged account that is no principal is one of the file. -/
theorem merge_file (ht : privs.Tidy) (hn : n ∉ privs.users)
    (h : (merge d users privs.exportPrivileges.1)[n]? = some v) :
    users[n]? = some v ∧ n ∉ privs.tombstones := by
  have hpending : privs.pending[n]? = none :=
    ExtTreeMap.getElem?_eq_none fun hp => hn (ht.staged n hp)
  rw [getElem?_merge] at h
  split at h
  · cases h
  · next htomb =>
    rw [staged, hpending] at h
    exact ⟨h, htomb⟩

theorem mem_freshNames :
    n ∈ freshNames users privs.exportPrivileges.1 ↔ n ∈ users ∧ n ≠ "root" ∧ n ∉ privs.users := by
  have hany : (∀ u ∈ privs.users, ¬ u = n) ↔ n ∉ privs.users :=
    ⟨fun h hn => h n hn rfl, fun h u hu heq => h (heq ▸ hu)⟩
  simp [freshNames, PrivilegeStore.exportPrivileges, ExtTreeSet.mem_toList, hany]

theorem mem_importMissingUsers {names : List String} :
    n ∈ (privs.importMissingUsers names).users ↔ n ∈ names ∨ n ∈ privs.users :=
  Entries.mem_foldl_insert _ _ _

/-! ## The book and the server agree -/

/-- What holds of a server that has lost nothing. -/
structure Agrees (d : Digests) (book : Book) (s : Server) : Prop where
  tidy : s.privs.Tidy
  present : s.file.isSome
  lands : ∀ n, landing d s.privs s.accounts n = book n
  known : ∀ n, n ∈ s.privs.users → (book n).isSome
  bare : ∀ n v, s.accounts[n]? = some v → n ∉ s.privs.users → n ∉ s.privs.tombstones → v.grants = []

/-- The accounts that a call could load are those of the file. -/
theorem loaded_of_isOk (h : (load disk s.file).isOk) : loaded disk s.file = s.accounts := by
  cases hf : s.file with
  | none =>
    cases hr : disk.reading <;> simp [load, hf, hr, Except.isOk, Except.toBool] at h
  | some f =>
    cases hl : load disk (some f) with
    | error e => simp [hf, hl, Except.isOk, Except.toBool] at h
    | ok a => simp [loaded, hl, Server.accounts, hf, load_eq_ok hl]

theorem loaded_of_not_isOk (h : ¬ (load disk s.file).isOk) : loaded disk s.file = ∅ := by
  cases hl : load disk s.file with
  | error e => simp [loaded, hl]
  | ok a => simp [hl, Except.isOk, Except.toBool] at h

/-- What a persist writes when it starts from the file, or from nothing. -/
theorem merge_loaded_isSome (h : Agrees d book s)
    (hn : n ∈ merge d (loaded disk s.file) s.privs.exportPrivileges.1) : (book n).isSome := by
  rw [ExtTreeMap.mem_iff_isSome_getElem?, ← Option.isSome_map (f := Verifier.credential),
    merge_credential] at hn
  by_cases hl : (load disk s.file).isOk
  · rwa [loaded_of_isOk hl, h.lands] at hn
  · rw [loaded_of_not_isOk hl, landing] at hn
    split at hn
    · cases hn
    · cases hp : s.privs.pending[n]? with
      | none => simp [hp] at hn
      | some password =>
        refine h.known n (h.tidy.staged n ?_)
        rw [ExtTreeMap.mem_iff_isSome_getElem?, hp]
        rfl

/-- The engine's store after a persist. -/
theorem persist_privs : (persistPrivileges d disk s).2.privs =
    s.privs.exportPrivileges.2.importMissingUsers
      (freshNames (merge d (loaded disk s.file) s.privs.exportPrivileges.1)
        s.privs.exportPrivileges.1) := by
  simp only [persistPrivileges]
  split <;> rfl

theorem mem_persist_users : n ∈ (persistPrivileges d disk s).2.privs.users ↔
    n ∈ s.privs.users ∨
      n ∈ merge d (loaded disk s.file) s.privs.exportPrivileges.1 ∧ n ≠ "root" := by
  rw [persist_privs, mem_importMissingUsers, mem_freshNames]
  by_cases hu : n ∈ s.privs.users
  · simp [hu, PrivilegeStore.exportPrivileges]
  · simp [hu, PrivilegeStore.exportPrivileges]

theorem persist_tidy (h : s.privs.Tidy) : (persistPrivileges d disk s).2.privs.Tidy where
  live n _ := by
    rw [persist_privs]
    simp [PrivilegeStore.importMissingUsers, PrivilegeStore.exportPrivileges]
  staged n hn := by
    rw [persist_privs] at hn
    simp [PrivilegeStore.importMissingUsers, PrivilegeStore.exportPrivileges] at hn
  granted n hn := by
    rw [persist_privs] at hn
    exact mem_persist_users.mpr (.inl (h.granted n hn))

/-- Once nothing is staged, what lands is what the file holds. -/
theorem landing_persist (users : Accounts) :
    landing d (persistPrivileges d disk s).2.privs users n = users[n]?.map Verifier.credential := by
  rw [persist_privs]
  simp [landing, PrivilegeStore.importMissingUsers, PrivilegeStore.exportPrivileges]

theorem persist_accounts
    (h : (save disk (merge d (loaded disk s.file) s.privs.exportPrivileges.1)).isOk) :
    (persistPrivileges d disk s).2.accounts =
      merge d (loaded disk s.file) s.privs.exportPrivileges.1 ∧
    (persistPrivileges d disk s).1 = .ok () ∧ (persistPrivileges d disk s).2.file.isSome := by
  cases hs : save disk (merge d (loaded disk s.file) s.privs.exportPrivileges.1) with
  | error e => simp [hs, Except.isOk, Except.toBool] at h
  | ok f => simp [persistPrivileges, hs, Server.accounts, accounts_of_save hs]

theorem persist_accounts_of_error
    (h : ¬ (save disk (merge d (loaded disk s.file) s.privs.exportPrivileges.1)).isOk) :
    (persistPrivileges d disk s).2.file = s.file ∧ (persistPrivileges d disk s).1 ≠ .ok () := by
  cases hs : save disk (merge d (loaded disk s.file) s.privs.exportPrivileges.1) with
  | error e => simp [persistPrivileges, hs]
  | ok f => simp [hs, Except.isOk, Except.toBool] at h

theorem landing_loaded (h : SafePersist d disk s)
    (hs : (save disk (merge d (loaded disk s.file) s.privs.exportPrivileges.1)).isOk) :
    landing d s.privs (loaded disk s.file) n = landing d s.privs s.accounts n := by
  by_cases hl : (load disk s.file).isOk
  · rw [loaded_of_isOk hl]
  · simp only [SafePersist, hs, if_true] at h
    have hstaged := h.resolve_left hl
    rw [loaded_of_not_isOk hl, landing, landing]
    split
    · rfl
    · next htomb =>
      cases hp : s.privs.pending[n]? with
      | some password => rfl
      | none =>
        have hnot : s.accounts[n]? = none := by
          refine ExtTreeMap.getElem?_eq_none fun hn => (hstaged n hn).elim (fun hpn => ?_) htomb
          rw [ExtTreeMap.mem_iff_isSome_getElem?, hp] at hpn
          cases hpn
        simp [hnot]

theorem merge_bare (h : Agrees d book s) (hn : n ∉ s.privs.users)
    (hv : (merge d (loaded disk s.file) s.privs.exportPrivileges.1)[n]? = some v) :
    v.grants = [] := by
  obtain ⟨hfile, htomb⟩ := merge_file h.tidy hn hv
  by_cases hl : (load disk s.file).isOk
  · rw [loaded_of_isOk hl] at hfile
    exact h.bare n v hfile hn htomb
  · rw [loaded_of_not_isOk hl] at hfile
    simp at hfile

theorem persist_agrees (h : Agrees d book s) (hsafe : SafePersist d disk s) :
    Agrees d book (persistPrivileges d disk s).2 := by
  by_cases hs : (save disk (merge d (loaded disk s.file) s.privs.exportPrivileges.1)).isOk
  · obtain ⟨haccounts, -, hfile⟩ := persist_accounts hs
    refine ⟨persist_tidy h.tidy, hfile, fun n => ?_, fun n hn => ?_, fun n v hv hn _ => ?_⟩
    · rw [landing_persist, haccounts, merge_credential, landing_loaded hsafe hs, h.lands]
    · exact (mem_persist_users.mp hn).elim (h.known n) fun hm => merge_loaded_isSome h hm.1
    · rw [haccounts] at hv
      exact merge_bare h (fun hu => hn (mem_persist_users.mpr (.inl hu))) hv
  · obtain ⟨hfile, -⟩ := persist_accounts_of_error hs
    have haccounts : (persistPrivileges d disk s).2.accounts = s.accounts := by
      rw [Server.accounts, hfile, Server.accounts]
    simp only [SafePersist, hs] at hsafe
    refine ⟨persist_tidy h.tidy, hfile ▸ h.present, fun n => ?_, fun n hn => ?_,
      fun n v hv hn _ => ?_⟩
    · rw [landing_persist, haccounts, ← hsafe n, h.lands]
    · exact (mem_persist_users.mp hn).elim (h.known n) fun hm => merge_loaded_isSome h hm.1
    · rw [haccounts] at hv
      refine h.bare n v hv (fun hu => hn (mem_persist_users.mpr (.inl hu))) fun htomb => ?_
      have hdrained := hsafe n
      simp [landing, htomb, hv] at hdrained

/-! ## Each action keeps the agreement -/

theorem Effect.landing {privs' : PrivilegeStore} (h : Effect privs ev privs') (ht : privs.Tidy)
    (users : Accounts) (n : String) :
    Auth.landing d privs' users n = Book.enter d (Auth.landing d privs users) ev n := by
  cases h with
  | kept g v hg => rfl
  | created m pw v =>
    by_cases hm : n = m
    · subst hm
      simp [Auth.landing, Book.enter]
    · have hne : ¬ m = n := fun heq => hm heq.symm
      simp [Auth.landing, Book.enter, Function.update_of_ne hm, ExtTreeMap.getElem?_insert, hne]
  | dropped m v =>
    by_cases hm : n = m
    · subst hm
      simp [Auth.landing, Book.enter]
    · have hne : ¬ m = n := fun heq => hm heq.symm
      simp [Auth.landing, Book.enter, Function.update_of_ne hm, ExtTreeMap.getElem?_erase, hne]
  | altered m pw v hu =>
    by_cases hm : n = m
    · subst hm
      simp [Auth.landing, Book.enter, ht.live n hu]
    · have hne : ¬ m = n := fun heq => hm heq.symm
      simp [Auth.landing, Book.enter, Function.update_of_ne hm, ExtTreeMap.getElem?_insert, hne]

theorem Effect.agrees {privs' : PrivilegeStore} (heff : Effect s.privs ev privs')
    (h : Agrees d book s) :
    Agrees d (book.enter d ev) { s with privs := privs' } := by
  have hbook : Auth.landing d s.privs s.accounts = book := funext h.lands
  refine ⟨heff.tidy h.tidy, h.present, fun n => ?_, fun n hn => ?_, fun n v hv hn htomb => ?_⟩
  · rw [← hbook]
    exact heff.landing h.tidy s.accounts n
  · cases heff with
    | kept g v hg => exact h.known n hn
    | created m pw v =>
      by_cases hm : n = m
      · subst hm
        simp [Book.enter]
      · rcases ExtTreeSet.mem_insert.mp hn with heq | hu
        · exact absurd (Std.compare_eq_iff_eq.mp heq).symm hm
        · simpa [Book.enter, Function.update_of_ne hm] using h.known n hu
    | dropped m v =>
      obtain ⟨hne, hu⟩ := ExtTreeSet.mem_erase.mp hn
      have hm : n ≠ m := fun heq => hne (Std.compare_eq_iff_eq.mpr heq.symm)
      simpa [Book.enter, Function.update_of_ne hm] using h.known n hu
    | altered m pw v hu =>
      by_cases hm : n = m
      · subst hm
        simp [Book.enter]
      · simpa [Book.enter, Function.update_of_ne hm] using h.known n hn
  · cases heff with
    | kept g v' hg => exact h.bare n v hv hn htomb
    | created m pw v' =>
      simp only [ExtTreeSet.mem_insert, ExtTreeSet.mem_erase, not_or, not_and] at hn htomb
      exact h.bare n v hv hn.2 (htomb hn.1)
    | dropped m v' =>
      simp only [ExtTreeSet.mem_insert, ExtTreeSet.mem_erase, not_or, not_and] at hn htomb
      exact h.bare n v hv (hn htomb.1) htomb.2
    | altered m pw v' hu => exact h.bare n v hv hn htomb

theorem statement_agrees (h : Agrees d book s) (session : Query.Session) (stmt : UserStatement) :
    Agrees d (s.record d book (.statement session stmt)) (s.act d (.statement session stmt)) := by
  cases hx : execUserMgmt session s.privs stmt with
  | error e => simpa [Server.record, Server.act, hx] using h
  | ok r =>
    simp only [Server.record, Server.act, hx]
    exact (execUserMgmt_effect hx).agrees h

/-- What `passwd` does to a file that is there. -/
theorem passwdCmd_cases {f : AuthFile} (user : String) (password : Bytes) (plugin : String) :
    (passwdCmd d disk (some f) user password plugin).2 = some f ∧
      (passwdCmd d disk (some f) user password plugin).1 ≠ .ok () ∨
    ∃ v f', newVerifier d user password plugin = .ok v ∧ (load disk (some f)).isOk ∧
      save disk (f.accounts.insert user v) = .ok f' ∧
      passwdCmd d disk (some f) user password plugin = (.ok (), some f') := by
  cases hl : load disk (some f) with
  | error e => exact .inl (by simp [passwdCmd, loadOrBootstrap, hl, bind, Except.bind])
  | ok users =>
    have husers : users = f.accounts := load_eq_ok hl
    cases hv : newVerifier d user password plugin with
    | error e =>
      exact .inl (by
        simp [passwdCmd, loadOrBootstrap, setPassword, hl, hv, bind, Except.bind, pure, Except.pure])
    | ok v =>
      cases hs : save disk (users.insert user v) with
      | error e =>
        exact .inl (by
          simp [passwdCmd, loadOrBootstrap, setPassword, hl, hv, hs, bind, Except.bind, pure,
            Except.pure])
      | ok f' =>
        refine .inr ⟨v, f', rfl, rfl, husers ▸ hs, ?_⟩
        simp [passwdCmd, loadOrBootstrap, setPassword, hl, hv, hs, bind, Except.bind, pure,
          Except.pure]

/-- A password set from outside for an account with nothing staged. -/
theorem setPassword_agrees (h : Agrees d book s) {user : String} {password : Bytes} {plugin : String}
    (hok : Harmless d s (.setPassword disk user password plugin)) :
    Agrees d (s.record d book (.setPassword disk user password plugin))
      (s.act d (.setPassword disk user password plugin)) := by
  obtain ⟨f, hf⟩ := Option.isSome_iff_exists.mp h.present
  have haccounts : s.accounts = f.accounts := by simp [Server.accounts, hf]
  rcases passwdCmd_cases (d := d) (f := f) user password plugin with
    ⟨hfile, herr⟩ | ⟨v, f', hv, hl, hs, hcmd⟩
  · have hsame : s.act d (.setPassword disk user password plugin) = s := by
      rw [Server.act, hf, hfile, ← hf]
    have hbook : s.record d book (.setPassword disk user password plugin) = book := by
      rw [Server.record, hf]
      split
      · next hcmd => exact absurd hcmd herr
      · rfl
    rw [hsame, hbook]
    exact h
  · obtain ⟨htomb, hpending⟩ : Unstaged d s.privs user v.credential := by
      refine hok v hv (hf ▸ hl) ?_
      rw [haccounts, hs]
      rfl
    have hact : s.act d (.setPassword disk user password plugin) = ⟨s.privs, some f'⟩ := by
      rw [Server.act, hf, hcmd]
    have hbook : s.record d book (.setPassword disk user password plugin) =
        Function.update book user (some v.credential) := by
      rw [Server.record, hf, hcmd, hv]
    have hwritten : (⟨s.privs, some f'⟩ : Server).accounts = s.accounts.insert user v := by
      simp [Server.accounts, accounts_of_save hs, hf]
    rw [hact, hbook]
    refine ⟨h.tidy, rfl, fun n => ?_, fun n hn => ?_, fun n w hw hn hm => ?_⟩
    · rw [hwritten]
      by_cases hm : n = user
      · subst hm
        cases hp : s.privs.pending[n]? with
        | none => simp [landing, htomb, hp]
        | some pw => simp [landing, htomb, hp, hpending pw hp]
      · have hne : ¬ user = n := fun heq => hm heq.symm
        rw [Function.update_of_ne hm, ← h.lands n]
        simp [landing, ExtTreeMap.getElem?_insert, hne]
    · by_cases hm : n = user
      · simp [hm]
      · rw [Function.update_of_ne hm]
        exact h.known n hn
    · rw [hwritten] at hw
      by_cases hm' : user = n
      · subst hm'
        rw [ExtTreeMap.getElem?_insert_self] at hw
        cases hw
        exact (newVerifier_spec hv).1
      · rw [ExtTreeMap.getElem?_insert] at hw
        simp only [Std.compare_eq_iff_eq, hm', if_false] at hw
        exact h.bare n w hw hn hm

/-- The step lemma: a harmless action keeps the agreement. -/
theorem act_agrees (h : Agrees d book s) :
    ∀ {a : Action}, Harmless d s a → Agrees d (s.record d book a) (s.act d a)
  | .statement session stmt, _ => statement_agrees h session stmt
  | .setPassword _ _ _ _, hok => setPassword_agrees h hok
  | .persist _, hok => persist_agrees h hok
  | .hook disk before, hok => by
    rw [Server.record, Server.act, persistIfChanged]
    split
    · next hver => exact persist_agrees h (hok hver)
    · exact h

/-! ## Runs -/

/-- The file of a server that has started holds what was loaded. -/
theorem loadOrBootstrap_ok {file' : Option AuthFile} {fresh : Bool}
    (h : loadOrBootstrap disk file = (.ok (users, fresh), file')) :
    (load disk file = .ok users ∨ users = (∅ : Accounts).insert "root" .empty) ∧
      ∃ f, file' = some f ∧ f.accounts = users := by
  cases file with
  | some f =>
    cases hl : load disk (some f) with
    | error e => simp [loadOrBootstrap, hl, bind, Except.bind] at h
    | ok a =>
      simp only [loadOrBootstrap, hl, bind, Except.bind, pure, Except.pure, Prod.mk.injEq,
        Except.ok.injEq] at h
      obtain ⟨⟨rfl, -⟩, rfl⟩ := h
      exact ⟨.inl rfl, f, rfl, (load_eq_ok hl).symm⟩
  | none =>
    simp only [loadOrBootstrap] at h
    split at h
    · next f hs =>
      simp only [Prod.mk.injEq, Except.ok.injEq] at h
      obtain ⟨⟨rfl, -⟩, rfl⟩ := h
      exact ⟨.inr rfl, f, rfl, accounts_of_save hs⟩
    · simp at h

theorem boot_agrees (h : boot disk file = .ok s) :
    Agrees d (World.start s).book s := by
  rw [boot] at h
  split at h
  · cases h
  · next users fresh file' hl =>
    cases h
    obtain ⟨-, f, rfl, rfl⟩ := loadOrBootstrap_ok hl
    have husers : ∀ n, n ∈ (PrivilegeStore.new.importPrivileges
        (f.accounts.toList.map fun e => (e.1, e.2.grants))).users ↔ n ∈ f.accounts := by
      intro n
      refine (Entries.mem_foldl_insert _ _ _).trans ?_
      rw [ExtTreeMap.mem_iff_isSome_getElem?, Option.isSome_iff_exists]
      simp only [List.map_map, List.mem_map, Prod.exists, ExtTreeMap.mem_toList_iff_getElem?_eq_some,
        Function.comp, ExtTreeSet.not_mem_empty, or_false]
      exact ⟨fun ⟨m, v, hv, heq⟩ => ⟨v, heq ▸ hv⟩, fun ⟨v, hv⟩ => ⟨n, v, hv, rfl⟩⟩
    refine ⟨importPrivileges_tidy _, rfl, fun n => ?_, fun n hn => ?_, fun n v hv hn _ => ?_⟩
    · simp [landing, PrivilegeStore.importPrivileges, World.start]
    · have hmem := (husers n).mp hn
      rw [ExtTreeMap.mem_iff_isSome_getElem?] at hmem
      simpa [World.start, Server.accounts] using hmem
    · refine absurd ((husers n).mpr ?_) hn
      rw [ExtTreeMap.mem_iff_isSome_getElem?]
      exact hv ▸ rfl

/-- The run lemma. -/
theorem run_agrees {s₀ : Server} {w : World} (hboot : boot disk file = .ok s₀)
    (hrun : ReflTransGen (Step d) (World.start s₀) w) :
    Agrees d w.book w.server := by
  refine Transition.invariant (P := fun w : World => Agrees d w.book w.server)
    (boot_agrees hboot) (fun a b ha hab => ?_) hrun
  obtain ⟨act, hok, rfl⟩ := hab
  exact act_agrees ha hok

/-- On a run of harmless actions, a persist that succeeds leaves in the file
exactly the accounts that exist, each with the password that was last set for it
and with the grants held in memory. -/
theorem accounts_survive (d : Digests) {disk disk' : Disk} {file : Option AuthFile} {s₀ : Server}
    {w : World} (hboot : boot disk file = .ok s₀)
    (hrun : ReflTransGen (Step d) (World.start s₀) w) (hsafe : Harmless d w.server (.persist disk'))
    (hok : (persistPrivileges d disk' w.server).1 = .ok ()) :
    ∃ f, (persistPrivileges d disk' w.server).2.file = some f ∧
      (∀ n, f.accounts[n]?.map Verifier.credential = w.book n) ∧
      ∀ n v, f.accounts[n]? = some v →
        v.grants = (persistPrivileges d disk' w.server).2.privs.grants.getD n [] := by
  have h := run_agrees hboot hrun
  have hsaved : (save disk'
      (merge d (loaded disk' w.server.file) w.server.privs.exportPrivileges.1)).isOk := by
    by_contra hno
    exact (persist_accounts_of_error hno).2 hok
  obtain ⟨haccounts, -, hfile⟩ := persist_accounts hsaved
  obtain ⟨f, hf⟩ := Option.isSome_iff_exists.mp hfile
  have hf' : f.accounts = merge d (loaded disk' w.server.file) w.server.privs.exportPrivileges.1 := by
    rw [← haccounts, Server.accounts, hf]
    rfl
  refine ⟨f, hf, fun n => ?_, fun n v hv => ?_⟩
  · rw [hf', merge_credential, landing_loaded hsafe hsaved, h.lands]
  · rw [hf'] at hv
    rw [persist_privs]
    show v.grants = w.server.privs.grants.getD n []
    by_cases hn : n ∈ w.server.privs.users
    · exact merge_grants hn hv
    · have hnone : w.server.privs.grants[n]? = none :=
        ExtTreeMap.getElem?_eq_none fun hg => hn (h.tidy.granted n hg)
      rw [merge_bare h hn hv, ExtTreeMap.getD_eq_getD_getElem?, hnone]
      rfl

/-! ## Two persists that lose accounts -/

def emptyDigests : Digests where
  sha256 _ := [0xe3, 0xb0, 0xc4, 0x42, 0x98, 0xfc, 0x1c, 0x14, 0x9a, 0xfb, 0xf4, 0xc8, 0x99, 0x6f,
    0xb9, 0x24, 0x27, 0xae, 0x41, 0xe4, 0x64, 0x9b, 0x93, 0x4c, 0xa4, 0x95, 0x99, 0x1b, 0x78, 0x52,
    0xb8, 0x55]
  sha1 _ := List.replicate 20 0
  length_sha256 _ := rfl
  length_sha1 _ := rfl

def Disk.sound : Disk := ⟨none, none⟩

def freshServer : Server := ((boot .sound none).toOption).getD ⟨.new, none⟩

def rootSession : Query.Session := ⟨"root", "default", none, none, false, none, none, none, none⟩

/-- The same server after `CREATE USER bob`. -/
def withBob : Server :=
  freshServer.act emptyDigests (.statement rootSession (.createUser "bob" false ""))

theorem accounts_survive_created :
    ∃ f, (persistPrivileges emptyDigests .sound withBob).2.file = some f ∧
      f.accounts["bob"]?.map Verifier.credential = some (sqlCredential emptyDigests "") := by
  have hrun : ReflTransGen (Step emptyDigests) (World.start freshServer)
      ⟨withBob, _⟩ :=
    .single ⟨.statement rootSession (.createUser "bob" false ""), trivial, rfl⟩
  have hsafe : Harmless emptyDigests withBob (.persist .sound) := by
    rw [Harmless, SafePersist, if_pos (by decide +kernel)]
    exact .inl (by decide +kernel)
  obtain ⟨f, hf, hbook, -⟩ := @accounts_survive emptyDigests .sound _ none _ _ rfl hrun
    hsafe (by decide +kernel)
  exact ⟨f, hf, (hbook "bob").trans (by decide +kernel)⟩

/-- A persist that cannot load the file replaces it by a file without `root`, and
one that cannot save forgets the user whose password was staged: the next persist
succeeds and writes a file without the user. -/
theorem persist_loses_accounts :
    let unread := persistPrivileges emptyDigests ⟨some "auth file: Permission denied", none⟩ freshServer
    let unsaved := persistPrivileges emptyDigests ⟨none, some "auth file: No space left"⟩ withBob
    let next := persistPrivileges emptyDigests .sound unsaved.2
    (freshServer.accounts["root"]? = some .empty ∧ unread.1 = .ok () ∧
      unread.2.accounts["root"]? = none) ∧
    ("bob" ∈ withBob.privs.users ∧ next.1 = .ok () ∧ "bob" ∈ next.2.privs.users ∧
      next.2.accounts["bob"]? = none) := by
  decide +kernel

/-! ## Rights -/

def hasPriv (store : PrivilegeStore) (user : String) (priv : Query.Privilege) (db tbl : String) :
    Bool :=
  match store.grants[user]? with
  | none => false
  | some rules => rules.any fun r =>
    (r.privilege = priv || r.privilege = .all) && (r.db = "*" || r.db = db) &&
      (r.tbl = "*" || r.tbl = tbl)

theorem act_tidy (h : s.privs.Tidy) (a : Action) : (s.act d a).privs.Tidy := by
  cases a with
  | statement session stmt =>
    rw [Server.act]
    split
    · next hx => exact execUserMgmt_tidy h hx
    · exact h
  | setPassword => exact h
  | persist disk => exact persist_tidy h
  | hook disk before =>
    rw [Server.act, persistIfChanged]
    split
    · exact persist_tidy h
    · exact h

theorem boot_tidy (h : boot disk file = .ok s) : s.privs.Tidy := by
  rw [boot] at h
  split at h
  · cases h
  · cases h
    exact importPrivileges_tidy _

/-- In every run, who is no principal has no privilege, and neither has the account that
`CREATE USER` makes of the name. -/
theorem rights_die_with_account (d : Digests) {s₀ : Server} (hboot : boot disk file = .ok s₀)
    (hrun : ReflTransGen (fun s s' => ∃ a, s' = s.act d a) s₀ s) (hn : n ∉ s.privs.users)
    (priv : Query.Privilege) (db tbl : String) :
    hasPriv s.privs n priv db tbl = false ∧ ∀ session skip password text privs',
      execUserMgmt session s.privs (.createUser n skip password) = .ok (text, privs') →
        hasPriv privs' n priv db tbl = false := by
  have htidy : s.privs.Tidy := Transition.invariant (P := fun s : Server => s.privs.Tidy)
    (boot_tidy hboot) (fun _ _ ha ⟨a, h⟩ => h ▸ act_tidy ha a) hrun
  have hnone : s.privs.grants[n]? = none :=
    ExtTreeMap.getElem?_eq_none fun hg => hn (htidy.granted n hg)
  refine ⟨by rw [hasPriv, hnone], fun session skip password text privs' h => ?_⟩
  rw [execUserMgmt, if_neg hn] at h
  split at h
  · cases h
  · cases h
    rw [hasPriv, hnone]

/-- The server after `CREATE USER bob` and `GRANT SELECT ON *.* TO bob`. -/
def withGrant : Server :=
  withBob.act emptyDigests (.statement rootSession (.grant [.select] .global "bob"))

/-- The grant of a dropped user does not come back with the name. -/
theorem rights_die_with_account_bob :
    hasPriv withGrant.privs "bob" .select "d" "t" = true ∧
      let dropped := withGrant.act emptyDigests (.statement rootSession (.dropUser "bob" false))
      hasPriv dropped.privs "bob" .select "d" "t" = false ∧
        ∃ text privs, execUserMgmt rootSession dropped.privs (.createUser "bob" false "") =
            .ok (text, privs) ∧ "bob" ∈ privs.users ∧ hasPriv privs "bob" .select "d" "t" = false := by
  refine ⟨by decide +kernel, ?_⟩
  intro dropped
  have hrun : ReflTransGen (fun s s' => ∃ a, s' = s.act emptyDigests a) freshServer dropped :=
    ((ReflTransGen.single ⟨.statement rootSession (.createUser "bob" false ""), rfl⟩).tail
      ⟨.statement rootSession (.grant [.select] .global "bob"), rfl⟩).tail
      ⟨.statement rootSession (.dropUser "bob" false), rfl⟩
  obtain ⟨hdropped, hcreated⟩ := rights_die_with_account emptyDigests
    (show boot .sound none = .ok freshServer from rfl) hrun
    (show "bob" ∉ dropped.privs.users by decide +kernel) .select "d" "t"
  have hok : (execUserMgmt rootSession dropped.privs (.createUser "bob" false "")).toOption.any
      (fun r => decide ("bob" ∈ r.2.users)) = true := by decide +kernel
  refine ⟨hdropped, ?_⟩
  cases hcreate : execUserMgmt rootSession dropped.privs (.createUser "bob" false "") with
  | error e =>
    rw [hcreate] at hok
    cases hok
  | ok r =>
    rw [hcreate] at hok
    exact ⟨r.1, r.2, rfl, by simpa [Except.toOption] using hok, hcreated _ _ _ _ _ hcreate⟩

end HenchDB.Auth
