import HenchDB.Auth.UserStore

/-!
# Principals

The engine keeps the principals and their grants in memory, with the passwords
that `CREATE USER` and `ALTER USER` staged and the names that `DROP USER` left to
be pruned.  `execUserMgmt` runs one statement on this store.  An export hands
out the staged parts and drains them.

What a statement does is read off its event (`event`): the password it stages for
an account, or that the account is dropped (`execUserMgmt_effect`).  A store is
`Tidy` when its parts agree: only principals have grants or a staged password,
and no principal is marked as dropped.  Every statement keeps a store tidy
(`execUserMgmt_tidy`).
-/

namespace HenchDB.Auth

open Std (ExtTreeMap ExtTreeSet)
open Query (GrantRule Privilege superuser)

/-! ## The store -/

structure PrivilegeStore extends Query.PrivilegeStore where
  users : ExtTreeSet String
  /-- Staged plaintext passwords. -/
  pending : ExtTreeMap String String
  /-- Dropped users that the file still has. -/
  tombstones : ExtTreeSet String
  version : UInt64

/-- What a grant is on: everything, a database, or a table, of the session's database
where it names none. -/
inductive GrantScope where
  | global
  | database (db : String)
  | table (db : Option String) (tbl : String)
deriving DecidableEq, Repr

/-- The statements that change who may do what. -/
inductive UserStatement where
  | createUser (name : String) (ifNotExists : Bool) (password : String)
  | dropUser (name : String) (ifExists : Bool)
  | alterUser (name password : String)
  | grant (privs : List Privilege) (scope : GrantScope) (user : String)
  | revoke (privs : List Privilege) (scope : GrantScope) (user : String)
deriving DecidableEq, Repr

/-- The database and the table of a rule, with `*` for all. -/
def concreteScope (session : Query.Session) : GrantScope → String × String
  | .global => ("*", "*")
  | .database db => (db, "*")
  | .table (some db) tbl => (db, tbl)
  | .table none tbl => (session.currentDb, tbl)

/-- The loop of `GRANT` over the privileges, and whether it changed anything. -/
def addRules (scope : String × String) : List Privilege → List GrantRule × Bool →
    List GrantRule × Bool
  | [], acc => acc
  | p :: privs, (rules, changed) =>
    let rule : GrantRule := ⟨p, scope.1, scope.2⟩
    if rule ∈ rules then addRules scope privs (rules, changed)
    else addRules scope privs (rules ++ [rule], true)

/-- The rules `REVOKE` retains. -/
def retainRules (privs : List Privilege) (scope : String × String) (rules : List GrantRule) :
    List GrantRule :=
  rules.filter fun r =>
    !(r.privilege ∈ privs && (r.db = scope.1 || scope.1 = "*") && (r.tbl = scope.2 || scope.2 = "*"))

/-- `exec_user_mgmt`: the text for the client and the store afterwards.  Names are checked
first, and a statement that fails leaves the store as it was. -/
def execUserMgmt (session : Query.Session) (store : PrivilegeStore) :
    UserStatement → Except Error (String × PrivilegeStore)
  | .createUser name ifNotExists password =>
    if name = superuser then .error (.invalidQuery "user 'root' already exists")
    else if name ∈ store.users then
      if ifNotExists then .ok ("user exists, skipped", store)
      else .error (.invalidQuery s!"user '{name}' already exists")
    else .ok (s!"user '{name}' created",
      { store with
        users := store.users.insert name
        pending := store.pending.insert name password
        tombstones := store.tombstones.erase name
        version := store.version + 1 })
  | .dropUser name ifExists =>
    if name = superuser then .error (.invalidQuery "cannot drop user 'root'")
    else if name ∉ store.users then
      if ifExists then .ok ("no such user, skipped", store)
      else .error (.invalidQuery s!"no such user '{name}'")
    else .ok (s!"user '{name}' dropped",
      { store with
        users := store.users.erase name
        grants := store.grants.erase name
        pending := store.pending.erase name
        tombstones := store.tombstones.insert name
        version := store.version + 1 })
  | .alterUser name password =>
    if name ∉ store.users then .error (.invalidQuery s!"no such user '{name}'")
    else .ok (s!"user '{name}' altered",
      { store with
        pending := store.pending.insert name password
        version := store.version + 1 })
  | .grant privs scope user =>
    if user ∉ store.users then .error (.invalidQuery s!"no such user '{user}'")
    else if user = superuser then .error (.invalidQuery "cannot grant to 'root'")
    else
      let (rules, changed) :=
        addRules (concreteScope session scope) privs (store.grants.getD user [], false)
      .ok (s!"grants updated for '{user}'",
        { store with
          grants := store.grants.insert user rules
          version := if changed then store.version + 1 else store.version })
  | .revoke privs scope user =>
    if user ∉ store.users then .error (.invalidQuery s!"no such user '{user}'")
    else if user = superuser then .error (.invalidQuery "cannot revoke from 'root'")
    else
      match store.grants[user]? with
      | none => .error (.invalidQuery s!"no such grant for '{user}'")
      | some rules =>
        let kept := retainRules privs (concreteScope session scope) rules
        if kept.length ≠ rules.length then
          .ok (s!"grants updated for '{user}'",
            { store with
              grants := store.grants.insert user kept
              version := store.version + 1 })
        else .error (.invalidQuery s!"no such grant for '{user}'")

namespace PrivilegeStore

def new : PrivilegeStore := ⟨⟨∅⟩, ∅, ∅, ∅, 0⟩

def importPrivileges (store : PrivilegeStore) (users : List (String × List GrantRule)) :
    PrivilegeStore where
  grants := Entries.alterAll (fun rules _ => some rules) users ∅
  users := (users.map Prod.fst).foldl ExtTreeSet.insert ∅
  pending := ∅
  tombstones := ∅
  version := store.version + 1

def importMissingUsers (store : PrivilegeStore) (names : List String) : PrivilegeStore :=
  { store with users := names.foldl ExtTreeSet.insert store.users }

end PrivilegeStore

/-- What `export_privileges` hands out. -/
structure Export where
  users : List (String × List GrantRule)
  tombstones : List String
  pending : List (String × String)

def PrivilegeStore.exportPrivileges (store : PrivilegeStore) : Export × PrivilegeStore :=
  ({ users := store.users.toList.map fun u => (u, store.grants.getD u [])
     tombstones := store.tombstones.toList
     pending := store.pending.toList },
   { store with tombstones := ∅, pending := ∅ })

/-! ## What a statement does -/

/-- What a statement that succeeds says about an account: the password it stages
for it, or that it is dropped. -/
def event (store : PrivilegeStore) : UserStatement → Option (String × Option String)
  | .createUser name _ password =>
    if name ∈ store.users then none else some (name, some password)
  | .dropUser name _ => if name ∈ store.users then some (name, none) else none
  | .alterUser name password => some (name, some password)
  | .grant _ _ _ | .revoke _ _ _ => none

inductive Effect (store : PrivilegeStore) : Option (String × Option String) → PrivilegeStore → Prop
  | kept (g : ExtTreeMap String (List GrantRule)) (v : UInt64)
      (hg : ∀ n, n ∈ g → n ∈ store.grants ∨ n ∈ store.users) :
      Effect store none { store with grants := g, version := v }
  | created (n pw : String) (v : UInt64) :
      Effect store (some (n, some pw))
        { store with
          users := store.users.insert n
          pending := store.pending.insert n pw
          tombstones := store.tombstones.erase n
          version := v }
  | dropped (n : String) (v : UInt64) :
      Effect store (some (n, none))
        { store with
          users := store.users.erase n
          grants := store.grants.erase n
          pending := store.pending.erase n
          tombstones := store.tombstones.insert n
          version := v }
  | altered (n pw : String) (v : UInt64) (hn : n ∈ store.users) :
      Effect store (some (n, some pw)) { store with pending := store.pending.insert n pw, version := v }

variable {session : Query.Session} {store store' : PrivilegeStore} {stmt : UserStatement}
  {text : String} {ev : Option (String × Option String)}

theorem mem_insert_rules {user : String} {rules : List GrantRule} (hu : user ∈ store.users)
    (n : String) (h : n ∈ store.grants.insert user rules) : n ∈ store.grants ∨ n ∈ store.users := by
  rcases ExtTreeMap.mem_insert.mp h with heq | hmem
  · cases Std.compare_eq_iff_eq.mp heq
    exact .inr hu
  · exact .inl hmem

theorem execUserMgmt_effect (h : execUserMgmt session store stmt = .ok (text, store')) :
    Effect store (event store stmt) store' := by
  cases stmt with
  | createUser name ifNotExists password =>
    by_cases hu : name ∈ store.users
    · have hskip : store' = store := by
        rw [execUserMgmt] at h
        split at h
        · cases h
        · cases ifNotExists <;> simp_all
      rw [hskip, event, if_pos hu]
      exact .kept store.grants store.version fun n hn => .inl hn
    · rw [execUserMgmt] at h
      split at h
      · cases h
      · cases h
        rw [event, if_neg hu]
        exact .created name password _
  | dropUser name ifExists =>
    by_cases hu : name ∈ store.users
    · rw [execUserMgmt] at h
      split at h
      · cases h
      · cases h
        rw [event, if_pos hu]
        exact .dropped name _
    · have hskip : store' = store := by
        rw [execUserMgmt] at h
        split at h
        · cases h
        · cases ifExists <;> simp_all
      rw [hskip, event, if_neg hu]
      exact .kept store.grants store.version fun n hn => .inl hn
  | alterUser name password =>
    rw [execUserMgmt] at h
    split at h
    · cases h
    · next hu =>
      cases h
      exact .altered name password _ (not_not.mp hu)
  | grant privs scope user =>
    rw [execUserMgmt] at h
    split at h
    · cases h
    · next hu =>
      split at h
      · cases h
      · cases h
        exact .kept _ _ (mem_insert_rules (not_not.mp hu))
  | revoke privs scope user =>
    rw [execUserMgmt] at h
    split at h
    · cases h
    · next hu =>
      split at h
      · cases h
      · split at h
        · cases h
        · simp only at h
          split at h
          · cases h
            exact .kept _ _ (mem_insert_rules (not_not.mp hu))
          · cases h

/-- The parts of a store agree with each other. -/
structure PrivilegeStore.Tidy (store : PrivilegeStore) : Prop where
  /-- No principal is marked as dropped. -/
  live : ∀ n, n ∈ store.users → n ∉ store.tombstones
  staged : ∀ n, n ∈ store.pending → n ∈ store.users
  granted : ∀ n, n ∈ store.grants → n ∈ store.users

theorem Effect.tidy (h : Effect store ev store') (ht : store.Tidy) : store'.Tidy := by
  cases h with
  | kept g v hg =>
    exact ⟨ht.live, ht.staged, fun n hn => (hg n hn).elim (ht.granted n) id⟩
  | created n pw v =>
    refine ⟨fun m hm => ?_, fun m hm => ?_, fun m hm => ?_⟩
    · simp only [ExtTreeSet.mem_insert, ExtTreeSet.mem_erase, Std.compare_eq_iff_eq] at hm ⊢
      rintro ⟨hne, hmark⟩
      exact hm.elim (fun heq => hne (Std.compare_eq_iff_eq.mpr heq)) fun hu => ht.live m hu hmark
    · simp only [ExtTreeSet.mem_insert, ExtTreeMap.mem_insert, Std.compare_eq_iff_eq] at hm ⊢
      exact hm.imp id (ht.staged m)
    · exact ExtTreeSet.mem_insert.mpr (.inr (ht.granted m hm))
  | dropped n v =>
    refine ⟨fun m hm => ?_, fun m hm => ?_, fun m hm => ?_⟩
    · simp only [ExtTreeSet.mem_insert, ExtTreeSet.mem_erase, Std.compare_eq_iff_eq] at hm ⊢
      rintro (heq | hmark)
      · exact hm.1 (Std.compare_eq_iff_eq.mpr heq)
      · exact ht.live m hm.2 hmark
    · simp only [ExtTreeSet.mem_erase, ExtTreeMap.mem_erase] at hm ⊢
      exact ⟨hm.1, ht.staged m hm.2⟩
    · simp only [ExtTreeSet.mem_erase, ExtTreeMap.mem_erase] at hm ⊢
      exact ⟨hm.1, ht.granted m hm.2⟩
  | altered n pw v hn =>
    refine ⟨ht.live, fun m hm => ?_, ht.granted⟩
    simp only [ExtTreeMap.mem_insert, Std.compare_eq_iff_eq] at hm
    rcases hm with heq | hm
    · exact heq ▸ hn
    · exact ht.staged m hm

theorem execUserMgmt_tidy (ht : store.Tidy)
    (h : execUserMgmt session store stmt = .ok (text, store')) : store'.Tidy :=
  (execUserMgmt_effect h).tidy ht

theorem importPrivileges_tidy (users : List (String × List GrantRule)) :
    (store.importPrivileges users).Tidy where
  live := by simp [PrivilegeStore.importPrivileges]
  staged := by simp [PrivilegeStore.importPrivileges]
  granted n hn := by
    refine (Entries.mem_foldl_insert _ _ _).mpr (.inl ?_)
    by_contra hno
    have hnone : (store.importPrivileges users).grants[n]? = none := by
      refine (Entries.getElem?_alterAll_of_not_mem fun w hw => hno ?_).trans (by simp)
      exact List.mem_map.mpr ⟨(n, w), hw, rfl⟩
    rw [← ExtTreeMap.isSome_getElem?_iff_mem, hnone] at hn
    cases hn

end HenchDB.Auth
