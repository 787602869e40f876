import HenchDB.Catalog
import HenchDB.Mvcc.Versions
import HenchDB.Query.Scope

/-!
# Sessions and the database of a SELECT

What a `SELECT` reads of its session and of the database: the staged writes and
the snapshot of the open transaction, the catalog, the stored versions and the
privileges granted to each user.
-/

namespace HenchDB.Query

open Std (ExtTreeMap)
open Mvcc (VersionState SnapshotPin)

/-! ## Sessions and databases -/

inductive Privilege where
  | select
  | insert
  | update
  | delete
  | create
  | drop
  | all
deriving DecidableEq, Repr

structure GrantRule where
  /-- The `priv_` of the source. -/
  privilege : Privilege
  db : String
  tbl : String
deriving DecidableEq, Repr

/-- `PrivilegeStore`, as far as reads are checked. -/
structure PrivilegeStore where
  grants : ExtTreeMap String (List GrantRule)

def superuser : String := "root"

/-- `Session`, as far as a `SELECT` reads it. -/
structure Session where
  user : String
  currentDb : String
  /-- The staged writes of the open transaction, as its map lists them. -/
  staged : Option (List (TKey × Option Row))
  snapshot : Option SnapshotPin
  /-- The isolation level is `REPEATABLE READ`. -/
  repeatableRead : Bool
  maxIntermediateRows : Option Nat
  /-- The limit of `mem_tracker`. -/
  maxIntermediateBytes : Option Nat
  maxResultRows : Option Nat
  maxResultBytes : Option Nat

/-- `Database`, as far as a `SELECT` reads it. -/
structure Database where
  catalog : Catalog
  versions : VersionState Row
  visibleEpoch : Nat
  privs : PrivilegeStore
  readOnly : Bool
  /-- A table is kept under its own name, which begins with its database. -/
  named : ∀ (key : String) (t : Table), catalog.tables[key]? = some t →
    t.info.name = key ∧ '.' ∈ key.toList

end HenchDB.Query
