import HenchDB.Fk.Delete
import HenchDB.Query.Hash

/-!
# `UPDATE` under foreign keys

An `UPDATE` of a table with foreign keys, or of one that is referenced, checks the
rows that it has staged (`fkCheckUpdated`).  A row that changes in a column of a
foreign key has to find its parents (`fkCheckChildRow`); a row that gets another
primary key runs the actions of a deleted parent.

An update that leaves the keys alone stages nothing more (`fkCheckUpdated_kept`).
The old key and the new one are compared by `!=`, so the actions do run for a key
that is not a number; but nothing references such a key
(`fkFindChildRefs_isNaN`).
-/

namespace HenchDB.Fk

open Std (ExtTreeMap)
open Session (Staged StagedWrite)
open Query (scanSecondary)

/-! ## The parents of a row -/

def fkRow (db : Db) (table : Table) (key : Bytes) (staged pending : Staged) : Option Session.Row :=
  match pending[(table.info.name, key)]?.or staged[(table.info.name, key)]? with
  | some w => w.row
  | none => db.visible[(table.info.name, key)]?

def fkStagedHit (tableKey : String) (col : Nat) (val : Datum) (staged pending : Staged) : Bool :=
  (staged.toList ++ pending.toList).any fun e =>
    e.1.1 = tableKey && e.2.row.any fun row => coerceEq (Table.column row col) val

/-- Some value of the list holds; the first that does ends the search. -/
def anyM {α : Type} (test : α → Except Fault Bool) : List α → Except Fault Bool
  | [] => .ok false
  | a :: as => do if ← test a then return true else anyM test as

/-- The row of a primary key that an index of the parent lists. -/
def seekParent (db : Db) (parent : Table) (col : Nat) (val : Datum) (staged pending : Staged)
    (pk : Datum) : Except Fault Bool := do
  let key ← (encodeKey pk).mapError Fault.err
  return (fkRow db parent key staged pending).any fun row => coerceEq (Table.column row col) val

def fkParentExists (db : Db) (parent : Table) (col : Nat) (val : Datum) (staged pending : Staged) :
    Except Fault Bool :=
  if fkStagedHit parent.info.name col val staged pending then .ok true
  else if col = parent.schema.pkIdx then
    anyM (fun cand => do
      let key ← (encodeKey cand).mapError Fault.err
      return (fkRow db parent key staged pending).isSome) (fkCandidates val)
  else if indexed parent col then
    anyM (fun cand => do
      let pks ← scanSecondary parent col (some (cand, true)) (some (cand, true))
      anyM (seekParent db parent col val staged pending) (pks.getD [])) (fkCandidates val)
  else .ok ((visibleOf db parent.info.name).any fun row => coerceEq (Table.column row col) val)

/-- One foreign key in the loop of `fk_check_child_row`; `print` prints a value. -/
def checkParent (print : Datum → String) (db : Db) (child : Table) (row : Session.Row)
    (staged pending : Staged) (fk : ForeignKeyDef) : Except Halt Unit :=
  match child.schema.indexOf fk.column with
  | none => fail (.columnNotFound fk.column)
  | some col =>
    let val := Table.column row col
    if val = .null then .ok ()
    else
      match db.tables[fk.refTable]? with
      | none => fail (.tableNotFound fk.refTable)
      | some parent =>
        match parent.schema.indexOf fk.refColumn with
        | none => fail (.columnNotFound fk.refColumn)
        | some pcol => do
          if ← (fkParentExists db parent pcol val staged pending).mapError Halt.fault then
            return ()
          else
            fail (.foreignKeyViolation
              (s!"value {print val} in '{child.info.name}.{fk.column}' has no match in " ++
                s!"'{parent.info.name}.{fk.refColumn}'"))

def fkCheckChildRow (print : Datum → String) (db : Db) (child : Table) (row : Session.Row)
    (staged pending : Staged) : Except Halt Unit :=
  child.info.foreignKeys.forM (checkParent print db child row staged pending)

/-! ## The check -/

/-- A column of a foreign key differs. -/
def refersAnew (table : Table) (old new : Session.Row) : Bool :=
  table.info.foreignKeys.any fun fk =>
    (table.schema.indexOf fk.column).any fun i => !(Table.column old i).eqv (Table.column new i)

/-- One updated row in the loop of `fk_check_updated`; a row that is not staged is a
panic. -/
def checkPair (print : Datum → String) (o : Orders) (db : Db) (fuel : Nat) (tableKey : String)
    (table : Table) (staged : Staged) (w : Walk) (pair : Bytes × Session.Row) : Except Halt Walk :=
  match staged[(tableKey, pair.1)]?.bind StagedWrite.row with
  | none => .error (.fault .panic)
  | some new => do
    if refersAnew table pair.2 new then fkCheckChildRow print db table new staged w.pending
    let oldPk := Table.column pair.2 table.schema.pkIdx
    if oldPk.eqv (Table.column new table.schema.pkIdx) then return w
    else fkOnParentDelete o db staged fuel tableKey oldPk w

def fkCheckUpdated (print : Datum → String) (o : Orders) (db : Db) (fuel : Nat) (tableKey : String)
    (table : Table) (pairs : List (Bytes × Session.Row)) (staged : Staged) : Except Halt Staged := do
  let w ← pairs.foldlM (checkPair print o db fuel tableKey table staged) .empty
  return staged.extend w.pending

/-! ## Keys that stay -/

/-- A value equals itself unless it is not a number. -/
theorem eqv_self_or_isNaN (d : Datum) : d.eqv d = true ∨ ∃ bits, d = .float bits ∧ F64.isNaN bits = true := by
  cases d with
  | float bits =>
    cases hnan : F64.isNaN bits with
    | true => exact .inr ⟨bits, rfl, hnan⟩
    | false => exact .inl (by simp [Datum.eqv, F64.eq, hnan])
  | _ => exact .inl (by simp [Datum.eqv])

section
variable {o : Orders} {db : Db} {child : Table} {staged overlay : Staged} {col n : Nat} {bits : UInt64}

/-- Nothing equals a value that is not a number. -/
theorem coerceEq_isNaN (hnan : F64.isNaN bits = true) (d : Datum) : coerceEq d (.float bits) = false := by
  rw [Bool.eq_false_iff]
  intro h
  have hkey := joinKey_isSome ((Datum.sameValue_swap (.float bits) d).trans h)
  simp [joinKey, hnan] at hkey

variable {refs : List (Bytes × Session.Row)}

theorem indexedRefs_isNaN (hnan : F64.isNaN bits = true)
    (h : indexedRefs db child col (.float bits) overlay = .ok refs) : refs = [] := by
  obtain ⟨found, hfound, h⟩ := Outcome.bind_ok h
  cases h
  refine List.filterMap_eq_nil_iff.mpr fun r hr => ?_
  obtain ⟨part, hpart, hr⟩ := List.mem_flatten.mp hr
  obtain ⟨cand, -, hcand⟩ := (Outcome.mem_of_mapM_ok hfound).mp hpart
  obtain ⟨pks, -, hpks⟩ := Outcome.bind_ok hcand
  obtain ⟨pk, -, hseek⟩ := (Outcome.mem_of_mapM_ok hpks).mp hr
  obtain ⟨key, -, hseek⟩ := Outcome.bind_ok hseek
  split at hseek
  · cases hseek
    rfl
  · simp only [coerceEq_isNaN hnan] at hseek
    cases hseek
    cases db.visible[(child.info.name, key)]? <;> rfl

theorem scannedRefs_isNaN (hnan : F64.isNaN bits = true)
    (h : scannedRefs db child col (.float bits) overlay = .ok refs) : refs = [] := by
  obtain ⟨found, hfound, h⟩ := Outcome.bind_ok h
  cases h
  refine List.filterMap_eq_nil_iff.mpr fun r hr => ?_
  obtain ⟨row, -, hscan⟩ := (Outcome.mem_of_mapM_ok hfound).mp hr
  obtain ⟨key, -, hscan⟩ := Outcome.bind_ok hscan
  simp only [coerceEq_isNaN hnan, Bool.false_eq_true, if_false, ite_self] at hscan
  cases hscan
  rfl

/-- No row references it. -/
theorem fkFindChildRefs_isNaN (hnan : F64.isNaN bits = true)
    (h : fkFindChildRefs o n db child col (.float bits) overlay = .ok refs) : refs = [] := by
  rw [fkFindChildRefs] at h
  split at h
  · obtain ⟨found, hfound, h⟩ := Outcome.bind_ok h
    cases h
    simp [indexedRefs_isNaN hnan hfound, coerceEq_isNaN hnan]
  · obtain ⟨found, hfound, h⟩ := Outcome.bind_ok h
    cases h
    simp [scannedRefs_isNaN hnan hfound, coerceEq_isNaN hnan]

/-- So no constraint acts on it. -/
theorem childAction_isNaN (hnan : F64.isNaN bits = true) {delete : String → Datum → Walk → Except Halt Walk}
    {parentKey : String} {c : String × Table × ForeignKeyDef} {w w' : Walk}
    (h : childAction delete o db staged parentKey (.float bits) w c = .ok w') :
    w'.pending = w.pending := by
  rw [childAction] at h
  split at h
  · cases h
  · next col _ =>
    obtain ⟨refs, hrefs, h⟩ := Outcome.bind_ok h
    obtain rfl := fkFindChildRefs_isNaN hnan (Session.mapError_ok hrefs)
    cases h
    rfl

theorem fkOnParentDelete_isNaN (hnan : F64.isNaN bits = true) {parentKey : String} {w w' : Walk}
    {fuel : Nat} (h : fkOnParentDelete o db staged fuel parentKey (.float bits) w = .ok w') :
    w'.pending = w.pending := by
  cases fuel with
  | zero => cases h
  | succ fuel =>
    exact Outcome.foldlM_keeps (P := fun w' => w'.pending = w.pending)
      (fun c _ w₁ w₂ hstep hw => (childAction_isNaN hnan hstep).trans hw) h rfl

end

section
variable {print : Datum → String} {o : Orders} {db : Db} {fuel : Nat} {tableKey : String} {table : Table}
  {pairs : List (Bytes × Session.Row)} {staged staged' : Staged}

variable {w : Walk} {c : String × Table × ForeignKeyDef}

/-- What `checkPair` does once it has compared the references. -/
theorem checkPair_ok {w' : Walk} {pair : Bytes × Session.Row}
    (h : checkPair print o db fuel tableKey table staged w pair = .ok w') :
    ∃ new, staged[(tableKey, pair.1)]?.bind StagedWrite.row = some new ∧
      (if (Table.column pair.2 table.schema.pkIdx).eqv (Table.column new table.schema.pkIdx) then pure w
        else fkOnParentDelete o db staged fuel tableKey (Table.column pair.2 table.schema.pkIdx) w) =
        .ok w' := by
  rw [checkPair] at h
  split at h
  · cases h
  · next new hnew =>
    refine ⟨new, hnew, ?_⟩
    split at h
    · obtain ⟨_, -, h⟩ := Outcome.bind_ok h
      exact h
    · exact h

theorem checkPair_kept {w' : Walk} {pair : Bytes × Session.Row}
    (hkey : ∀ new, staged[(tableKey, pair.1)]?.bind StagedWrite.row = some new →
      Table.column new table.schema.pkIdx = Table.column pair.2 table.schema.pkIdx)
    (h : checkPair print o db fuel tableKey table staged w pair = .ok w') :
    w'.pending = w.pending := by
  obtain ⟨new, hnew, hact⟩ := checkPair_ok h
  rw [hkey new hnew] at hact
  rcases eqv_self_or_isNaN (Table.column pair.2 table.schema.pkIdx) with heqv | ⟨bits, hpk, hnan⟩
  · rw [if_pos heqv] at hact
    cases hact
    rfl
  · rw [hpk] at hact
    split at hact
    · cases hact
      rfl
    · exact fkOnParentDelete_isNaN hnan hact

/-- An update that leaves the keys alone stages nothing but its rows. -/
theorem fkCheckUpdated_kept
    (hkeys : ∀ pair ∈ pairs, ∀ new, staged[(tableKey, pair.1)]?.bind StagedWrite.row = some new →
      Table.column new table.schema.pkIdx = Table.column pair.2 table.schema.pkIdx)
    (h : fkCheckUpdated print o db fuel tableKey table pairs staged = .ok staged') : staged' = staged := by
  obtain ⟨w, hw, h⟩ := Outcome.bind_ok h
  cases h
  have hnone : w.pending = ∅ := Outcome.foldlM_keeps (P := fun w => w.pending = ∅)
    (fun pair hpair w₁ w₂ hstep hw₁ => (checkPair_kept (hkeys pair hpair) hstep).trans hw₁) hw rfl
  rw [hnone]
  refine ExtTreeMap.ext_getElem? fun k => ?_
  rw [Session.getElem?_extend]
  simp

/-! ## Tables without foreign keys -/

/-- What is pending is about tables that have foreign keys. -/
def Walk.OfChildren (db : Db) (w : Walk) : Prop :=
  ∀ k ∈ w.pending, ∃ t, db.tables[k.1]? = some t ∧ t.info.foreignKeys ≠ []

theorem Walk.OfChildren.put (hw : w.OfChildren db) {childKey : String} {child : Table}
    (hchild : db.tables[childKey]? = some child) (hfk : child.info.foreignKeys ≠ []) (key : Bytes)
    (row : Option Session.Row) : (w.put (childKey, key) row).OfChildren db := by
  intro k hk
  rcases ExtTreeMap.mem_insert.mp hk with heq | hk
  · cases Std.compare_eq_iff_eq.mp heq
    exact ⟨child, hchild, hfk⟩
  · exact hw k hk

theorem child_of_fkChildrenOf {parentKey : String} (hc : c ∈ fkChildrenOf o db parentKey) :
    db.tables[c.1]? = some c.2.1 ∧ c.2.1.info.foreignKeys ≠ [] := by
  obtain ⟨tkey, -, hc⟩ := List.mem_flatMap.mp hc
  split at hc
  · cases hc
  · next t ht =>
    obtain ⟨fk, hfk, rfl⟩ := List.mem_map.mp hc
    exact ⟨ht, List.ne_nil_of_mem (List.mem_of_mem_filter hfk)⟩

theorem childAction_ofChildren {delete : String → Datum → Walk → Except Halt Walk}
    {parentKey : String} {parentPk : Datum} {w' : Walk}
    (hdelete : ∀ parentKey parentPk w w',
      delete parentKey parentPk w = .ok w' → w.OfChildren db → w'.OfChildren db)
    (hc : c ∈ fkChildrenOf o db parentKey)
    (h : childAction delete o db staged parentKey parentPk w c = .ok w') (hw : w.OfChildren db) :
    w'.OfChildren db := by
  obtain ⟨hchild, hfk⟩ := child_of_fkChildrenOf hc
  rw [childAction] at h
  split at h
  · cases h
  · next col _ =>
    obtain ⟨refs, -, h⟩ := Outcome.bind_ok h
    dsimp only at h
    split at h
    · cases h
      exact hw
    · split at h
      · cases h
      · refine Outcome.foldlM_keeps (P := fun w => w.OfChildren db) (fun r _ w₁ w₂ hstep hw₁ => ?_) h hw
        rw [cascadeRow] at hstep
        split at hstep
        · cases hstep
          exact hw₁
        · exact hdelete _ _ _ _ hstep (hw₁.put hchild hfk _ _)
      · split at h
        · refine Outcome.foldlM_keeps (P := fun w => w.OfChildren db) (fun r _ w₁ w₂ hstep hw₁ => ?_) h hw
          rw [nullRow] at hstep
          split at hstep
          · cases hstep
            exact hw₁
          · split at hstep
            · cases hstep
            · cases hstep
              exact hw₁.put hchild hfk _ _
        · cases h

theorem fkOnParentDelete_ofChildren : ∀ (fuel : Nat) (parentKey : String) (parentPk : Datum) (w w' : Walk),
    fkOnParentDelete o db staged fuel parentKey parentPk w = .ok w' → w.OfChildren db → w'.OfChildren db
  | 0, _, _, _, _, h, _ => by cases h
  | fuel + 1, parentKey, parentPk, w, w', h, hw => by
    rw [fkOnParentDelete] at h
    exact Outcome.foldlM_keeps (P := fun w => w.OfChildren db)
      (fun c hc w₁ w₂ hstep => childAction_ofChildren (fkOnParentDelete_ofChildren fuel) hc hstep) h hw

theorem fkCheckUpdated_elsewhere (hfree : ∀ t, db.tables[tableKey]? = some t → t.info.foreignKeys = [])
    (h : fkCheckUpdated print o db fuel tableKey table pairs staged = .ok staged') (key : Bytes) :
    staged'[(tableKey, key)]? = staged[(tableKey, key)]? := by
  obtain ⟨w, hw, h⟩ := Outcome.bind_ok h
  cases h
  have hchildren : w.OfChildren db := by
    refine Outcome.foldlM_keeps (P := fun w => w.OfChildren db) (fun pair _ w₁ w₂ hstep hw₁ => ?_) hw
      fun k hk => absurd hk (by simp [Walk.empty])
    obtain ⟨new, -, hact⟩ := checkPair_ok hstep
    split at hact
    · cases hact
      exact hw₁
    · exact fkOnParentDelete_ofChildren fuel _ _ _ _ hact hw₁
  have hnone : w.pending[(tableKey, key)]? = none := by
    refine ExtTreeMap.getElem?_eq_none fun hin => ?_
    obtain ⟨t, ht, hfk⟩ := hchildren _ hin
    exact hfk (hfree t ht)
  rw [Session.getElem?_extend, hnone, Option.none_or]

end

end HenchDB.Fk
