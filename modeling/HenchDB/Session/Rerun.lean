import HenchDB.Session.Engine

/-!
# Running a statement again

A statement that selects the same rows again does the same again
(`exec_congr`): what it stages and what it returns depends on the rows in view
only through the rows that its `WHERE` clause selects, or for an `INSERT`
through which of its keys are there.  The sequences play a part only in an
`INSERT`, and one of no rows leaves them alone (`exec_of_empty`).
-/

namespace HenchDB.Session

open Std (ExtTreeMap)

/-! ## Sequences -/

def seqColumn (inc : Option AutoIncState) : Option Nat := inc.map AutoIncState.colIdx

/-- The row gives a value for the column of the sequence. -/
def ExplicitRow (inc : Option AutoIncState) (row : Row) : Prop :=
  ∀ i, seqColumn inc = some i → row[i]? ≠ some .null

section Assign

variable {inc inc' : Option AutoIncState} {row row' : Row}

theorem seqColumn_assignAutoInc (h : assignAutoInc inc row = .ok (inc', row')) :
    seqColumn inc' = seqColumn inc := by
  cases inc with
  | none =>
    cases h
    rfl
  | some st =>
    have hassign : ∀ st' row', st.assign row = .ok (st', row') → st'.colIdx = st.colIdx := by
      intro st' row' hst
      unfold AutoIncState.assign at hst
      split at hst
      · cases hst
      · split at hst
        · cases hst
        · cases hst
          rfl
      · split at hst
        · cases hst
          rfl
        · cases hst
          rfl
      · cases hst
        rfl
    cases hr : st.assign row with
    | error e =>
      rw [assignAutoInc, hr] at h
      cases h
    | ok p =>
      rw [assignAutoInc, hr] at h
      cases h
      exact congrArg some (hassign p.1 p.2 hr)

/-- A value that is given is kept, whatever the sequence has come to. -/
theorem assignAutoInc_explicit (h : ExplicitRow inc row) :
    (assignAutoInc inc row = .error (.err (.corrupted "auto-inc column out of range")) ∧
        ∃ i, seqColumn inc = some i ∧ row[i]? = none) ∨
      (∃ inc', assignAutoInc inc row = .ok (inc', row)) ∧
        ∀ i, seqColumn inc = some i → row[i]? ≠ none := by
  cases inc with
  | none => exact Or.inr ⟨⟨none, rfl⟩, fun i hi => nomatch hi⟩
  | some st =>
    have hnull := h st.colIdx rfl
    cases hd : row[st.colIdx]? with
    | none =>
      refine Or.inl ⟨?_, st.colIdx, rfl, hd⟩
      simp [assignAutoInc, AutoIncState.assign, hd, Except.mapError, Except.map]
    | some d =>
      refine Or.inr ⟨?_, fun i hi => ?_⟩
      · cases d with
        | null => exact absurd hd hnull
        | int v =>
          simp only [assignAutoInc, AutoIncState.assign, hd]
          split <;> exact ⟨_, rfl⟩
        | _ =>
          simp only [assignAutoInc, AutoIncState.assign, hd]
          exact ⟨_, rfl⟩
      · cases hi
        rw [hd]
        simp

end Assign

/-! ## `INSERT` -/

section Insert

variable {schema : Schema} {text table : String} {rows rows' : Rows}

/-- The keys that an `INSERT` gives its rows are there in both states or in neither. -/
def sameKeys (schema : Schema) (table : String) (rows rows' : Rows) :
    Option AutoIncState → List Row → Bool
  | _, [] => true
  | inc, given :: rest =>
    match assignAutoInc inc given with
    | .error _ => true
    | .ok (inc, given) =>
      (match schema.validateRow given with
      | .error _ => true
      | .ok row =>
        match rowKey schema row with
        | .error _ => true
        | .ok key => rows.contains (table, key) == rows'.contains (table, key)) &&
      sameKeys schema table rows rows' inc rest

theorem sameKeys_refl (schema : Schema) (table : String) (rows : Rows) :
    ∀ (new : List Row) (inc : Option AutoIncState), sameKeys schema table rows rows inc new = true
  | [], _ => rfl
  | given :: rest, inc => by
    rw [sameKeys]
    split
    · rfl
    · rw [sameKeys_refl schema table rows rest, Bool.and_true]
      split
      · rfl
      · split
        · rfl
        · exact beq_self_eq_true _

theorem insertRows_congr : ∀ {new : List Row} {inc : Option AutoIncState} {staged : Staged},
    sameKeys schema table rows rows' inc new = true →
      insertRows schema text table rows inc new staged =
        insertRows schema text table rows' inc new staged
  | [], _, _, _ => rfl
  | given :: rest, inc, staged, h => by
    rw [sameKeys] at h
    rw [insertRows, insertRows]
    cases hassign : assignAutoInc inc given with
    | error e => rfl
    | ok p =>
      rw [hassign, Bool.and_eq_true] at h
      obtain ⟨hkey, hrest⟩ := h
      dsimp only at hkey hrest ⊢
      split
      · rfl
      · next row hvalid =>
        split
        · rfl
        · next key hrow =>
          rw [hvalid] at hkey
          dsimp only at hkey
          rw [hrow] at hkey
          rw [beq_iff_eq.mp hkey]
          split
          · rfl
          · exact insertRows_congr hrest

/-- An `INSERT` of a row stages it. -/
theorem insertRows_cons_ne {given : Row} {rest : List Row} {inc : Option AutoIncState}
    {staged staged' : Staged}
    (h : (insertRows schema text table rows inc (given :: rest) staged).2 = .ok staged') :
    staged'.isEmpty = false := by
  rw [insertRows] at h
  split at h
  · cases h
  · split at h
    · cases h
    · split at h
      · cases h
      · split at h
        · cases h
        · exact insertRows_keeps (P := fun staged => staged.isEmpty = false)
            (fun _ _ _ _ _ _ _ => by simp) h (by simp)

end Insert

/-! ## Statements -/

namespace Stmt

/-- The statement selects the same rows in both states: an `INSERT` finds the
same of its keys, a query returns the same, and foreign keys ask for the same. -/
def Agrees (schemas : Schemas) (incs : AutoIncs) (rows rows' : Rows) : Stmt → Prop
  | .insert _ table new fk =>
    (∀ schema, schemas[table]? = some schema →
      sameKeys schema table rows rows' incs[table]? new = true) ∧ fk rows = fk rows'
  | .update table cond _ fk => matching rows table cond = matching rows' table cond ∧ fk rows = fk rows'
  | .updatePoint table key _ => rows[(table, key)]? = rows'[(table, key)]?
  | .delete table cond fk => matching rows table cond = matching rows' table cond ∧ fk rows = fk rows'
  | .select query => query rows = query rows'

variable {schemas : Schemas} {incs : AutoIncs} {rows rows' : Rows} {stmt : Stmt}

theorem Agrees.refl (schemas : Schemas) (incs : AutoIncs) (rows : Rows) (stmt : Stmt) :
    stmt.Agrees schemas incs rows rows := by
  cases stmt with
  | insert text table new fk => exact ⟨fun _ _ => sameKeys_refl _ _ _ _ _, rfl⟩
  | update table cond set fk => exact ⟨rfl, rfl⟩
  | updatePoint table key set => rfl
  | delete table cond fk => exact ⟨rfl, rfl⟩
  | select query => rfl

theorem exec_congr (h : stmt.Agrees schemas incs rows rows') :
    stmt.exec schemas incs rows = stmt.exec schemas incs rows' := by
  cases stmt with
  | insert text table new fk =>
    obtain ⟨hkeys, hfk⟩ := h
    unfold Stmt.exec
    dsimp only
    cases hschema : schemaOf schemas table with
    | error e => rfl
    | ok schema =>
      have hget : schemas[table]? = some schema := by
        unfold schemaOf at hschema
        split at hschema
        · next heq =>
          rw [heq, Except.ok.inj hschema]
        · cases hschema
      dsimp only
      rw [insertRows_congr (hkeys schema hget), hfk]
  | update table cond set fk =>
    obtain ⟨hmatch, hfk⟩ := h
    simp only [Stmt.exec, hmatch, hfk]
  | updatePoint table key set =>
    have hrow : rows[(table, key)]? = rows'[(table, key)]? := h
    simp only [Stmt.exec, hrow]
  | delete table cond fk =>
    obtain ⟨hmatch, hfk⟩ := h
    simp only [Stmt.exec, hmatch, hfk]
  | select query =>
    have hquery : query rows = query rows' := h
    simp only [Stmt.exec, hquery]

/-- A statement that stages nothing draws nothing from a sequence. -/
theorem exec_of_empty {staged : Staged} {output : Output}
    (h : (stmt.exec schemas incs rows).2 = .ok (staged, output)) (hempty : staged.isEmpty = true)
    (incs' : AutoIncs) : stmt.exec schemas incs' rows = (incs', .ok (staged, output)) := by
  cases stmt with
  | insert text table new fk =>
    obtain ⟨schema, hschema, hst⟩ := exec_insert_ok h
    cases new with
    | nil =>
      simp only [Stmt.exec, schemaOf, hschema, insertRows] at h ⊢
      refine Prod.ext_iff.mpr ⟨?_, h⟩
      cases hinc : incs'[table]? with
      | none => rfl
      | some st =>
        refine ExtTreeMap.ext_getElem? fun k => ?_
        rw [Option.elim_some, ExtTreeMap.getElem?_insert]
        split
        · next heq => rw [← Std.compare_eq_iff_eq.mp heq, hinc]
        · rfl
    | cons given rest =>
      exact absurd hempty (by simp [insertRows_cons_ne hst])
  | _ => exact Prod.ext_iff.mpr ⟨rfl, h⟩

end Stmt

end HenchDB.Session
