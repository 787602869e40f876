import HenchDB.Session.Engine

/-!
# What an `UPDATE` stages, column by column

An `UPDATE` of some columns stages the whole row as it was read, with the
columns set to their literals and validated.  A column that it sets holds the
normalized literal, the others hold what was read (`cell_of_changed`), and a row
that is read with the values it was to get is not staged at all.  An `UPDATE`
that does not set the key stages every row under the key it was read from
(`updateRows_matching`).
-/

namespace HenchDB

/-! ## Equal values -/

namespace Datum

/-- A value up to the sign of a float zero, which `==` does not see. -/
def canon : Datum → Datum
  | .float bits => .float (if F64.isZero bits then 0 else bits)
  | d => d

variable {a b : Datum}

theorem eqv_cases (h : a.eqv b = true) :
    a = b ∨ ∃ x y, a = .float x ∧ b = .float y ∧ F64.isZero x = true ∧ F64.isZero y = true := by
  cases a with
  | float x =>
    cases b with
    | float y =>
      simp only [eqv, F64.eq, Bool.and_eq_true, Bool.or_eq_true, decide_eq_true_eq] at h
      rcases h.2 with rfl | hzero
      · exact Or.inl rfl
      · exact Or.inr ⟨x, y, rfl, rfl, hzero⟩
    | _ => cases h
  | _ =>
    cases b <;> simp [eqv] at h
    all_goals simp [h]

end Datum

/-- Equal values are normalized to equal values. -/
theorem ColumnDef.normalize_of_eqv {c : ColumnDef} {a b a' : Datum} (h : a.eqv b = true)
    (ha : c.normalize a = .ok a') : ∃ b', c.normalize b = .ok b' ∧ b'.canon = a'.canon := by
  rcases Datum.eqv_cases h with rfl | ⟨x, y, rfl, rfl, hx, hy⟩
  · exact ⟨a', ha, rfl⟩
  · have hcoerce : ∀ bits, c.ctype.coerce (.float bits) = .float bits := by
      intro bits
      cases c.ctype <;> rfl
    have haccepts : c.ctype.accepts (.float y) = c.ctype.accepts (.float x) := by
      cases c.ctype <;> rfl
    obtain ⟨rfl, haccepted⟩ := ColumnDef.admit_spec ha
    rw [hcoerce] at haccepted ⊢
    refine ⟨.float y, ?_, ?_⟩
    · show c.admit (.float y) = .ok (.float y)
      rw [ ColumnDef.admit, hcoerce]
      exact if_pos (haccepts.trans haccepted)
    · simp [Datum.canon, hx, hy]

end HenchDB

namespace HenchDB.Session

open Std (ExtTreeMap)

/-! ## The assignments of an `UPDATE` -/

/-- The literal that an `UPDATE` gives a column. -/
def lastLiteral (set : List (Nat × Datum)) (i : Nat) : Option Datum :=
  set.foldl (fun last p => if p.1 = i then some p.2 else last) none

def Row.cell (row : Row) (i : Nat) : Option Datum := row[i]?.map Datum.canon

/-- The value in a column of a row of a table. -/
def cell (rows : Rows) (k : TKey) (i : Nat) : Option Datum := rows[k]?.bind fun row => Row.cell row i

/-- The value that an `UPDATE` gives a column. -/
def assigned (schema : Schema) (set : List (Nat × Datum)) (i : Nat) : Option Datum :=
  (lastLiteral set i).bind fun d => schema.columns[i]?.bind fun c =>
    (c.normalize d).toOption.map Datum.canon

section Assign

variable {schema : Schema} {row row' : Row} {set : List (Nat × Datum)}

theorem lastLiteral_concat (set : List (Nat × Datum)) (p : Nat × Datum) (i : Nat) :
    lastLiteral (set ++ [p]) i = if p.1 = i then some p.2 else lastLiteral set i := by
  rw [lastLiteral, List.foldl_append]
  rfl

theorem assignColumns_concat (row : Row) (set : List (Nat × Datum)) (p : Nat × Datum) :
    assignColumns row (set ++ [p]) =
      if (Table.column (assignColumns row set).1 p.1).eqv p.2 then assignColumns row set
      else ((assignColumns row set).1.set p.1 p.2, true) := by
  rw [assignColumns, List.foldl_append]
  rfl

theorem length_assignColumns (row : Row) (set : List (Nat × Datum)) :
    (assignColumns row set).1.length = row.length := by
  induction set using List.reverseRecOn with
  | nil => rfl
  | append_singleton set p ih =>
    rw [assignColumns_concat]
    split
    · exact ih
    · rw [List.length_set]
      exact ih

/-- An assigned column holds the literal or a value equal to it; the others are
kept. -/
theorem getElem?_assignColumns (row : Row) (set : List (Nat × Datum)) (i : Nat) :
    match lastLiteral set i with
    | none => (assignColumns row set).1[i]? = row[i]?
    | some d => ∀ v, (assignColumns row set).1[i]? = some v → v = d ∨ v.eqv d = true := by
  induction set using List.reverseRecOn with
  | nil => rfl
  | append_singleton set p ih =>
    rw [lastLiteral_concat, assignColumns_concat]
    by_cases hi : p.1 = i
    · subst hi
      rw [if_pos rfl]
      intro v hv
      split at hv
      · next heqv =>
        rw [Table.column, List.getD_eq_getElem?_getD, hv] at heqv
        exact Or.inr heqv
      · obtain ⟨hlt, rfl⟩ := List.getElem?_eq_some_iff.mp hv
        exact Or.inl (by simp)
    · rw [if_neg hi]
      split at ih
      · split
        · exact ih
        · rw [List.getElem?_set_ne hi]
          exact ih
      · intro v hv
        split at hv
        · exact ih v hv
        · rw [List.getElem?_set_ne hi] at hv
          exact ih v hv

/-- Without a change the row is the same. -/
theorem assignColumns_unchanged (h : (assignColumns row set).2 = false) :
    (assignColumns row set).1 = row := by
  induction set using List.reverseRecOn with
  | nil => rfl
  | append_singleton set p ih =>
    rw [assignColumns_concat] at h ⊢
    split at h
    · next heqv =>
      rw [if_pos heqv]
      exact ih h
    · cases h

/-- Column by column, validation normalizes what the assignments leave. -/
theorem normalize_assignColumns (hnormal : schema.Normal row)
    (hvalid : schema.validateRow (assignColumns row set).1 = .ok row') :
    row'.length = schema.columns.length ∧ ∀ (i : Nat) c v v', schema.columns[i]? = some c →
      (assignColumns row set).1[i]? = some v → row'[i]? = some v' → c.normalize v = .ok v' := by
  have hspec := Schema.validateRow_spec hvalid
  rw [Schema.fillDefaults_of_length ((length_assignColumns row set).trans hnormal.width)] at hspec
  exact hspec

theorem getElem?_of_not_set (hnormal : schema.Normal row)
    (hvalid : schema.validateRow (assignColumns row set).1 = .ok row') {i : Nat}
    (hi : lastLiteral set i = none) : row'[i]? = row[i]? := by
  obtain ⟨hwidth, hcolumn⟩ := normalize_assignColumns hnormal hvalid
  have hget := getElem?_assignColumns row set i
  rw [hi] at hget
  rcases Nat.lt_or_ge i schema.columns.length with hlt | hge
  · have hc : schema.columns[i]? = some schema.columns[i] := List.getElem?_eq_getElem hlt
    have hr : row'[i]? = some row'[i] := List.getElem?_eq_getElem (by omega)
    have hv : row[i]? = some (row.getD i .null) := by
      simp [List.getD_eq_getElem?_getD, List.getElem?_eq_getElem (by rw [hnormal.width]; exact hlt :
          i < row.length)]
    have hnorm := hcolumn i _ _ _ hc (hget.trans hv) hr
    rw [hnormal.column i _ _ hc hv] at hnorm
    rw [hr, hv, Except.ok.inj hnorm]
  · rw [List.getElem?_eq_none (by omega), List.getElem?_eq_none (by rw [hnormal.width]; exact hge)]

/-- The columns of a row that an `UPDATE` stages. -/
theorem cell_of_changed (hnormal : schema.Normal row)
    (hvalid : schema.validateRow (assignColumns row set).1 = .ok row') (i : Nat) :
    row'.cell i = (assigned schema set i).or (row.cell i) := by
  cases hlast : lastLiteral set i with
  | none =>
    rw [Row.cell, getElem?_of_not_set hnormal hvalid hlast, assigned, hlast]
    rfl
  | some d =>
    obtain ⟨hwidth, hcolumn⟩ := normalize_assignColumns hnormal hvalid
    have hget := getElem?_assignColumns row set i
    rw [hlast] at hget
    rcases Nat.lt_or_ge i schema.columns.length with hlt | hge
    · have hc : schema.columns[i]? = some schema.columns[i] := List.getElem?_eq_getElem hlt
      have hr : row'[i]? = some row'[i] := List.getElem?_eq_getElem (by omega)
      obtain ⟨v, hv⟩ : ∃ v, (assignColumns row set).1[i]? = some v := by
        refine ⟨_, List.getElem?_eq_getElem ?_⟩
        rw [length_assignColumns, hnormal.width]
        exact hlt
      have hnorm := hcolumn i _ _ _ hc hv hr
      have hliteral : ∃ d', schema.columns[i].normalize d = .ok d' ∧ d'.canon = row'[i].canon := by
        rcases hget v hv with rfl | heqv
        · exact ⟨row'[i], hnorm, rfl⟩
        · exact ColumnDef.normalize_of_eqv heqv hnorm
      obtain ⟨d', hd', hcanon⟩ := hliteral
      rw [Row.cell, hr, assigned, hlast, hc]
      simp [hd', Except.toOption, hcanon]
    · rw [Row.cell, Row.cell, assigned, hlast, List.getElem?_eq_none hge,
        List.getElem?_eq_none (by omega), List.getElem?_eq_none (by rw [hnormal.width]; exact hge)]
      rfl

/-- The columns of a row that an `UPDATE` leaves as it is. -/
theorem cell_of_unchanged (hnormal : schema.Normal row) (h : (assignColumns row set).2 = false)
    {i : Nat} {d : Datum} (hd : assigned schema set i = some d) : row.cell i = some d := by
  have hvalid : schema.validateRow (assignColumns row set).1 = .ok row := by
    rw [assignColumns_unchanged h]
    exact hnormal.validateRow
  rw [cell_of_changed hnormal hvalid i, hd]
  rfl

/-- An `UPDATE` that does not set the key keeps it. -/
theorem rowKey_of_assign (hnormal : schema.Normal row)
    (hvalid : schema.validateRow (assignColumns row set).1 = .ok row')
    (hkey : lastLiteral set schema.pkIdx = none) : rowKey schema row' = rowKey schema row := by
  rw [rowKey, rowKey, Table.column, Table.column, List.getD_eq_getElem?_getD,
    List.getD_eq_getElem?_getD, getElem?_of_not_set hnormal hvalid hkey]

end Assign

/-! ## What a statement stages -/

/-- A row that the schema of its table accepted, under its own key. -/
def Kept (schemas : Schemas) (k : TKey) (row : Row) : Prop :=
  ∃ schema, schemas[k.1]? = some schema ∧ schema.Normal row ∧ rowKey schema row = .ok k.2

def WellKept (schemas : Schemas) (rows : Rows) : Prop :=
  ∀ k row, rows[k]? = some row → Kept schemas k row

/-- All staged rows are so, and nothing is deleted. -/
def StagedKept (schemas : Schemas) (staged : Staged) : Prop :=
  ∀ k w, staged[k]? = some w → ∃ row, w.row = some row ∧ Kept schemas k row

/-- The assignments of an `UPDATE`. -/
def Stmt.set : Stmt → List (Nat × Datum)
  | .update _ _ set _ => set
  | .updatePoint _ _ set => set
  | _ => []

/-- An `INSERT`, a query, or an `UPDATE` that does not set the key; foreign keys
act on updates of the key only. -/
def Stmt.AssignsColumns (schemas : Schemas) : Stmt → Prop
  | .insert _ _ _ _ => True
  | .update table _ set fk =>
    (∀ schema, schemas[table]? = some schema → lastLiteral set schema.pkIdx = none) ∧
      ∀ rows actions, fk rows = .ok actions → actions = []
  | .updatePoint table _ set =>
    ∀ schema, schemas[table]? = some schema → lastLiteral set schema.pkIdx = none
  | .delete _ _ _ => False
  | .select _ => True

namespace Executed

/-- The statement is an `UPDATE` that succeeded and selected the row. -/
def updates (e : Executed) (k : TKey) : Bool :=
  match e.stmt, e.result with
  | .update table cond _ _, .ok _ => k.1 = table && e.seen[k]?.any (cond e.seen)
  | .updatePoint table key _, .ok _ => k = (table, key) && e.seen.contains k
  | _, _ => false

/-- The value that the statement gave a column of a row. -/
def assigned (schemas : Schemas) (e : Executed) (k : TKey) (i : Nat) : Option Datum :=
  match e.stmt with
  | .insert _ _ _ _ => (e.staged[k]?.bind StagedWrite.row).bind fun row => Row.cell row i
  | stmt =>
    if e.updates k then schemas[k.1]?.bind fun schema => Session.assigned schema stmt.set i else none

/-- The statement ran on rows that are well kept. -/
structure Ran (schemas : Schemas) (e : Executed) : Prop where
  seen : WellKept schemas e.seen
  assigns : e.stmt.AssignsColumns schemas
  result : ∃ incs, (e.stmt.exec schemas incs e.seen).2 = e.result

end Executed

/-- What an `UPDATE` stages for a row that it selects. -/
def StagesUpdate (schema : Schema) (set : List (Nat × Datum)) (row : Row) (w : Option StagedWrite) : Prop :=
  match assignColumns row set with
  | (_, false) => w = none
  | (new, true) =>
    ∃ row', schema.validateRow new = .ok row' ∧ w = some { row := some row', isInsert := false }

section Updates

variable {schemas : Schemas} {schema : Schema} {table : String} {set : List (Nat × Datum)} {rows : Rows}
  {staged staged' : Staged} {k : TKey}

/-- The loop of `exec_update` stages every row that changes. -/
theorem updateRows_covers : ∀ {matched : List Row} {staged staged' : Staged},
    updateRows schema table set matched staged = .ok staged' →
      (∀ k, staged.contains k = true → staged'.contains k = true) ∧
        ∀ old ∈ matched, ∀ new, assignColumns old set = (new, true) → ∃ row key,
          schema.validateRow new = .ok row ∧ rowKey schema row = .ok key ∧
            staged'.contains (table, key) = true
  | [], staged, staged', h => by
    cases h
    exact ⟨fun _ hk => hk, by simp⟩
  | first :: rest, staged, staged', h => by
    rw [updateRows] at h
    split at h
    · next hfirst =>
      obtain ⟨hmono, hrest⟩ := updateRows_covers h
      refine ⟨hmono, fun old hold new hnew => ?_⟩
      rcases List.mem_cons.mp hold with rfl | hold
      · rw [hfirst] at hnew
        cases hnew
      · exact hrest old hold new hnew
    · next new hfirst =>
      obtain ⟨row, hvalid, h⟩ := Outcome.bind_ok h
      obtain ⟨key, hkey, h⟩ := Outcome.bind_ok h
      obtain ⟨hmono, hrest⟩ := updateRows_covers h
      refine ⟨fun k hk => hmono k ?_, fun old hold new' hnew => ?_⟩
      · rw [ExtTreeMap.contains_insert, hk, Bool.or_true]
      · rcases List.mem_cons.mp hold with rfl | hold
        · rw [hfirst] at hnew
          cases hnew
          refine ⟨row, key, mapError_ok hvalid, hkey, hmono _ ?_⟩
          simp
        · exact hrest old hold new' hnew

theorem updateRows_staged {matched : List Row}
    (h : updateRows schema table set matched ∅ = .ok staged') {w : StagedWrite}
    (hw : staged'[k]? = some w) :
    ∃ old ∈ matched, ∃ new row, assignColumns old set = (new, true) ∧
      schema.validateRow new = .ok row ∧ rowKey schema row = .ok k.2 ∧ k.1 = table ∧
        w = { row := some row, isInsert := false } := by
  refine updateRows_keeps (P := fun staged => ∀ k w, staged[k]? = some w →
    ∃ old ∈ matched, ∃ new row, assignColumns old set = (new, true) ∧
      schema.validateRow new = .ok row ∧ rowKey schema row = .ok k.2 ∧ k.1 = table ∧
        w = { row := some row, isInsert := false }) ?_ h (by simp) k w hw
  intro staged old new row key hold hnew hvalid hkey hstaged k w hw
  rw [ExtTreeMap.getElem?_insert] at hw
  split at hw
  · next heq =>
    cases Std.compare_eq_iff_eq.mp heq
    cases hw
    exact ⟨old, hold, new, row, hnew, hvalid, hkey, rfl, rfl⟩
  · exact hstaged k w hw

theorem mem_matching {cond : Rows → Row → Bool} {row : Row} :
    row ∈ matching rows table cond ↔
      ∃ k : TKey, rows[k]? = some row ∧ k.1 = table ∧ cond rows row = true := by
  simp only [matching, List.mem_map, List.mem_filter, Bool.and_eq_true, decide_eq_true_eq]
  constructor
  · rintro ⟨⟨k, row'⟩, ⟨hmem, htable, hcond⟩, rfl⟩
    exact ⟨k, ExtTreeMap.mem_toList_iff_getElem?_eq_some.mp hmem, htable, hcond⟩
  · rintro ⟨k, hk, htable, hcond⟩
    exact ⟨(k, row), ⟨ExtTreeMap.mem_toList_iff_getElem?_eq_some.mpr hk, htable, hcond⟩, rfl⟩

/-- What the loop of `exec_update` stages, key by key. -/
theorem updateRows_matching {cond : Rows → Row → Bool} (hkept : WellKept schemas rows)
    (hschema : schemas[table]? = some schema) (hset : lastLiteral set schema.pkIdx = none)
    (h : updateRows schema table set (matching rows table cond) ∅ = .ok staged) (k : TKey) :
    if k.1 = table ∧ rows[k]?.any (cond rows) = true then
      ∃ row, rows[k]? = some row ∧ StagesUpdate schema set row staged[k]?
    else staged[k]? = none := by
  -- A row is staged under the key it was read from.
  have hback : ∀ {k : TKey} {old new row : Row}, rows[k]? = some old → k.1 = table →
      assignColumns old set = (new, true) → schema.validateRow new = .ok row →
        rowKey schema row = .ok k.2 := by
    intro k old new row hold htable hnew hvalid
    obtain ⟨schema', hschema', hnormal, hkey⟩ := hkept k old hold
    rw [htable, hschema] at hschema'
    cases hschema'
    rw [← hkey]
    have hassigned : schema.validateRow (assignColumns old set).1 = .ok row := by
      rw [hnew]
      exact hvalid
    exact rowKey_of_assign hnormal hassigned hset
  have hstaged : ∀ {w : StagedWrite}, staged[k]? = some w → ∃ old new row, rows[k]? = some old ∧
      k.1 = table ∧ cond rows old = true ∧ assignColumns old set = (new, true) ∧
        schema.validateRow new = .ok row ∧ w = { row := some row, isInsert := false } := by
    intro w hw
    obtain ⟨old, hold, new, row, hnew, hvalid, hkey, htable, rfl⟩ := updateRows_staged h hw
    obtain ⟨k', hk', htable', hcond⟩ := mem_matching.mp hold
    have hsame := hback hk' htable' hnew hvalid
    rw [hkey] at hsame
    obtain rfl : k = k' := Prod.ext (htable.trans htable'.symm) (Except.ok.inj hsame)
    exact ⟨old, new, row, hk', htable, hcond, hnew, hvalid, rfl⟩
  split
  · next hsel =>
    obtain ⟨htable, hany⟩ := hsel
    obtain ⟨row, hrow, hcond⟩ := (Option.any_eq_true _ _).mp hany
    refine ⟨row, hrow, ?_⟩
    unfold StagesUpdate
    rcases Option.eq_none_or_eq_some staged[k]? with hnone | ⟨w, hw⟩
    · split
      · exact hnone
      · next new hnew =>
        obtain ⟨row', key, hvalid, hkey, hcontains⟩ :=
          (updateRows_covers h).2 row (mem_matching.mpr ⟨k, hrow, htable, hcond⟩) new hnew
        rw [hback hrow htable hnew hvalid] at hkey
        rw [← Except.ok.inj hkey, ← htable, ExtTreeMap.contains_eq_isSome_getElem?, hnone] at hcontains
        cases hcontains
    · obtain ⟨old, new, row', hold, -, -, hnew, hvalid, rfl⟩ := hstaged hw
      rw [hrow] at hold
      cases hold
      rw [hnew]
      exact ⟨row', hvalid, hw⟩
  · next hsel =>
    rcases Option.eq_none_or_eq_some staged[k]? with hnone | ⟨w, hw⟩
    · exact hnone
    · obtain ⟨old, _, _, hold, htable, hcond, -⟩ := hstaged hw
      refine absurd ⟨htable, ?_⟩ hsel
      rw [hold]
      exact hcond

theorem updateKey_staged {key : Bytes}
    (h : updateKey schema table key set rows[(table, key)]? = .ok staged) (k : TKey) :
    if k = (table, key) ∧ rows.contains k = true then
      ∃ row, rows[k]? = some row ∧ StagesUpdate schema set row staged[k]?
    else staged[k]? = none := by
  rcases Option.eq_none_or_eq_some rows[(table, key)]? with hnone | ⟨row, hrow⟩
  · rw [hnone] at h
    cases h
    rw [if_neg]
    · simp
    · rintro ⟨rfl, hcontains⟩
      rw [ExtTreeMap.contains_eq_isSome_getElem?, hnone] at hcontains
      cases hcontains
  · rw [hrow, updateKey] at h
    split
    · next hk =>
      obtain ⟨rfl, -⟩ := hk
      refine ⟨row, hrow, ?_⟩
      unfold StagesUpdate
      rcases hassign : assignColumns row set with ⟨new, changed⟩
      rw [hassign] at h
      cases changed with
      | false =>
        cases h
        simp
      | true =>
        obtain ⟨row', hvalid, h⟩ := Outcome.bind_ok h
        cases h
        exact ⟨row', mapError_ok hvalid, by simp⟩
    · next hk =>
      have hne : k ≠ (table, key) := by
        rintro rfl
        refine hk ⟨rfl, ?_⟩
        rw [ExtTreeMap.contains_eq_isSome_getElem?, hrow]
        rfl
      split at h
      · cases h
        simp
      · obtain ⟨row', -, h⟩ := Outcome.bind_ok h
        cases h
        rw [ExtTreeMap.getElem?_insert, if_neg]
        · simp
        · exact fun heq => hne (Std.compare_eq_iff_eq.mp heq).symm

end Updates

end HenchDB.Session
