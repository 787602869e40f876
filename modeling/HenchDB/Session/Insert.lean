import HenchDB.Session.Alone
import HenchDB.Sql.Expr

/-!
# `INSERT` of several rows

`exec_insert` takes the tuples one by one.  A tuple becomes a row (`buildRow`),
gets its `AUTO_INCREMENT` value, is validated, and its key is looked up among the
rows the session sees and among the rows that the statement has staged.  Then all
rows are committed or staged at once.

The staged rows are kept under the resolved name of the table and looked up under
the name as it is written (`execInsert`).  So the statement is all or nothing with
distinct keys exactly when the two names agree, or the tuples do not carry a key
twice, or one of them carries a key that is there (`insert_all_or_nothing_iff`).
A session that holds a snapshot outside a transaction, which a `COMMIT` that fails
leaves behind, does not see the rows that it commits.

A connection runs here with no other commit under way; `commitTxn` is then the
commit of the phases (`commitTxn_settle`).
-/

namespace HenchDB.Session

open Std (ExtTreeMap)

/-! ## The statement -/

/-- `INSERT` as it is parsed. -/
structure InsertStmt where
  table : String
  columns : Option (List String)
  rows : List (List Expr)

/-- A session and what it sees of the database. -/
structure Conn where
  schemas : Schemas
  autoIncs : AutoIncs
  rows : Rows
  currentDb : String
  autocommit : Bool
  txn : Option Staged
  /-- What the session's snapshot shows in place of the trees. -/
  pinned : Option Rows

/-- What statements ask of code around them: how an expression is printed, and
the check of the foreign keys of the staged rows. -/
structure Context where
  /-- The `{:?}` of an expression. -/
  debug : Expr → String
  /-- `fk_check_insert_rows`. -/
  fkCheckInsertRows : Rows → Staged → Except Error Unit

namespace Conn

def visible (c : Conn) : Rows := view (c.pinned.getD c.rows) (c.txn.getD ∅)

def resolveTableKey (c : Conn) (tableName : String) : String :=
  if '.' ∈ tableName.toList then tableName
  else
    let qual := s!"{c.currentDb}.{tableName}"
    if c.schemas.contains qual then qual
    else if c.schemas.contains tableName then tableName
    else qual

end Conn

def literalOf (ctx : Context) : Expr → Except Error Datum
  | .literal d => .ok d
  | other => .error (.notSupported s!"INSERT values must be literals, got {ctx.debug other}")

def columnIndices (schema : Schema) (table : String) : List String → List String →
    Except Error (List Nat)
  | _, [] => .ok []
  | seen, name :: names =>
    if name ∈ seen then .error (.executionError s!"duplicate column '{name}' in INSERT")
    else
      match schema.indexOf name with
      | none => .error (.executionError s!"unknown column '{name}' in table '{table}'")
      | some idx => return idx :: (← columnIndices schema table (name :: seen) names)

/-- A tuple laid out over the columns of the table. -/
def buildRow (ctx : Context) (schema : Schema) (indices : Option (List Nat)) (exprs : List Expr) :
    Except Error Row :=
  match indices with
  | some indices =>
    if exprs.length ≠ indices.length then
      .error (.columnCountMismatch indices.length exprs.length)
    else
      (indices.zip exprs).foldlM
        (fun row (idx, e) => do return row.set idx (← literalOf ctx e))
        (schema.columns.map fun c => c.defaultValue.getD .null)
  | none => exprs.mapM (literalOf ctx)

/-- The row of a tuple with its key; the sequence moves on even if the row is
not valid. -/
def admitRow (ctx : Context) (schema : Schema) (indices : Option (List Nat))
    (inc : Option AutoIncState) (exprs : List Expr) :
    Option AutoIncState × Except StmtError (Bytes × Row) :=
  match buildRow ctx schema indices exprs with
  | .error e => (inc, .error (.err e))
  | .ok row =>
    match assignAutoInc inc row with
    | .error e => (inc, .error e)
    | .ok (inc, row) =>
      (inc, do
        let row ← (schema.validateRow row).mapError .err
        return (← rowKey schema row, row))

/-- The loop of `exec_insert` over the tuples. -/
def insertTuples (ctx : Context) (schema : Schema) (indices : Option (List Nat))
    (text table : String) (rows : Rows) :
    Option AutoIncState → List (List Expr) → Staged → Option AutoIncState × Except StmtError Staged
  | inc, [], staged => (inc, .ok staged)
  | inc, exprs :: rest, staged =>
    match admitRow ctx schema indices inc exprs with
    | (inc, .error e) => (inc, .error e)
    | (inc, .ok (key, row)) =>
      if staged.contains (text, key) || rows.contains (table, key) then
        (inc, .error (.duplicateKey key))
      else
        insertTuples ctx schema indices text table rows inc rest
          (staged.insert (table, key) { row := some row, isInsert := true })

/-- `commit_txn` with no other commit under way. -/
def Conn.commitTxn (c : Conn) (staged : Staged) : Except StmtError Conn :=
  if staged.isEmpty then .ok c
  else if !staged.fits c.schemas then .error (.err (.notSupported "row too large"))
  else
    match staged.inserted.find? fun k => c.rows.contains k with
    | some k => .error (.duplicateKey k.2)
    | none => .ok { c with rows := view c.rows staged }

def Conn.commitStagedOrStage (c : Conn) (staged : Staged) : Except StmtError Conn :=
  match c.txn with
  | some txn => .ok { c with txn := some (txn.extend staged) }
  | none => if c.autocommit then c.commitTxn staged else .ok { c with txn := some staged }

/-- The columns of an `INSERT` that names them. -/
def InsertStmt.indices (stmt : InsertStmt) (schema : Schema) : Except Error (Option (List Nat)) :=
  match stmt.columns with
  | none => .ok none
  | some names => (columnIndices schema stmt.table [] names).map some

/-- `exec_insert`, with the number of rows it reports. -/
def execInsert (ctx : Context) (stmt : InsertStmt) (c : Conn) : Conn × Except StmtError Nat :=
  let key := c.resolveTableKey stmt.table
  match c.schemas[key]? with
  | none => (c, .error (.err (.tableNotFound stmt.table)))
  | some schema =>
    match stmt.indices schema with
    | .error e => (c, .error (.err e))
    | .ok indices =>
      let (inc, result) :=
        insertTuples ctx schema indices stmt.table key c.visible c.autoIncs[key]? stmt.rows ∅
      let c := { c with autoIncs := inc.elim c.autoIncs (c.autoIncs.insert key) }
      match result with
      | .error e => (c, .error e)
      | .ok staged =>
        match ctx.fkCheckInsertRows c.visible staged with
        | .error e => (c, .error (.err e))
        | .ok () =>
          match c.commitStagedOrStage staged with
          | .error e => (c, .error e)
          | .ok c => (c, .ok staged.size)

/-! ## What the tuples carry -/

/-- The rows of the tuples with their keys, up to the first tuple that has none,
and how that one fails. -/
def carry (ctx : Context) (schema : Schema) (indices : Option (List Nat)) :
    Option AutoIncState → List (List Expr) → List (Bytes × Row) × Option StmtError
  | _, [] => ([], none)
  | inc, exprs :: rest =>
    match admitRow ctx schema indices inc exprs with
    | (_, .error e) => ([], some e)
    | (inc, .ok row) =>
      let (rows, e) := carry ctx schema indices inc rest
      (row :: rows, e)

/-- The same for a statement. -/
def InsertStmt.carried (ctx : Context) (stmt : InsertStmt) (c : Conn) :
    List (Bytes × Row) × Option StmtError :=
  let key := c.resolveTableKey stmt.table
  match c.schemas[key]? with
  | none => ([], some (.err (.tableNotFound stmt.table)))
  | some schema =>
    match stmt.indices schema with
    | .error e => ([], some (.err e))
    | .ok indices => carry ctx schema indices c.autoIncs[key]? stmt.rows

def putRows (table : String) (new : List (Bytes × Row)) (rows : Rows) : Rows :=
  new.foldl (fun rows e => rows.insert (table, e.1) e.2) rows

def stageRows (table : String) (new : List (Bytes × Row)) (staged : Staged) : Staged :=
  new.foldl (fun staged e => staged.insert (table, e.1) { row := some e.2, isInsert := true }) staged

/-- The loop once the rows of the tuples are known. -/
def placeRows (text table : String) (rows : Rows) :
    List (Bytes × Row) → Option StmtError → Staged → Except StmtError Staged
  | [], none, staged => .ok staged
  | [], some e, _ => .error e
  | (key, row) :: rest, e, staged =>
    if staged.contains (text, key) || rows.contains (table, key) then .error (.duplicateKey key)
    else
      placeRows text table rows rest e
        (staged.insert (table, key) { row := some row, isInsert := true })

variable {ctx : Context} {schema : Schema} {indices : Option (List Nat)} {text table : String}
  {rows : Rows} {staged : Staged} {new : List (Bytes × Row)} {err : Option StmtError}

theorem insertTuples_eq : ∀ {tuples : List (List Expr)} {inc : Option AutoIncState} {staged : Staged},
    (insertTuples ctx schema indices text table rows inc tuples staged).2 =
      placeRows text table rows (carry ctx schema indices inc tuples).1
        (carry ctx schema indices inc tuples).2 staged
  | [], _, _ => rfl
  | exprs :: rest, inc, staged => by
    rw [insertTuples, carry]
    cases hadmitted : admitRow ctx schema indices inc exprs with
    | mk inc' result =>
      cases result with
      | error e => rfl
      | ok kr =>
        obtain ⟨key, row⟩ := kr
        simp only [placeRows]
        split
        · rfl
        · exact insertTuples_eq

variable {e : StmtError} {inc : Option AutoIncState} {placed : Except StmtError Staged} {n : Nat}

theorem mapError_err {α : Type} {x : Except Error α} (h : x.mapError StmtError.err = .error e) :
    ∃ x, e = .err x := by
  cases x with
  | error x => exact ⟨x, (Except.error.inj h).symm⟩
  | ok a => cases h

theorem assignAutoInc_error {row : Row} (h : assignAutoInc inc row = .error e) :
    ∃ x, e = .err x := by
  cases inc with
  | none => cases h
  | some st =>
    simp only [assignAutoInc] at h
    cases hst : (st.assign row).mapError StmtError.err with
    | error e' =>
      rw [hst] at h
      obtain rfl := Except.error.inj h
      exact mapError_err hst
    | ok p =>
      rw [hst] at h
      cases h

/-- A tuple fails for its own reasons only. -/
theorem admitRow_error {inc' : Option AutoIncState} {exprs : List Expr}
    (h : admitRow ctx schema indices inc exprs = (inc', .error e)) : ∃ x, e = .err x := by
  rw [admitRow] at h
  cases hbuild : buildRow ctx schema indices exprs with
  | error x =>
    rw [hbuild] at h
    cases h
    exact ⟨x, rfl⟩
  | ok row =>
    simp only [hbuild] at h
    cases hassign : assignAutoInc inc row with
    | error e' =>
      rw [hassign] at h
      cases h
      exact assignAutoInc_error hassign
    | ok p =>
      simp only [hassign, Prod.mk.injEq] at h
      cases hvalid : (schema.validateRow p.2).mapError StmtError.err with
      | error e' =>
        rw [hvalid] at h
        obtain rfl := Except.error.inj h.2
        exact mapError_err hvalid
      | ok row' =>
        rw [hvalid] at h
        cases hkey : rowKey schema row' with
        | error e' =>
          simp only [bind, Except.bind, hkey] at h
          obtain rfl := Except.error.inj h.2
          exact mapError_err hkey
        | ok key =>
          simp only [bind, Except.bind, hkey] at h
          cases h.2

theorem carry_error : ∀ {tuples : List (List Expr)} {inc : Option AutoIncState} {e : StmtError},
    (carry ctx schema indices inc tuples).2 = some e → ∃ x, e = .err x
  | [], _, _, h => by cases h
  | exprs :: rest, inc, e, h => by
    rw [carry] at h
    cases hadmitted : admitRow ctx schema indices inc exprs with
    | mk inc' result =>
      rw [hadmitted] at h
      cases result with
      | error e' =>
        cases h
        exact admitRow_error hadmitted
      | ok kr => exact carry_error h

/-- A statement whose tuples all have a row carries one row for each. -/
theorem length_carry : ∀ {tuples : List (List Expr)} {inc : Option AutoIncState},
    (carry ctx schema indices inc tuples).2 = none →
      (carry ctx schema indices inc tuples).1.length = tuples.length
  | [], _, _ => rfl
  | exprs :: rest, inc, h => by
    rw [carry] at h ⊢
    cases hadmitted : admitRow ctx schema indices inc exprs with
    | mk inc' result =>
      rw [hadmitted] at h
      cases result with
      | error e => cases h
      | ok kr => exact congrArg (· + 1) (length_carry h)

/-! ## Placing rows -/

theorem placeRows_fresh : ∀ {new : List (Bytes × Row)} {staged : Staged},
    (∀ e ∈ new, (table, e.1) ∉ rows) →
    (text = table → (new.map Prod.fst).Nodup ∧ ∀ e ∈ new, (table, e.1) ∉ staged) →
    (text ≠ table → ∀ k, (text, k) ∉ staged) →
      placeRows text table rows new err staged =
        match err with
        | none => .ok (stageRows table new staged)
        | some e => .error e
  | [], staged, _, _, _ => by cases err <;> rfl
  | (key, row) :: rest, staged, hfree, hsame, hother => by
    have hrows : (table, key) ∉ rows := hfree (key, row) (by simp)
    have hstaged : (text, key) ∉ staged := by
      by_cases ht : text = table
      · exact ht ▸ (hsame ht).2 (key, row) (by simp)
      · exact hother ht key
    rw [placeRows, if_neg (by simp [hrows, hstaged])]
    refine placeRows_fresh (fun e he => hfree e (by simp [he])) (fun ht => ?_) fun ht k => ?_
    · obtain ⟨hnodup, hnew⟩ := hsame ht
      obtain ⟨hhead, htail⟩ := List.nodup_cons.mp hnodup
      refine ⟨htail, fun e he hmem => ?_⟩
      rcases ExtTreeMap.mem_insert.mp hmem with heq | hmem
      · have hkey : key = e.1 := congrArg Prod.snd (Std.compare_eq_iff_eq.mp heq)
        exact hhead (List.mem_map.mpr ⟨e, he, hkey.symm⟩)
      · exact hnew e (by simp [he]) hmem
    · intro hmem
      rcases ExtTreeMap.mem_insert.mp hmem with heq | hmem
      · exact ht (congrArg Prod.fst (Std.compare_eq_iff_eq.mp heq)).symm
      · exact hother ht k hmem

theorem placeRows_taken : ∀ {new : List (Bytes × Row)} {staged : Staged},
    (∃ e ∈ new, (table, e.1) ∈ rows ∨ (text, e.1) ∈ staged) →
      ∃ k, placeRows text table rows new err staged = .error (.duplicateKey k)
  | (key, row) :: rest, staged, ⟨e, he, htaken⟩ => by
    rw [placeRows]
    split
    · exact ⟨key, rfl⟩
    · next hfree =>
      rcases List.mem_cons.mp he with heq | hmem
      · subst heq
        refine absurd ?_ hfree
        rcases htaken with h | h <;> simp [h]
      · exact placeRows_taken ⟨e, hmem, htaken.imp id fun h => ExtTreeMap.mem_insert.mpr (.inr h)⟩

/-- Under one name, a key that two rows carry is found. -/
theorem placeRows_twice : ∀ {new : List (Bytes × Row)} {staged : Staged},
    ¬ (new.map Prod.fst).Nodup →
      ∃ k, placeRows table table rows new err staged = .error (.duplicateKey k)
  | [], _, h => absurd List.nodup_nil h
  | (key, row) :: rest, staged, h => by
    rw [placeRows]
    split
    · exact ⟨key, rfl⟩
    · rw [List.map_cons, List.nodup_cons, not_and_or, not_not] at h
      rcases h with hmem | htail
      · obtain ⟨e, he, heq⟩ := List.mem_map.mp hmem
        refine placeRows_taken ⟨e, he, .inr ?_⟩
        rw [heq]
        exact ExtTreeMap.mem_insert_self
      · exact placeRows_twice htail

/-! ## The rows that a statement stages -/

theorem view_insert {k : TKey} {row : Row} {b : Bool} :
    view rows (staged.insert k { row := some row, isInsert := b }) = (view rows staged).insert k row := by
  refine ExtTreeMap.ext_getElem? fun k' => ?_
  rw [getElem?_view, ExtTreeMap.getElem?_insert, ExtTreeMap.getElem?_insert, getElem?_view]
  split <;> rfl

theorem view_stageRows : ∀ {new : List (Bytes × Row)} {staged : Staged},
    view rows (stageRows table new staged) = putRows table new (view rows staged)
  | [], _ => rfl
  | e :: new, staged => by
    rw [stageRows, List.foldl_cons, putRows, List.foldl_cons, ← view_insert (b := true)]
    exact view_stageRows

theorem mem_putRows : ∀ {new : List (Bytes × Row)} {rows : Rows} {k : TKey},
    k ∈ putRows table new rows ↔ (∃ e ∈ new, k = (table, e.1)) ∨ k ∈ rows
  | [], _, _ => by simp [putRows]
  | e :: new, rows, k => by
    rw [putRows, List.foldl_cons]
    refine (mem_putRows).trans ?_
    simp only [ExtTreeMap.mem_insert, Std.compare_eq_iff_eq, List.mem_cons, exists_eq_or_imp,
      @eq_comm _ k]
    exact or_left_comm.trans or_assoc.symm

theorem mem_inserted_stageRows : ∀ {new : List (Bytes × Row)} {staged : Staged} {k : TKey},
    k ∈ (stageRows table new staged).inserted ↔
      (∃ e ∈ new, k = (table, e.1)) ∨ k ∈ staged.inserted
  | [], _, _ => by simp [stageRows]
  | e :: new, staged, k => by
    rw [stageRows, List.foldl_cons]
    refine (mem_inserted_stageRows).trans ?_
    have hstep : k ∈ Staged.inserted
          (staged.insert (table, e.1) { row := some e.2, isInsert := true }) ↔
        k = (table, e.1) ∨ k ∈ staged.inserted := by
      rw [Engine.mem_inserted, Engine.mem_inserted, ExtTreeMap.getElem?_insert]
      by_cases hk : (table, e.1) = k
      · subst hk
        simp
      · simp [hk, Ne.symm hk]
    simp only [hstep, List.mem_cons, exists_eq_or_imp]
    exact or_left_comm.trans or_assoc.symm

/-- Rows with distinct keys are counted one by one. -/
theorem size_stageRows : ∀ {new : List (Bytes × Row)} {staged : Staged}, (new.map Prod.fst).Nodup →
    (∀ e ∈ new, (table, e.1) ∉ staged) →
      (stageRows table new staged).size = staged.size + new.length
  | [], _, _, _ => rfl
  | e :: new, staged, hnodup, hnew => by
    obtain ⟨hhead, htail⟩ := List.nodup_cons.mp hnodup
    have hfree : (table, e.1) ∉ staged := hnew e (by simp)
    have hrest : ∀ e' ∈ new, (table, e'.1) ∉
        staged.insert (table, e.1) { row := some e.2, isInsert := true } := by
      intro e' he' hmem
      rcases ExtTreeMap.mem_insert.mp hmem with heq | hmem
      · have hkey : e.1 = e'.1 := congrArg Prod.snd (Std.compare_eq_iff_eq.mp heq)
        exact hhead (List.mem_map.mpr ⟨e', he', hkey.symm⟩)
      · exact hnew e' (by simp [he']) hmem
    have hsize := size_stageRows htail hrest
    rw [ExtTreeMap.size_insert, if_neg (by simpa using hfree)] at hsize
    rw [List.length_cons]
    exact hsize.trans (by omega)

/-! ## The end of the statement -/

/-- What `exec_insert` does once its loop has ended. -/
def finish (ctx : Context) (c : Conn) (placed : Except StmtError Staged) : Conn × Except StmtError Nat :=
  match placed with
  | .error e => (c, .error e)
  | .ok staged =>
    match ctx.fkCheckInsertRows c.visible staged with
    | .error e => (c, .error (.err e))
    | .ok () =>
      match c.commitStagedOrStage staged with
      | .error e => (c, .error e)
      | .ok c => (c, .ok staged.size)

variable {c c' : Conn} {stmt : InsertStmt}

/-- The session commits at once and keeps reading from a snapshot. -/
def Conn.Stale (c : Conn) : Prop := c.txn = none ∧ c.autocommit = true ∧ c.pinned.isSome = true

def Taken (table : String) (new : List (Bytes × Row)) (rows : Rows) : Prop :=
  ∃ e ∈ new, (table, e.1) ∈ rows

/-- A statement that fails changes nothing the session sees. -/
theorem finish_error (h : (finish ctx c placed).2 = .error e) : (finish ctx c placed).1 = c := by
  cases placed with
  | error e' => rfl
  | ok staged =>
    cases hfk : ctx.fkCheckInsertRows c.visible staged with
    | error e' => simp [finish, hfk]
    | ok _ =>
      cases hcommit : c.commitStagedOrStage staged with
      | error e' => simp [finish, hfk, hcommit]
      | ok c' => simp [finish, hfk, hcommit] at h

/-- A statement that ends well. -/
theorem finish_ok (h : (finish ctx c placed).2 = .ok n) :
    ∃ staged, placed = .ok staged ∧ ctx.fkCheckInsertRows c.visible staged = .ok () ∧
      c.commitStagedOrStage staged = .ok (finish ctx c placed).1 ∧ n = staged.size := by
  cases placed with
  | error e' => cases h
  | ok staged =>
    cases hfk : ctx.fkCheckInsertRows c.visible staged with
    | error e' => simp [finish, hfk] at h
    | ok _ =>
      cases hcommit : c.commitStagedOrStage staged with
      | error e' => simp [finish, hfk, hcommit] at h
      | ok c' =>
        simp only [finish, hfk, hcommit, Except.ok.injEq] at h
        exact ⟨staged, rfl, hfk, by simp [finish, hfk, hcommit], h.symm⟩

theorem commitTxn_ok (h : c.commitTxn staged = .ok c') :
    c' = { c with rows := view c.rows staged } ∧
      (staged.isEmpty ∨ staged.fits c.schemas = true ∧ ∀ k ∈ staged.inserted, k ∉ c.rows) := by
  rw [Conn.commitTxn] at h
  split at h
  · next hempty =>
    cases h
    rw [ExtTreeMap.isEmpty_iff.mp hempty, view_empty]
    exact ⟨rfl, .inl rfl⟩
  · split at h
    · cases h
    · next hfits =>
      split at h
      · cases h
      · next hfind =>
        cases h
        refine ⟨rfl, .inr ⟨by simpa using hfits, fun k hk => ?_⟩⟩
        simpa using List.find?_eq_none.mp hfind k hk

/-- What a session sees when its statement has been committed or staged. -/
theorem commitStagedOrStage_visible (h : c.commitStagedOrStage staged = .ok c') :
    (¬ c.Stale → c'.visible = view c.visible staged) ∧ (c.Stale → c'.visible = c.visible) := by
  rw [Conn.commitStagedOrStage] at h
  cases htxn : c.txn with
  | some txn =>
    rw [htxn] at h
    cases h
    refine ⟨fun _ => ?_, fun hs => ?_⟩
    · simp [Conn.visible, htxn, view_extend]
    · exact absurd hs.1 (by simp [htxn])
  | none =>
    simp only [htxn] at h
    split at h
    · next hauto =>
      obtain ⟨rfl, -⟩ := commitTxn_ok h
      cases hpin : c.pinned with
      | none =>
        refine ⟨fun _ => ?_, fun hs => ?_⟩
        · simp [Conn.visible, htxn, hpin]
        · exact absurd hs.2.2 (by simp [hpin])
      | some old =>
        refine ⟨fun hs => absurd ⟨htxn, hauto, by simp [hpin]⟩ hs, fun _ => ?_⟩
        simp [Conn.visible, hpin]
    · next hauto =>
      cases h
      refine ⟨fun _ => ?_, fun hs => absurd hs.2.1 (by simpa using hauto)⟩
      simp [Conn.visible, htxn]

/-- What becomes of the rows of the tuples if each has a row and a key of its own. -/
theorem commitStagedOrStage_cases (new : List (Bytes × Row)) :
    (∃ c', c.commitStagedOrStage (stageRows table new ∅) = .ok c') ∨
    (∃ e, c.commitStagedOrStage (stageRows table new ∅) = .error (.err e)) ∧
      ¬ (stageRows table new ∅).fits c.schemas = true ∨
    (∃ k, c.commitStagedOrStage (stageRows table new ∅) = .error (.duplicateKey k)) ∧
      c.txn = none ∧ c.autocommit = true ∧ (stageRows table new ∅).fits c.schemas = true ∧
      Taken table new c.rows := by
  rw [Conn.commitStagedOrStage]
  split
  · exact .inl ⟨_, rfl⟩
  · next htxn =>
    split
    · next hauto =>
      rw [Conn.commitTxn]
      split
      · exact .inl ⟨_, rfl⟩
      · split
        · next hfits => exact .inr (.inl ⟨⟨_, rfl⟩, by simpa using hfits⟩)
        · next hfits =>
          split
          · next k hfind =>
            refine .inr (.inr ⟨⟨k.2, rfl⟩, htxn, hauto, by simpa using hfits, ?_⟩)
            have hk := List.find?_some hfind
            rcases mem_inserted_stageRows.mp (List.mem_of_find?_eq_some hfind) with ⟨e, he, rfl⟩ | hno
            · exact ⟨e, he, by simpa using hk⟩
            · simp [Staged.inserted] at hno
          · exact .inl ⟨_, rfl⟩
    · exact .inl ⟨_, rfl⟩

/-! ## All or nothing -/

def InsertStmt.key (stmt : InsertStmt) (c : Conn) : String := c.resolveTableKey stmt.table

/-- The rows that the tuples of a statement carry. -/
abbrev InsertStmt.newRows (ctx : Context) (stmt : InsertStmt) (c : Conn) : List (Bytes × Row) :=
  (stmt.carried ctx c).1

/-- No key is carried twice. -/
def Distinct (new : List (Bytes × Row)) : Prop := (new.map Prod.fst).Nodup

/-- A statement inserts all its rows under keys of their own, or none: a key that
is there or that two tuples carry is refused. -/
structure AllOrNothing (ctx : Context) (stmt : InsertStmt) (c : Conn) : Prop where
  inserted : ∀ n, (execInsert ctx stmt c).2 = .ok n →
    n = stmt.rows.length ∧ (stmt.newRows ctx c).length = n ∧ Distinct (stmt.newRows ctx c) ∧
      ¬ Taken (stmt.key c) (stmt.newRows ctx c) c.visible ∧
      (execInsert ctx stmt c).1.visible = putRows (stmt.key c) (stmt.newRows ctx c) c.visible
  refused : ¬ Distinct (stmt.newRows ctx c) ∨ Taken (stmt.key c) (stmt.newRows ctx c) c.visible →
    ∃ k, (execInsert ctx stmt c).2 = .error (.duplicateKey k)
  unchanged : ∀ e, (execInsert ctx stmt c).2 = .error e → (execInsert ctx stmt c).1.visible = c.visible

/-- Every tuple has a row, the foreign keys of the staged rows hold, and the rows
are small enough. -/
structure Admitted (ctx : Context) (stmt : InsertStmt) (c : Conn) : Prop where
  rows : (stmt.carried ctx c).2 = none
  foreignKeys : ctx.fkCheckInsertRows c.visible (stageRows (stmt.key c) (stmt.newRows ctx c) ∅) = .ok ()
  fits : (stageRows (stmt.key c) (stmt.newRows ctx c) ∅).fits c.schemas = true

/-- The commit itself refuses a key, which the snapshot does not show. -/
def RefusedLate (ctx : Context) (stmt : InsertStmt) (c : Conn) : Prop :=
  c.Stale ∧ Admitted ctx stmt c ∧ Taken (stmt.key c) (stmt.newRows ctx c) c.rows

/-- Rows are inserted that the snapshot does not show. -/
structure Unseen (ctx : Context) (stmt : InsertStmt) (c : Conn) : Prop where
  stale : c.Stale
  some : stmt.newRows ctx c ≠ []
  distinct : Distinct (stmt.newRows ctx c)
  free : ¬ Taken (stmt.key c) (stmt.newRows ctx c) c.visible
  stored : ¬ Taken (stmt.key c) (stmt.newRows ctx c) c.rows
  admitted : Admitted ctx stmt c

/-- A statement ends with the placing of the rows that its tuples carry, unless
it fails before. -/
theorem execInsert_eq (ctx : Context) (stmt : InsertStmt) (c : Conn) :
    ∃ incs, execInsert ctx stmt c = finish ctx { c with autoIncs := incs }
      (placeRows stmt.table (stmt.key c) c.visible (stmt.newRows ctx c) (stmt.carried ctx c).2 ∅) := by
  rw [execInsert, InsertStmt.newRows, InsertStmt.carried, InsertStmt.key]
  split
  · exact ⟨c.autoIncs, rfl⟩
  · next schema h =>
    split
    · exact ⟨c.autoIncs, rfl⟩
    · next indices hidx =>
      simp only [← insertTuples_eq]
      exact ⟨(insertTuples ctx schema indices stmt.table (c.resolveTableKey stmt.table) c.visible
        c.autoIncs[c.resolveTableKey stmt.table]? stmt.rows ∅).1.elim c.autoIncs
          (c.autoIncs.insert (c.resolveTableKey stmt.table)), rfl⟩

/-- A statement whose tuples all have a row carries one row for each. -/
theorem length_carried (h : (stmt.carried ctx c).2 = none) :
    (stmt.newRows ctx c).length = stmt.rows.length := by
  rw [InsertStmt.newRows]
  rw [InsertStmt.carried] at h ⊢
  split at h
  · cases h
  · split at h
    · cases h
    · exact length_carry h

theorem carried_error (h : (stmt.carried ctx c).2 = some e) : ∃ x, e = .err x := by
  rw [InsertStmt.carried] at h
  split at h
  · exact ⟨_, (Option.some.inj h).symm⟩
  · split at h
    · exact ⟨_, (Option.some.inj h).symm⟩
    · exact carry_error h

/-- What the loop has placed if no key is taken and, under one name, none is
carried twice. -/
theorem placed_fresh (hfree : ¬ Taken (stmt.key c) (stmt.newRows ctx c) c.visible)
    (hdistinct : stmt.table = stmt.key c → Distinct (stmt.newRows ctx c)) :
    placeRows stmt.table (stmt.key c) c.visible (stmt.newRows ctx c) (stmt.carried ctx c).2 ∅ =
      match (stmt.carried ctx c).2 with
      | none => .ok (stageRows (stmt.key c) (stmt.newRows ctx c) ∅)
      | some e => .error e :=
  placeRows_fresh (fun e he hmem => hfree ⟨e, he, hmem⟩)
    (fun ht => ⟨hdistinct ht, fun _ _ => ExtTreeMap.not_mem_empty⟩)
    fun _ _ => ExtTreeMap.not_mem_empty

theorem refused_of_taken (h : Taken (stmt.key c) (stmt.newRows ctx c) c.visible) :
    ∃ k, (execInsert ctx stmt c).2 = .error (.duplicateKey k) := by
  obtain ⟨incs, hexec⟩ := execInsert_eq ctx stmt c
  obtain ⟨e, he, hmem⟩ := h
  obtain ⟨k, hk⟩ := placeRows_taken ⟨e, he, .inl hmem⟩
  exact ⟨k, by rw [hexec, hk]; rfl⟩

/-- Under the resolved name a key that is carried twice is refused. -/
theorem refused_of_twice (htext : stmt.table = stmt.key c)
    (h : ¬ Distinct (stmt.newRows ctx c)) :
    ∃ k, (execInsert ctx stmt c).2 = .error (.duplicateKey k) := by
  obtain ⟨incs, hexec⟩ := execInsert_eq ctx stmt c
  rw [htext] at hexec
  obtain ⟨k, hk⟩ := placeRows_twice h
  exact ⟨k, by rw [hexec, hk]; rfl⟩

/-- A commit that keeps the rows of a snapshot in view may refuse a key. -/
theorem refused_of_late (h : RefusedLate ctx stmt c)
    (hfree : ¬ Taken (stmt.key c) (stmt.newRows ctx c) c.visible)
    (hdistinct : stmt.table = stmt.key c → Distinct (stmt.newRows ctx c)) :
    ∃ k, (execInsert ctx stmt c).2 = .error (.duplicateKey k) := by
  obtain ⟨incs, hexec⟩ := execInsert_eq ctx stmt c
  obtain ⟨⟨htxn, hauto, -⟩, hadmitted, e, he, hmem⟩ := h
  rw [placed_fresh hfree hdistinct, hadmitted.rows] at hexec
  have hinserted : (stmt.key c, e.1) ∈
      (stageRows (stmt.key c) (stmt.newRows ctx c) ∅).inserted :=
    mem_inserted_stageRows.mpr (.inl ⟨e, he, rfl⟩)
  rcases commitStagedOrStage_cases (c := { c with autoIncs := incs })
    (stmt.newRows ctx c) with ⟨c', hc'⟩ | ⟨-, hfits⟩ | ⟨⟨k, hk⟩, -⟩
  · rw [Conn.commitStagedOrStage] at hc'
    simp only [htxn, hauto, if_true] at hc'
    rcases (commitTxn_ok hc').2 with hempty | ⟨-, hnone⟩
    · rw [ExtTreeMap.isEmpty_iff.mp hempty] at hinserted
      simp [Staged.inserted] at hinserted
    · exact absurd hmem (hnone _ hinserted)
  · exact absurd hadmitted.fits hfits
  · refine ⟨k, ?_⟩
    have hfk : ctx.fkCheckInsertRows ({ c with autoIncs := incs } : Conn).visible
        (stageRows (stmt.key c) (stmt.newRows ctx c) ∅) = .ok () := hadmitted.foreignKeys
    rw [hexec]
    simp only [finish, hfk, hk]

/-- A statement that ends well has placed its rows. -/
theorem inserted_of_ok (hok : (execInsert ctx stmt c).2 = .ok n)
    (hfree : ¬ Taken (stmt.key c) (stmt.newRows ctx c) c.visible)
    (hdistinct : stmt.table = stmt.key c → Distinct (stmt.newRows ctx c)) :
    (stmt.carried ctx c).2 = none ∧ n = (stageRows (stmt.key c) (stmt.newRows ctx c) ∅).size ∧
    ctx.fkCheckInsertRows c.visible (stageRows (stmt.key c) (stmt.newRows ctx c) ∅) = .ok () ∧
    ∃ incs, ({ c with autoIncs := incs } : Conn).commitStagedOrStage
      (stageRows (stmt.key c) (stmt.newRows ctx c) ∅) = .ok (execInsert ctx stmt c).1 := by
  obtain ⟨incs, hexec⟩ := execInsert_eq ctx stmt c
  rw [placed_fresh hfree hdistinct] at hexec
  cases herr : (stmt.carried ctx c).2 with
  | some e =>
    rw [herr] at hexec
    rw [hexec] at hok
    cases hok
  | none =>
    rw [herr] at hexec
    rw [hexec] at hok
    obtain ⟨staged, hplaced, hfk, hcommit, hn⟩ := finish_ok hok
    cases hplaced
    exact ⟨rfl, hn, hfk, incs, by rw [hexec]; exact hcommit⟩

/-- The other ends of a statement that nothing stops before its end. -/
theorem ends_of_free (hfree : ¬ Taken (stmt.key c) (stmt.newRows ctx c) c.visible)
    (hdistinct : stmt.table = stmt.key c → Distinct (stmt.newRows ctx c)) :
    (∃ n, (execInsert ctx stmt c).2 = .ok n) ∨ (∃ e, (execInsert ctx stmt c).2 = .error (.err e)) ∧
      ¬ Admitted ctx stmt c ∨ RefusedLate ctx stmt c := by
  obtain ⟨incs, hexec⟩ := execInsert_eq ctx stmt c
  rw [placed_fresh hfree hdistinct] at hexec
  cases herr : (stmt.carried ctx c).2 with
  | some e =>
    obtain ⟨x, rfl⟩ := carried_error herr
    rw [herr] at hexec
    exact .inr (.inl ⟨⟨x, by rw [hexec]; rfl⟩, fun h => nomatch herr.symm.trans h.rows⟩)
  | none =>
    rw [herr] at hexec
    have hvisible : ({ c with autoIncs := incs } : Conn).visible = c.visible := rfl
    cases hfk : ctx.fkCheckInsertRows c.visible (stageRows (stmt.key c) (stmt.newRows ctx c) ∅) with
    | error x =>
      refine .inr (.inl ⟨⟨x, ?_⟩, fun h => nomatch hfk.symm.trans h.foreignKeys⟩)
      rw [hexec]
      simp only [finish, hvisible, hfk]
    | ok _ =>
      rcases @commitStagedOrStage_cases (stmt.key c) { c with autoIncs := incs }
        (stmt.newRows ctx c) with ⟨c', hc'⟩ | ⟨⟨x, hx⟩, hfits⟩ | ⟨-, htxn, hauto, hfits, htaken⟩
      · refine .inl ⟨(stageRows (stmt.key c) (stmt.newRows ctx c) ∅).size, ?_⟩
        rw [hexec]
        simp only [finish, hvisible, hfk, hc']
      · refine .inr (.inl ⟨⟨x, ?_⟩, fun h => hfits h.fits⟩)
        rw [hexec]
        simp only [finish, hvisible, hfk, hx]
      · refine .inr (.inr ⟨⟨htxn, hauto, ?_⟩, ⟨herr, hfk, hfits⟩, htaken⟩)
        by_contra hpin
        refine hfree ?_
        have hrows : c.visible = c.rows := by
          have htxn' : c.txn = none := htxn
          simp only [Bool.not_eq_true, Option.isSome_eq_false_iff, Option.isNone_iff_eq_none] at hpin
          simp [Conn.visible, htxn', hpin]
        rw [hrows]
        exact htaken

/-- Rows that are committed or staged are seen. -/
theorem visible_of_ok (hok : (execInsert ctx stmt c).2 = .ok n)
    (hfree : ¬ Taken (stmt.key c) (stmt.newRows ctx c) c.visible)
    (hdistinct : stmt.table = stmt.key c → Distinct (stmt.newRows ctx c)) (hstale : ¬ c.Stale) :
    (execInsert ctx stmt c).1.visible = putRows (stmt.key c) (stmt.newRows ctx c) c.visible := by
  obtain ⟨-, -, -, incs, hcommit⟩ := inserted_of_ok hok hfree hdistinct
  refine ((commitStagedOrStage_visible hcommit).1 hstale).trans ?_
  rw [view_stageRows, view_empty]
  rfl

/-- The rows that a session with a snapshot commits are not. -/
theorem stale_of_ok (hok : (execInsert ctx stmt c).2 = .ok n)
    (hfree : ¬ Taken (stmt.key c) (stmt.newRows ctx c) c.visible)
    (hdistinct : stmt.table = stmt.key c → Distinct (stmt.newRows ctx c)) (hstale : c.Stale) :
    (execInsert ctx stmt c).1.visible = c.visible ∧
      (stmt.newRows ctx c = [] ∨
        Admitted ctx stmt c ∧ ¬ Taken (stmt.key c) (stmt.newRows ctx c) c.rows) := by
  obtain ⟨hrows, -, hfk, incs, hcommit⟩ := inserted_of_ok hok hfree hdistinct
  refine ⟨(commitStagedOrStage_visible hcommit).2 hstale, ?_⟩
  obtain ⟨htxn, hauto, -⟩ := hstale
  rw [Conn.commitStagedOrStage] at hcommit
  simp only [htxn, hauto, if_true] at hcommit
  cases hnew : stmt.newRows ctx c with
  | nil => exact .inl rfl
  | cons e rest =>
    rw [← hnew]
    have hin : ∀ e ∈ stmt.newRows ctx c, (stmt.key c, e.1) ∈
        (stageRows (stmt.key c) (stmt.newRows ctx c) ∅).inserted :=
      fun e he => mem_inserted_stageRows.mpr (.inl ⟨e, he, rfl⟩)
    rcases (commitTxn_ok hcommit).2 with hempty | ⟨hfits, hnone⟩
    · have he := hin e (by rw [hnew]; simp)
      rw [ExtTreeMap.isEmpty_iff.mp hempty] at he
      simp [Staged.inserted] at he
    · refine .inr ⟨⟨hrows, hfk, hfits⟩, ?_⟩
      rintro ⟨e, he, hmem⟩
      exact hnone _ (hin e he) hmem

/-- An `INSERT` is all or nothing with distinct keys exactly when the table is
named by its resolved name, or no key is carried twice, or a key is there
already; and no rows are committed behind a snapshot that the session keeps. -/
theorem insert_all_or_nothing_iff (ctx : Context) (stmt : InsertStmt) (c : Conn) :
    AllOrNothing ctx stmt c ↔
      (stmt.table = stmt.key c ∨ Distinct (stmt.newRows ctx c) ∨
        Taken (stmt.key c) (stmt.newRows ctx c) c.visible ∨ RefusedLate ctx stmt c) ∧
      ¬ Unseen ctx stmt c := by
  constructor
  · intro h
    refine ⟨?_, fun hunseen => ?_⟩
    · by_contra hno
      simp only [not_or] at hno
      obtain ⟨htext, htwice, hfree, hlate⟩ := hno
      obtain ⟨k, hk⟩ := h.refused (.inl htwice)
      rcases ends_of_free hfree (fun ht => absurd ht htext) with ⟨n, hn⟩ | ⟨⟨e, he⟩, -⟩ | hl
      · exact nomatch hn.symm.trans hk
      · exact nomatch he.symm.trans hk
      · exact hlate hl
    · rcases ends_of_free hunseen.free (fun _ => hunseen.distinct) with ⟨n, hn⟩ | ⟨-, hno⟩ | hl
      · obtain ⟨-, -, -, -, hseen⟩ := h.inserted n hn
        rw [(stale_of_ok hn hunseen.free (fun _ => hunseen.distinct) hunseen.stale).1] at hseen
        obtain ⟨e, he⟩ := List.exists_mem_of_ne_nil _ hunseen.some
        refine hunseen.free ⟨e, he, ?_⟩
        rw [hseen]
        exact mem_putRows.mpr (.inl ⟨e, he, rfl⟩)
      · exact hno hunseen.admitted
      · exact hunseen.stored hl.2.2
  · rintro ⟨hnames, hseen⟩
    have hrefused : ¬ Distinct (stmt.newRows ctx c) ∨
        Taken (stmt.key c) (stmt.newRows ctx c) c.visible →
          ∃ k, (execInsert ctx stmt c).2 = .error (.duplicateKey k) := by
      intro hkeys
      by_cases hfree : Taken (stmt.key c) (stmt.newRows ctx c) c.visible
      · exact refused_of_taken hfree
      · have htwice := hkeys.resolve_right hfree
        by_cases htext : stmt.table = stmt.key c
        · exact refused_of_twice htext htwice
        · rcases hnames with ht | hd | htaken | hlate
          · exact absurd ht htext
          · exact absurd hd htwice
          · exact absurd htaken hfree
          · exact refused_of_late hlate hfree fun ht => absurd ht htext
    refine ⟨fun n hn => ?_, hrefused, fun e he => ?_⟩
    · have hfree : ¬ Taken (stmt.key c) (stmt.newRows ctx c) c.visible := fun ht => by
        obtain ⟨k, hk⟩ := hrefused (.inr ht)
        exact nomatch hn.symm.trans hk
      have hdistinct : Distinct (stmt.newRows ctx c) := by
        by_contra htwice
        obtain ⟨k, hk⟩ := hrefused (.inl htwice)
        exact nomatch hn.symm.trans hk
      obtain ⟨hrows, hsize, -⟩ := inserted_of_ok hn hfree fun _ => hdistinct
      have hlength : (stmt.newRows ctx c).length = n := by
        rw [hsize, size_stageRows hdistinct fun _ _ => ExtTreeMap.not_mem_empty]
        exact (Nat.zero_add _).symm
      refine ⟨hlength.symm.trans (length_carried hrows), hlength, hdistinct, hfree, ?_⟩
      by_cases hstale : c.Stale
      · obtain ⟨hsame, hends⟩ := stale_of_ok hn hfree (fun _ => hdistinct) hstale
        by_cases hnil : stmt.newRows ctx c = []
        · rw [hsame, hnil]
          rfl
        · obtain ⟨hadmitted, hstored⟩ := hends.resolve_left hnil
          exact absurd ⟨hstale, hnil, hdistinct, hfree, hstored, hadmitted⟩ hseen
      · exact visible_of_ok hn hfree (fun _ => hdistinct) hstale
    · obtain ⟨incs, hexec⟩ := execInsert_eq ctx stmt c
      rw [hexec] at he ⊢
      rw [finish_error he]
      rfl

/-! ## The loop and the commit of the other modules -/

/-- Tuples of literals are the rows of `insertRows`. -/
theorem insertTuples_literals : ∀ {new : List Row} {inc : Option AutoIncState} {staged : Staged},
    insertTuples ctx schema none text table rows inc (new.map (List.map Expr.literal)) staged =
      insertRows schema text table rows inc new staged
  | [], _, _ => rfl
  | row :: rest, inc, staged => by
    have hbuild : ∀ row : Row, buildRow ctx schema none (row.map Expr.literal) = .ok row := by
      intro row
      induction row with
      | nil => rfl
      | cons d ds ih =>
        simp only [buildRow] at ih ⊢
        simp only [List.map_cons, List.mapM_cons, literalOf, ih, bind, Except.bind, pure,
          Except.pure]
    rw [List.map_cons, insertTuples, insertRows, admitRow, hbuild]
    cases hassign : assignAutoInc inc row with
    | error e => simp only [hassign]
    | ok p =>
      cases hvalid : schema.validateRow p.2 with
      | error e => simp only [hassign, hvalid, Except.mapError, bind, Except.bind]
      | ok row' =>
        cases hkey : rowKey schema row' with
        | error e => simp only [hassign, hvalid, hkey, Except.mapError, bind, Except.bind]
        | ok key =>
          simp only [hassign, hvalid, hkey, Except.mapError, bind, Except.bind, pure, Except.pure]
          split
          · rfl
          · exact insertTuples_literals

/-- With nobody else a commit is the phases of `commit_txn`. -/
theorem commitTxn_settle {s : Engine} {r : Nat} {t : Txn} (honly : s.Only r)
    (hschemas : c.schemas = s.schemas) (hrows : c.rows = s.rows) :
    (c.commitTxn t.staged).toOption.map Conn.rows = ((s.commitTxn r t).settle r).map Engine.rows := by
  have haccepts : t.staged.Commits s.schemas s.rows →
      c.commitTxn t.staged = .ok { c with rows := view c.rows t.staged } := by
    rintro ⟨hfits, hfree⟩
    rw [Conn.commitTxn]
    split
    · next hempty =>
      rw [ExtTreeMap.isEmpty_iff.mp hempty, view_empty]
    · rw [hschemas, hfits, List.find?_eq_none.mpr fun k hk => by simp [hrows, hfree k hk]]
      rfl
  cases hsettle : (s.commitTxn r t).settle r with
  | some s' =>
    have hcommits := Engine.commits_of_settle_commitTxn honly hsettle
    obtain ⟨s'', hs'', -, hview, -⟩ := Engine.settle_commitTxn honly hcommits
    cases hsettle.symm.trans hs''
    rw [haccepts hcommits, Option.map_some, hview, ← hrows]
    rfl
  | none =>
    cases hc : c.commitTxn t.staged with
    | error e => rfl
    | ok c' =>
      have hcommits : t.staged.Commits s.schemas s.rows := by
        rcases (commitTxn_ok hc).2 with hempty | ⟨hfits, hfree⟩
        · rw [ExtTreeMap.isEmpty_iff.mp hempty]
          exact ⟨rfl, fun k hk => by simp [Staged.inserted] at hk⟩
        · exact ⟨hschemas ▸ hfits, fun k hk => by
            rw [← hrows, ← Bool.not_eq_true, ExtTreeMap.contains_iff_mem]
            exact hfree k hk⟩
      obtain ⟨s', hs', -⟩ := Engine.settle_commitTxn honly hcommits
      cases hsettle.symm.trans hs'

/-! ## A key that is given twice -/

/-- A connection to a database with the table `default.counters`, without rows. -/
def counterConn : Conn where
  schemas := Engine.counterSchemas
  autoIncs := ∅
  rows := ∅
  currentDb := "default"
  autocommit := true
  txn := none
  pinned := none

/-- A transaction that has inserted `(7, 1)` and deleted the row of 8, which is not there. -/
def oneSeven : Txn where
  staged := ((∅ : Staged).insert (Engine.counterKey 7) ⟨some [.int 7, .int 1], true⟩).insert
    (Engine.counterKey 8) ⟨none, false⟩
  trace := []

theorem commitTxn_settle_seven :
    (counterConn.commitTxn oneSeven.staged).toOption.map Conn.rows =
      (((Engine.start Engine.counterSchemas ∅ ∅).commitTxn 0 oneSeven).settle 0).map Engine.rows ∧
    oneSeven.staged.isEmpty = false ∧
    (counterConn.commitTxn oneSeven.staged).toOption.map (·.rows[Engine.counterKey 7]?) =
      some (some [.int 7, .int 1]) :=
  ⟨commitTxn_settle (c := counterConn) (s := .start Engine.counterSchemas ∅ ∅) (r := 0) (t := oneSeven)
    ⟨fun _ _ => rfl, rfl, rfl, rfl⟩ rfl rfl, by decide +kernel, by decide +kernel⟩

def noForeignKeys : Context := ⟨fun _ => "", fun _ _ => .ok ()⟩

/-- `INSERT INTO counters VALUES (7, 1), (7, 2)`. -/
def givesTwice : InsertStmt where
  table := "counters"
  columns := none
  rows := [[.literal (.int 7), .literal (.int 1)], [.literal (.int 7), .literal (.int 2)]]

/-- The statement reports one row, and the second tuple has replaced the first. -/
theorem givesTwice_reports_one :
    (execInsert noForeignKeys givesTwice counterConn).2 = .ok 1 ∧
    (execInsert noForeignKeys givesTwice counterConn).1.visible[Engine.counterKey 7]? =
      some [.int 7, .int 2] ∧
    ¬ AllOrNothing noForeignKeys givesTwice counterConn := by
  have hone : (execInsert noForeignKeys givesTwice counterConn).2 = .ok 1 := by decide +kernel
  refine ⟨hone, by decide +kernel, fun h => ?_⟩
  have htwo := (h.inserted 1 hone).1
  revert htwo
  decide

end HenchDB.Session
