import HenchDB.KeyOrder
import HenchDB.Wire.CopyColumns

/-!
# COPY and `INSERT`

A COPY of named columns is the `INSERT` of them as far as the check of a row is
concerned.  The sequence of the table is asked before, and it tells a `NULL`, a value
that is left off and a default from one another.  Where the key of the table is
generated, it has to be named, or to stand in front of a column that is and to have no
default (`copy_is_insert_iff`).
-/

namespace HenchDB

open Session Outcome
open Std (ExtTreeMap)

/-! ## The law -/

def Refuses (schema : Schema) (names : List String) : Prop :=
  ∃ j c e, schema.columns[j]? = some c ∧ j ∉ schema.positions names ∧ schema.sequence ≠ some j ∧
    c.normalize .null = .error e

/-- The gates look at the table of a statement only. -/
def CopyHost.ByTable (h : CopyHost) : Prop :=
  ∀ n (stmt stmt' : InsertStmt), stmt.table = stmt'.table → h.enforce n stmt = h.enforce n stmt'

/-- Whatever the rows, a COPY of them succeeds just if the `INSERT` statements do, and leaves the
same rows then. -/
def CopyIsInsert (table : String) (schema : Schema) (names : List String) : Prop :=
  ∀ (h : CopyHost) (spec : CopySpec) (c : Conn) (rows : List (List Datum)), h.ByTable →
    spec.table = table → c.Knows table schema → (∀ row ∈ rows, IsRow schema names row) →
      ((∃ n, (copyRows h spec schema names rows c).2 = .ok n) ↔
        (insertInTxn h (insertStatements h table names rows) c).2 = .ok ()) ∧
      ((insertInTxn h (insertStatements h table names rows) c).2 = .ok () →
        (copyRows h spec schema names rows c).1.rows =
          (insertInTxn h (insertStatements h table names rows) c).1.rows ∧
        (copyRows h spec schema names rows c).1.visible =
          (insertInTxn h (insertStatements h table names rows) c).1.visible)

/-- The sequence is asked for a value in both runs or in neither, or all rows are refused. -/
def AsksAlike (schema : Schema) (names : List String) : Prop :=
  ∀ a c, schema.sequence = some a → schema.columns[a]? = some c →
    a ∈ schema.positions names ∨ Refuses schema names ∨
      if a < schema.copyWidth names then c.defaultValue.getD .null = .null
      else c.defaultValue.getD .null ≠ .null ∧ ∃ e, c.normalize .null = .error e

section Rows

variable {table : String} {schema : Schema} {names : List String}

def AdmittedAlike (schema : Schema) (names : List String) : Prop :=
  ∀ ctx (row : List Datum) inc, row.length = names.length → seqColumn inc = schema.sequence →
    admitRow ctx schema none inc (tupleExprs (copyTuple schema names row)) =
      admitRow ctx schema (some (schema.positions names)) inc (tupleExprs row)

def BothRefused (schema : Schema) (names : List String) : Prop :=
  ∀ ctx (row : List Datum) inc, row.length = names.length → seqColumn inc = schema.sequence →
    (∃ e, (admitRow ctx schema none inc (tupleExprs (copyTuple schema names row))).2 = .error e) ∧
    ∃ e, (admitRow ctx schema (some (schema.positions names)) inc (tupleExprs row)).2 = .error e

theorem admittedAlike_of_same (hl : Listing table schema names)
    (h : ∀ a (vals : List Datum), schema.sequence = some a → vals.length = names.length →
      (copyTuple schema names vals)[a]? = (insertRow schema names vals)[a]?) :
    AdmittedAlike schema names := by
  intro ctx row inc hlen hinc
  have hlen' : (row.map readBack).length = names.length := by rw [List.length_map, hlen]
  exact admitRow_congr (Listing.buildRow_copy ctx schema names row) (hl.buildRow_insert ctx hlen)
    (hl.fills hlen') fun a ha => h a _ (hinc.symm.trans ha) hlen'

theorem bothRefused_of_refuses (hl : Listing table schema names) (h : Refuses schema names) :
    BothRefused schema names := by
  obtain ⟨j, c, e, hc, hj, hseq, he⟩ := h
  intro ctx row inc hlen hinc
  refine ⟨admitRow_refused (Listing.buildRow_copy ctx schema names row) fun inc' row' hassign => ?_,
    admitRow_refused (hl.buildRow_insert ctx hlen) fun inc' row' hassign => ?_⟩
  · refine Schema.validateRow_refused (e := e) hc ?_
    rw [(assignAutoInc_keeps hassign).2 j (hinc.trans_ne hseq), Listing.getElem?_copyTuple hj]
    split
    · exact he
    · rw [Option.getD_none, c.normalize_default, he]
  · refine Schema.validateRow_refused (e := e) hc ?_
    rw [(assignAutoInc_keeps hassign).2 j (hinc.trans_ne hseq), Listing.getElem?_insertRow hj hc,
      Option.getD_some, c.normalize_default, he]

/-- A COPY that leaves the key off cannot ask the sequence. -/
theorem copy_refused (ctx : Context) (row : List Datum) {inc : Option AutoIncState} {a : Nat}
    (hinc : seqColumn inc = some a) (ha : a ∉ schema.positions names)
    (hwidth : ¬ a < schema.copyWidth names) :
    ∃ e, (admitRow ctx schema none inc (tupleExprs (copyTuple schema names row))).2 = .error e := by
  refine admitRow_refused (Listing.buildRow_copy ctx schema names row) fun inc' row' hassign => ?_
  have hnone : (copyTuple schema names (row.map readBack))[a]? = none := by
    rw [Listing.getElem?_copyTuple ha, if_neg hwidth]
  have hexplicit : ExplicitRow inc (copyTuple schema names (row.map readBack)) := by
    intro i hi
    cases hinc.symm.trans hi
    rw [hnone]
    simp
  rcases assignAutoInc_explicit hexplicit with ⟨herr, -⟩ | ⟨-, hsome⟩
  · exact nomatch hassign.symm.trans herr
  · exact absurd hnone (hsome a hinc)

theorem bothRefused_of_default (hl : Listing table schema names) {a : Nat} {c : ColumnDef} {e : Error}
    (hseq : schema.sequence = some a) (hc : schema.columns[a]? = some c) (ha : a ∉ schema.positions names)
    (hwidth : ¬ a < schema.copyWidth names) (hdefault : c.defaultValue.getD .null ≠ .null)
    (he : c.normalize .null = .error e) : BothRefused schema names := by
  intro ctx row inc hlen hinc
  refine ⟨copy_refused ctx row (hinc.trans hseq) ha hwidth,
    admitRow_refused (hl.buildRow_insert ctx hlen) fun inc' row' hassign => ?_⟩
  have hvalue := Listing.getElem?_insertRow ha hc (row.map readBack)
  have hexplicit : ExplicitRow inc (insertRow schema names (row.map readBack)) := by
    intro i hi
    cases hseq.symm.trans (hinc.symm.trans hi)
    rw [hvalue]
    exact fun hnull => hdefault (Option.some.inj hnull)
  rcases assignAutoInc_explicit hexplicit with ⟨herr, -⟩ | ⟨⟨inc'', hok⟩, -⟩
  · exact nomatch hassign.symm.trans herr
  · obtain ⟨-, rfl⟩ := Prod.mk.inj (Except.ok.inj (hassign.symm.trans hok))
    refine Schema.validateRow_refused (e := e) hc ?_
    rw [hvalue, Option.getD_some, c.normalize_default, he]

/-- The rows of the two runs are admitted alike, or none is. -/
theorem admitted_or_refused (hl : Listing table schema names) (h : AsksAlike schema names) :
    AdmittedAlike schema names ∨ BothRefused schema names := by
  cases hseq : schema.sequence with
  | none => exact .inl (admittedAlike_of_same hl fun a _ ha => nomatch hseq.symm.trans ha)
  | some a =>
    have hlt : a < schema.columns.length := (List.findIdx?_eq_some_iff_findIdx_eq.mp hseq).1
    have hc := List.getElem?_eq_getElem hlt
    by_cases ha : a ∈ schema.positions names
    · refine .inl (admittedAlike_of_same hl fun a' vals ha' hvals => ?_)
      cases hseq.symm.trans ha'
      obtain ⟨d, -, hcopy, hinsert⟩ := hl.getElem?_named ha hvals
      exact hcopy.trans hinsert.symm
    · rcases (h a _ hseq hc).resolve_left ha with hrefuses | hdefault
      · exact .inr (bothRefused_of_refuses hl hrefuses)
      · split at hdefault
        · next hwidth =>
          refine .inl (admittedAlike_of_same hl fun a' vals ha' _ => ?_)
          cases hseq.symm.trans ha'
          rw [Listing.getElem?_copyTuple ha, Listing.getElem?_insertRow ha hc, if_pos hwidth, hdefault]
        · next hwidth =>
          obtain ⟨hne, e, he⟩ := hdefault
          exact .inr (bothRefused_of_default hl hseq hc ha hwidth hne he)

end Rows

section Statements

variable {h : CopyHost} {table : String} {schema : Schema} {names : List String} {c : Conn}

theorem Listing.length_row (hl : Listing table schema names) {row : List Datum}
    (hrow : IsRow schema names row) : row.length = names.length := by
  rw [← hrow.length_eq, Schema.targets, List.length_map, hl.length_positions]

theorem Listing.noFloat_row (hl : Listing table schema names) {row : List Datum}
    (hrow : IsRow schema names row) : ∀ d ∈ row, noFloat d := by
  intro d hd
  obtain ⟨t, ht, hreads⟩ := exists_of_forall₂_right hrow d hd
  obtain ⟨p, hp, rfl⟩ := List.mem_map.mp ht
  have hlt : p < schema.columns.length := Listing.lt_of_mem_positions hp
  obtain ⟨hfloat, hdouble⟩ := hl.noFloats _ (List.getElem_mem hlt)
  simp only [List.getElem?_eq_getElem hlt, Option.map_some, Option.getD_some] at hreads
  cases d with
  | float v =>
    cases hctype : (schema.columns[p]).ctype with
    | float => exact absurd hctype hfloat
    | double => exact absurd hctype hdouble
    | _ =>
      rw [hctype] at hreads
      cases hreads
  | _ => rfl

/-- No float is put into a tuple. -/
theorem noFloat_spread : ∀ (ps : List Nat) {vals base : List Datum}, (∀ d ∈ vals, noFloat d) →
    (∀ d ∈ base, noFloat d) → ∀ d ∈ spread ps vals base, noFloat d
  | [], _, _, _, hbase => hbase
  | _ :: _, [], _, _, hbase => hbase
  | p :: ps, v :: vals, base, hvals, hbase => by
    refine noFloat_spread ps (fun d hd => hvals d (List.mem_cons_of_mem _ hd)) fun d hd => ?_
    rcases List.mem_or_eq_of_mem_set hd with hd | rfl
    · exact hbase d hd
    · exact hvals d List.mem_cons_self

/-- A statement that is read. -/
def executeStmt (h : CopyHost) (n : Nat) (stmt : InsertStmt) (c : Conn) : Conn × Except StmtError Nat :=
  match h.gate n with
  | .error e => (c, .error (.err e))
  | .ok _ =>
    match h.enforce n stmt with
    | .error e => (c, .error (.err e))
    | .ok _ => execInsert h.context stmt c

variable {n : Nat} {chunk : List (List Datum)}

theorem execute_read {sql : List Char} {stmt : InsertStmt}
    (hread : h.grammar.parseSql sql = .ok stmt) :
    CopyRun.execute h n sql c = executeStmt h n stmt c := by
  rw [CopyRun.execute, hread]
  rfl

theorem execute_copy (hl : Listing table schema names) (hne : chunk ≠ [])
    (hrows : ∀ row ∈ chunk, IsRow schema names row) (n : Nat) :
    CopyRun.execute h n (insertText table none
      (chunk.map fun row => tupleText h.txt.float (copyTuple schema names row))) c =
      executeStmt h n ⟨table, none, chunk.map fun row => tupleExprs (copyTuple schema names row)⟩ c := by
  have hread : h.grammar.parseSql (insertText table none
      ((chunk.map (copyTuple schema names)).map (tupleText h.txt.float))) = .ok ⟨table, none,
        (chunk.map (copyTuple schema names)).map (List.map fun d => .literal (readBack d))⟩ := by
    refine h.grammar.parseSql_insertText ⟨hl.table, by simp, by simpa using hne, fun row hrow => ?_⟩
    obtain ⟨vals, hvals, rfl⟩ := List.mem_map.mp hrow
    refine ⟨?_, noFloat_spread _ (hl.noFloat_row (hrows vals hvals)) fun d hd => ?_⟩
    · rw [← List.length_pos_iff, copyTuple, length_spread, List.length_replicate]
      exact Nat.succ_pos _
    · rw [List.eq_of_mem_replicate hd]
      rfl
  rw [List.map_map, List.map_map] at hread
  exact execute_read hread

/-- A statement of the `INSERT`. -/
theorem execute_insert (hl : Listing table schema names) (hne : chunk ≠ [])
    (hrows : ∀ row ∈ chunk, IsRow schema names row) (n : Nat) :
    CopyRun.execute h n (insertText table (some names) (chunk.map (tupleText h.txt.float))) c =
      executeStmt h n ⟨table, some names, chunk.map tupleExprs⟩ c := by
  refine execute_read (h.grammar.parseSql_insertText ⟨hl.table, ?_, hne, fun row hrow => ⟨?_, ?_⟩⟩)
  · rintro _ ⟨⟩
    exact ⟨hl.named, fun s hs => (hl.columns s hs).1⟩
  · rw [← List.length_pos_iff, hl.length_row (hrows row hrow)]
    exact List.length_pos_iff.mpr hl.named
  · exact hl.noFloat_row (hrows row hrow)

theorem executeStmt_knows {stmt : InsertStmt} (hknows : c.Knows table schema) :
    (executeStmt h n stmt c).1.Knows table schema := by
  rw [executeStmt]
  split
  · exact hknows
  · split
    · exact hknows
    · exact hknows.execInsert stmt

theorem executeStmt_alike (hl : Listing table schema names) (halike : AdmittedAlike schema names)
    (hgates : h.ByTable) (hrows : ∀ row ∈ chunk, IsRow schema names row)
    (hknows : c.Knows table schema) (n : Nat) :
    executeStmt h n ⟨table, none, chunk.map fun row => tupleExprs (copyTuple schema names row)⟩ c =
      executeStmt h n ⟨table, some names, chunk.map tupleExprs⟩ c := by
  have htuples : ∀ staged, insertTuples h.context schema none table (c.resolveTableKey table) c.visible
      c.autoIncs[c.resolveTableKey table]?
        (chunk.map fun row => tupleExprs (copyTuple schema names row)) staged =
      insertTuples h.context schema (some (schema.positions names)) table (c.resolveTableKey table)
        c.visible c.autoIncs[c.resolveTableKey table]? (chunk.map tupleExprs) staged := fun staged =>
    insertTuples_congr (fun row hrow inc hinc =>
      halike h.context row inc (hl.length_row (hrows row hrow)) hinc) hknows.sequence
  have hinsert : execInsert h.context
      ⟨table, none, chunk.map fun row => tupleExprs (copyTuple schema names row)⟩ c =
        execInsert h.context ⟨table, some names, chunk.map tupleExprs⟩ c := by
    rw [execInsert, execInsert]
    simp only [hknows.known, InsertStmt.indices, hl.columnIndices_eq, Except.map, htuples]
  rw [executeStmt, executeStmt, hinsert,
    hgates n ⟨table, none, _⟩ ⟨table, some names, chunk.map tupleExprs⟩ rfl]

theorem executeStmt_refused {cols : Option (List String)} {indices : Option (List Nat)} {exprs : List Expr}
    {tuples : List (List Expr)} (hknows : c.Knows table schema)
    (hindices : InsertStmt.indices ⟨table, cols, exprs :: tuples⟩ schema = .ok indices)
    (hadmitted : ∃ e,
      (admitRow h.context schema indices c.autoIncs[c.resolveTableKey table]? exprs).2 = .error e)
    (n : Nat) : ∃ e, (executeStmt h n ⟨table, cols, exprs :: tuples⟩ c).2 = .error e := by
  obtain ⟨e, he⟩ := hadmitted
  rw [executeStmt]
  split
  · exact ⟨_, rfl⟩
  · split
    · exact ⟨_, rfl⟩
    · rw [execInsert]
      simp only [hknows.known, hindices, insertTuples]
      rcases hrow : admitRow h.context schema indices c.autoIncs[c.resolveTableKey table]? exprs with
        ⟨inc, e' | p⟩
      · exact ⟨_, rfl⟩
      · rw [hrow] at he
        cases he

/-- Statements that are carried out alike one after the other. -/
theorem insertAll_alike (hl : Listing table schema names) (halike : AdmittedAlike schema names)
    (hgates : h.ByTable) : ∀ (chunks : List (List (List Datum))) (n : Nat) {c : Conn},
    (∀ chunk ∈ chunks, chunk ≠ [] ∧ ∀ row ∈ chunk, IsRow schema names row) → c.Knows table schema →
      CopyRun.insertAll h n (chunks.map (copyChunk h table schema names)) c =
        CopyRun.insertAll h n (chunks.map (insertChunk h table names)) c
  | [], _, _, _, _ => rfl
  | chunk :: chunks, n, c, hchunks, hknows => by
    obtain ⟨hne, hrows⟩ := hchunks chunk List.mem_cons_self
    have hfirst : CopyRun.execute h n (copyChunk h table schema names chunk) c =
        CopyRun.execute h n (insertChunk h table names chunk) c := by
      rw [copyChunk, insertChunk, execute_copy hl hne hrows, execute_insert hl hne hrows]
      exact executeStmt_alike hl halike hgates hrows hknows n
    have hafter : (CopyRun.execute h n (insertChunk h table names chunk) c).1.Knows table schema := by
      rw [insertChunk, execute_insert hl hne hrows]
      exact executeStmt_knows hknows
    rw [List.map_cons, List.map_cons, CopyRun.insertAll, CopyRun.insertAll, hfirst]
    rcases hrun : CopyRun.execute h n (insertChunk h table names chunk) c with ⟨c', e | m⟩
    · rfl
    · rw [hrun] at hafter
      exact insertAll_alike hl halike hgates chunks (n + 1)
        (fun chunk hchunk => hchunks chunk (List.mem_cons_of_mem _ hchunk)) hafter

/-- Statements the first of which is refused. -/
theorem insertAll_refused {sql : List Char} (hfirst : ∃ e, (CopyRun.execute h n sql c).2 = .error e)
    (sqls : List (List Char)) :
    ∃ e, (CopyRun.insertAll h n (sql :: sqls) c).2 = .error e := by
  obtain ⟨e, he⟩ := hfirst
  rw [CopyRun.insertAll]
  rcases hrun : CopyRun.execute h n sql c with ⟨c', e' | m⟩
  · exact ⟨e', rfl⟩
  · rw [hrun] at he
    cases he

theorem bothRefused_first (hl : Listing table schema names) (hrefused : BothRefused schema names)
    (hne : chunk ≠ []) (hrows : ∀ row ∈ chunk, IsRow schema names row)
    (hknows : c.Knows table schema) (n : Nat) :
    (∃ e, (CopyRun.execute h n (copyChunk h table schema names chunk) c).2 = .error e) ∧
    ∃ e, (CopyRun.execute h n (insertChunk h table names chunk) c).2 = .error e := by
  rw [copyChunk, insertChunk, execute_copy hl hne hrows, execute_insert hl hne hrows]
  obtain ⟨row, rest, rfl⟩ := List.exists_cons_of_ne_nil hne
  obtain ⟨hcopy, hinsert⟩ := hrefused h.context row c.autoIncs[c.resolveTableKey table]?
    (hl.length_row (hrows row List.mem_cons_self)) hknows.sequence
  refine ⟨executeStmt_refused hknows rfl hcopy n, executeStmt_refused hknows ?_ hinsert n⟩
  simp only [InsertStmt.indices, hl.columnIndices_eq]
  rfl

theorem beginTxn_knows {c' : Conn} (hknows : c.Knows table schema) (hbegin : c.beginTxn = .ok c') :
    c'.Knows table schema := by
  rw [Conn.beginTxn] at hbegin
  split at hbegin
  · cases hbegin
  · cases hbegin
    exact hknows.of_eq rfl rfl fun _ => rfl

/-- A transaction around statements that are carried out alike. -/
theorem insertInTxn_congr {sqls sqls' : List (List Char)} (hknows : c.Knows table schema)
    (h' : ∀ c : Conn, c.Knows table schema → CopyRun.insertAll h 0 sqls c = CopyRun.insertAll h 0 sqls' c) :
    insertInTxn h sqls c = insertInTxn h sqls' c := by
  rw [insertInTxn, insertInTxn, h' c hknows]
  cases hbegin : c.beginTxn with
  | error e => rfl
  | ok c' => simp only [h' c' (beginTxn_knows hknows hbegin)]

/-- A transaction around statements one of which is refused. -/
theorem insertInTxn_refused {sqls : List (List Char)} (hknows : c.Knows table schema)
    (h' : ∀ c : Conn, c.Knows table schema → ∃ e, (CopyRun.insertAll h 0 sqls c).2 = .error e) :
    ∃ e, (insertInTxn h sqls c).2 = .error e := by
  rw [insertInTxn]
  split
  · exact h' c hknows
  · cases hbegin : c.beginTxn with
    | error e => exact ⟨e, rfl⟩
    | ok c' =>
      obtain ⟨e, he⟩ := h' c' (beginTxn_knows hknows hbegin)
      simp only
      rcases hrun : CopyRun.insertAll h 0 sqls c' with ⟨after, e' | _⟩
      · exact ⟨e', rfl⟩
      · rw [hrun] at he
        cases he

/-- If the sequence is asked alike, a COPY is its `INSERT`. -/
theorem copyIsInsert_of_asksAlike (hl : Listing table schema names) (hasks : AsksAlike schema names) :
    CopyIsInsert table schema names := by
  intro h spec c rows hgates hspec hknows hrows
  obtain ⟨hresult, hrun⟩ := copyRows_eq (h := h) (c := c) hl spec hspec rows
  have hchunks : ∀ chunk ∈ rows.toChunks CopyRunner.insertChunkRows,
      chunk ≠ [] ∧ ∀ row ∈ chunk, IsRow schema names row := by
    intro chunk hchunk
    obtain ⟨hne, hmem⟩ := Chunks.of_mem_toChunks (by decide) hchunk
    exact ⟨hne, fun row hrow => hrows row (hmem row hrow)⟩
  rw [copyStatements] at hresult hrun
  rw [insertStatements]
  rcases admitted_or_refused hl hasks with halike | hrefused
  · have hsame := insertInTxn_congr (c := c) hknows fun c hknows =>
      insertAll_alike hl halike hgates (rows.toChunks CopyRunner.insertChunkRows) 0 hchunks hknows
    rw [hsame] at hresult hrun
    exact ⟨hresult, fun hok => by rw [hrun hok]; exact ⟨rfl, rfl⟩⟩
  · cases hlist : rows.toChunks CopyRunner.insertChunkRows with
    | nil =>
      rw [hlist] at hresult hrun
      exact ⟨hresult, fun hok => by rw [hrun hok]; exact ⟨rfl, rfl⟩⟩
    | cons chunk chunks =>
      rw [hlist] at hresult hrun hchunks
      obtain ⟨hne, hrows'⟩ := hchunks chunk List.mem_cons_self
      have hboth : ∀ c : Conn, c.Knows table schema → _ := fun c hknows =>
        bothRefused_first (h := h) hl hrefused hne hrows' hknows 0
      obtain ⟨e, he⟩ := insertInTxn_refused (c := c) hknows fun c hknows =>
        insertAll_refused (hboth c hknows).1 (chunks.map (copyChunk h table schema names))
      obtain ⟨e', he'⟩ := insertInTxn_refused (c := c) hknows fun c hknows =>
        insertAll_refused (hboth c hknows).2 (chunks.map (insertChunk h table names))
      rw [List.map_cons, he] at hresult
      rw [List.map_cons, he']
      exact ⟨hresult.trans (iff_of_false (by simp) (by simp)), fun hok => nomatch hok⟩

end Statements

/-! ## A row that tells them apart -/

def ColumnType.sample : ColumnType → Datum
  | .text | .varChar => .text ""
  | .bool => .bool false
  | .dateTime | .timestamp => .dateTime 0
  | .int | .bigInt | .float | .double => .int 0

def sampleRow (schema : Schema) (names : List String) : List Datum :=
  (schema.targets names).map fun t => t.2.sample

def sampleCopy (table : String) (schema : Schema) (names : List String) : InsertStmt :=
  ⟨table, none, [tupleExprs (copyTuple schema names (sampleRow schema names))]⟩

def sampleInsert (table : String) (schema : Schema) (names : List String) : InsertStmt :=
  ⟨table, some names, [tupleExprs (sampleRow schema names)]⟩

/-- The name of the database of `sampleConn`. -/
def sampleDb : String := "default"

def sampleKey (table : String) : String := s!"{sampleDb}.{table}"

/-- A transaction on a connection whose table is empty. -/
def sampleConn (table : String) (schema : Schema) (inc : AutoIncState) : Conn where
  schemas := (∅ : Schemas).insert (sampleKey table) schema
  autoIncs := (∅ : AutoIncs).insert (sampleKey table) inc
  rows := ∅
  currentDb := sampleDb
  autocommit := true
  txn := some ∅
  pinned := none

theorem ColumnDef.normalize_sample (c : ColumnDef) :
    ∃ d, c.normalize (readBack c.ctype.sample) = .ok d := by
  have hmoment : parseDatetimeStr (formatDatetimeMicros 0) = some 0 := by decide +kernel
  have hadmitted : ∀ d : Datum, d ≠ .null → c.ctype.accepts (c.ctype.coerce d) = true →
      ∃ d', c.normalize d = .ok d' := by
    intro d hne haccepts
    exact ⟨c.ctype.coerce d, by rw [normalize_of_ne_null hne, ColumnDef.admit, if_pos haccepts]⟩
  cases hctype : c.ctype with
  | dateTime | timestamp =>
    refine hadmitted _ (by simp [ColumnType.sample, readBack]) ?_
    simp only [hctype, ColumnType.sample, readBack, ColumnType.coerce, hmoment]
    rfl
  | _ =>
    refine hadmitted _ (by simp [ColumnType.sample, readBack]) ?_
    rw [hctype]
    rfl

namespace Schema

variable {schema : Schema} {row : List Datum}

theorem normalizeRow_ok : ∀ {cols : List ColumnDef} {xs : List Datum}, xs.length = cols.length →
    (∀ (j : Nat) c x, cols[j]? = some c → xs[j]? = some x → ∃ d, c.normalize x = .ok d) →
      ∃ ys, normalizeRow cols xs = .ok ys
  | [], [], _, _ => ⟨[], rfl⟩
  | c :: cs, x :: xs, hlen, h => by
    obtain ⟨d, hd⟩ := h 0 c x rfl rfl
    obtain ⟨ys, hys⟩ := normalizeRow_ok (Nat.succ.inj hlen) fun j => h (j + 1)
    exact ⟨d :: ys, by rw [normalizeRow, hd, hys]; rfl⟩

theorem validateRow_ok (hlen : row.length ≤ schema.columns.length)
    (h : ∀ (j : Nat) c, schema.columns[j]? = some c →
      ∃ d, c.normalize (row[j]?.getD (c.defaultValue.getD .null)) = .ok d) :
    ∃ row', schema.validateRow row = .ok row' := by
  have hwidth := length_fillDefaults hlen
  obtain ⟨ys, hys⟩ := normalizeRow_ok hwidth fun j c x hc hx => by
    rw [getElem?_fillDefaults hc] at hx
    cases hx
    exact h j c hc
  exact ⟨ys, by rw [validateRow]; simp only [hwidth, hys, ne_eq, not_true_eq_false, if_false]⟩

end Schema

section Apart

variable {table : String} {schema : Schema} {names : List String} {inc : AutoIncState} {a : Nat}
  {c : ColumnDef}

theorem isRow_sample (hl : Listing table schema names) : IsRow schema names (sampleRow schema names) := by
  rw [IsRow, sampleRow, List.forall₂_map_right_iff, List.forall₂_same]
  intro t ht
  obtain ⟨p, hp, rfl⟩ := List.mem_map.mp ht
  have hlt : p < schema.columns.length := Listing.lt_of_mem_positions hp
  obtain ⟨hfloat, hdouble⟩ := hl.noFloats _ (List.getElem_mem hlt)
  simp only [List.getElem?_eq_getElem hlt, Option.map_some, Option.getD_some]
  cases hctype : (schema.columns[p]).ctype with
  | float => exact absurd hctype hfloat
  | double => exact absurd hctype hdouble
  | _ => rfl

theorem resolveTableKey_sample (hname : IsName table) :
    (sampleConn table schema inc).resolveTableKey table = sampleKey table := by
  obtain ⟨d, word, hlist, hd, hword⟩ := hname
  have hpoint : '.' ∉ table.toList := by
    rw [hlist, List.mem_cons, not_or]
    constructor
    · rintro rfl
      rcases hd with hd | hd <;> exact absurd hd (by decide)
    · exact fun hmem => absurd (hword _ hmem) (by decide)
  have hmem : (sampleConn table schema inc).schemas.contains (sampleKey table) = true := by
    simp [sampleConn]
  rw [Conn.resolveTableKey, if_neg hpoint]
  exact if_pos hmem

theorem knows_sample (hname : IsName table) (ha : schema.sequence = some inc.colIdx) :
    (sampleConn table schema inc).Knows table schema := by
  constructor
  · rw [resolveTableKey_sample hname]
    simp [sampleConn]
  · rw [resolveTableKey_sample hname]
    simp only [sampleConn, ExtTreeMap.getElem?_insert_self]
    exact ha.symm

theorem autoIncs_sample (schema : Schema) (inc : AutoIncState) (hname : IsName table) :
    (sampleConn table schema inc).autoIncs[(sampleConn table schema inc).resolveTableKey table]? =
      some inc := by
  rw [resolveTableKey_sample hname]
  simp [sampleConn]

variable {indices : Option (List Nat)} {exprs : List Expr} {inc' : Option AutoIncState}
  {row : Session.Row}

/-- A statement of one tuple that is admitted. -/
theorem execInsert_one (stmt : InsertStmt) {k : Bytes} (hl : Listing table schema names)
    (ha : schema.sequence = some inc.colIdx) (htable : stmt.table = table)
    (hrows : stmt.rows = [exprs]) (hindices : stmt.indices schema = .ok indices)
    (hadmitted : admitRow noForeignKeys schema indices (some inc) exprs = (inc', .ok (k, row))) :
    (∃ n, (execInsert noForeignKeys stmt (sampleConn table schema inc)).2 = .ok n) ∧
    ∀ k', (sampleKey table, k') ∈ (execInsert noForeignKeys stmt (sampleConn table schema inc)).1.visible ↔
      k' = k := by
  have hvisible : (sampleConn table schema inc).visible = ∅ := by
    simp [Conn.visible, sampleConn, view_empty]
  have htuples : insertTuples noForeignKeys schema indices table (sampleKey table) ∅ (some inc) [exprs] ∅ =
      (inc', .ok ((∅ : Staged).insert ((sampleKey table), k) { row := some row, isInsert := true })) := by
    rw [insertTuples, hadmitted]
    simp [insertTuples]
  have hknown := (knows_sample hl.table ha).known
  have hincs := autoIncs_sample schema inc hl.table
  rw [resolveTableKey_sample hl.table] at hknown hincs
  rw [execInsert]
  simp only [htable, hrows, resolveTableKey_sample hl.table, hknown, hindices, hincs, hvisible, htuples]
  refine ⟨⟨_, rfl⟩, fun k' => ?_⟩
  simp [noForeignKeys, Conn.commitStagedOrStage, sampleConn, Conn.visible, empty_extend, view_insert,
    view_empty]
  exact eq_comm

/-- What one row tells of the two runs. -/
theorem CopyIsInsert.one_row (h : CopyIsInsert table schema names) (inc : AutoIncState)
    (hl : Listing table schema names) (ha : schema.sequence = some inc.colIdx) :
    ((∃ n, (execInsert noForeignKeys (sampleCopy table schema names)
        (sampleConn table schema inc)).2 = .ok n) ↔
      ∃ n, (execInsert noForeignKeys (sampleInsert table schema names)
        (sampleConn table schema inc)).2 = .ok n) ∧
    ((∃ n, (execInsert noForeignKeys (sampleInsert table schema names)
        (sampleConn table schema inc)).2 = .ok n) →
      (execInsert noForeignKeys (sampleCopy table schema names)
        (sampleConn table schema inc)).1.visible =
      (execInsert noForeignKeys (sampleInsert table schema names)
        (sampleConn table schema inc)).1.visible) := by
  have hrow : ∀ row ∈ [sampleRow schema names], IsRow schema names row := by
    intro row hrow
    cases List.mem_singleton.mp hrow
    exact isRow_sample hl
  have hone : ∀ (sql : List Char) (stmt : InsertStmt),
      CopyRun.execute openHost 0 sql (sampleConn table schema inc) =
        executeStmt openHost 0 stmt (sampleConn table schema inc) →
      ((insertInTxn openHost [sql] (sampleConn table schema inc)).2 = .ok () ↔
        ∃ n, (execInsert noForeignKeys stmt (sampleConn table schema inc)).2 = .ok n) ∧
      (insertInTxn openHost [sql] (sampleConn table schema inc)).1 =
        (execInsert noForeignKeys stmt (sampleConn table schema inc)).1 := by
    intro sql stmt hexec
    have hstmt : CopyRun.execute openHost 0 sql (sampleConn table schema inc) =
        execInsert noForeignKeys stmt (sampleConn table schema inc) := hexec
    have hopen : (sampleConn table schema inc).inTransaction = true := rfl
    rw [insertInTxn, if_pos hopen, CopyRun.insertAll, hstmt]
    rcases execInsert noForeignKeys stmt (sampleConn table schema inc) with ⟨c, e | n⟩
    · simp
    · simp [CopyRun.insertAll]
  obtain ⟨hresult, hrun⟩ := copyRows_eq (h := openHost) (c := sampleConn table schema inc) hl
    ⟨table, .csv, byteOf ',', [], false⟩ rfl [sampleRow schema names]
  obtain ⟨hiff, hsame⟩ := h openHost ⟨table, .csv, byteOf ',', [], false⟩ (sampleConn table schema inc)
    [sampleRow schema names] (fun _ _ _ _ => rfl) rfl (knows_sample hl.table ha) hrow
  have hcopy := hone (copyChunk openHost table schema names [sampleRow schema names])
    (sampleCopy table schema names)
    (execute_copy hl (List.cons_ne_nil _ _) hrow 0)
  have hinsert := hone (insertChunk openHost table names [sampleRow schema names])
    (sampleInsert table schema names)
    (execute_insert hl (List.cons_ne_nil _ _) hrow 0)
  have hchunks : [sampleRow schema names].toChunks CopyRunner.insertChunkRows =
      [[sampleRow schema names]] := rfl
  rw [copyStatements, hchunks] at hresult hrun
  rw [insertStatements, hchunks] at hiff hsame
  rw [hresult] at hiff
  constructor
  · exact hcopy.1.symm.trans (hiff.trans hinsert.1)
  · intro hok
    have hok' := hinsert.1.mpr hok
    have hvisible := (hsame hok').2
    rw [hrun (hiff.mpr hok')] at hvisible
    exact (congrArg Conn.visible hcopy.2).symm.trans (hvisible.trans (congrArg Conn.visible hinsert.2))

theorem normalize_named (hl : Listing table schema names) (ha : schema.sequence = some a)
    (hrefuses : ¬ Refuses schema names) {j : Nat} (hc : schema.columns[j]? = some c) (hj : j ≠ a)
    (hrow : row = copyTuple schema names ((sampleRow schema names).map readBack) ∨
      row = insertRow schema names ((sampleRow schema names).map readBack)) :
    ∃ d, c.normalize (row[j]?.getD (c.defaultValue.getD .null)) = .ok d := by
  have hlen : ((sampleRow schema names).map readBack).length = names.length := by
    rw [List.length_map]
    exact hl.length_row (isRow_sample hl)
  by_cases hmem : j ∈ schema.positions names
  · obtain ⟨d, hd, hcopy, hinsert⟩ := hl.getElem?_named hmem hlen
    have hvalue : row[j]? = some d := by
      rcases hrow with rfl | rfl
      · exact hcopy
      · exact hinsert
    have hpairs : ∀ ps : List Nat, ps.zip (((ps.map fun p =>
        (p, (schema.columns[p]?.map ColumnDef.ctype).getD .text)).map fun t => t.2.sample).map readBack) =
          ps.map fun p => (p, readBack ((schema.columns[p]?.map ColumnDef.ctype).getD .text).sample) := by
      intro ps
      induction ps with
      | nil => rfl
      | cons p ps ih => exact congrArg (_ :: ·) ih
    have hsample : d = readBack c.ctype.sample := by
      rw [sampleRow, Schema.targets, hpairs] at hd
      obtain ⟨p, -, hp⟩ := List.mem_map.mp hd
      cases hp
      rw [hc]
      rfl
    rw [hvalue, hsample]
    exact c.normalize_sample
  · have hnull : ∃ d, c.normalize .null = .ok d := by
      cases hn : c.normalize .null with
      | ok d => exact ⟨d, rfl⟩
      | error e =>
        refine absurd ⟨j, c, e, hc, hmem, fun hseq => hj ?_, hn⟩ hrefuses
        exact Option.some.inj (hseq.symm.trans ha)
    rcases hrow with rfl | rfl
    · rw [Listing.getElem?_copyTuple hmem]
      split
      · exact hnull
      · rw [Option.getD_none, c.normalize_default]
        exact hnull
    · rw [Listing.getElem?_insertRow hmem hc, Option.getD_some, c.normalize_default]
      exact hnull

theorem admitRow_sample (inc : AutoIncState) {row' : Session.Row} {x : Int64}
    (hl : Listing table schema names) (hseq : schema.sequence = some inc.colIdx)
    (hc : schema.columns[inc.colIdx]? = some c)
    (hbuild : buildRow noForeignKeys schema indices exprs = .ok row)
    (hlen : row.length ≤ schema.columns.length)
    (hassign : assignAutoInc (some inc) row = .ok (inc', row'))
    (hothers : ∀ (j : Nat) c, schema.columns[j]? = some c → j ≠ inc.colIdx →
      ∃ d, c.normalize (row[j]?.getD (c.defaultValue.getD .null)) = .ok d)
    (hkey : c.normalize (row'[inc.colIdx]?.getD (c.defaultValue.getD .null)) = .ok (.int x)) :
    ∃ stored, admitRow noForeignKeys schema indices (some inc) exprs =
      (inc', .ok (1 :: keyInt x, stored)) := by
  obtain ⟨hlength, hkept⟩ := assignAutoInc_keeps hassign
  have hvalid : ∃ stored, schema.validateRow row' = .ok stored := by
    refine Schema.validateRow_ok (hlength.trans_le hlen) fun j c' hc' => ?_
    by_cases hj : j = inc.colIdx
    · subst hj
      cases hc.symm.trans hc'
      exact ⟨_, hkey⟩
    · rw [hkept j fun heq => hj (Option.some.inj heq).symm]
      exact hothers j c' hc' hj
  obtain ⟨stored, hstored⟩ := hvalid
  obtain ⟨hwidth, hcolumns⟩ := Schema.validateRow_spec hstored
  have hlt : inc.colIdx < stored.length := hwidth ▸ (List.getElem?_eq_some_iff.mp hc).1
  have hvalue := hcolumns _ c _ _ hc (Schema.getElem?_fillDefaults hc) (List.getElem?_eq_getElem hlt)
  have hint : stored[inc.colIdx] = .int x := Except.ok.inj (hvalue.symm.trans hkey)
  have hrowKey : rowKey schema stored = .ok (1 :: keyInt x) := by
    rw [rowKey, ← (hl.sequence _ c hseq hc).1, Table.column, List.getD_eq_getElem?_getD,
      List.getElem?_eq_getElem hlt, Option.getD_some, hint]
    rfl
  refine ⟨stored, ?_⟩
  rw [admitRow, hbuild]
  simp only [hassign, hstored, Except.mapError, bind, Except.bind, hrowKey]
  rfl

theorem assign_null {st : AutoIncState} (hnull : row[st.colIdx]? = some .null)
    (hnext : st.next ≤ 2 ^ 63 - 1) :
    assignAutoInc (some st) row = .ok (some { st with next := st.next + 1 },
      row.set st.colIdx (.int (Int64.ofNat st.next))) := by
  simp only [assignAutoInc, AutoIncState.assign, hnull, if_neg (Nat.not_lt.mpr hnext)]
  rfl

/-- What a key column takes is an integer. -/
theorem ColumnDef.normalize_int (hint : c.ctype = .int ∨ c.ctype = .bigInt) :
    (∀ x, c.normalize (.int x) = .ok (.int x)) ∧
    ∀ v d, v ≠ .null → c.normalize v = .ok d → ∃ x, d = .int x := by
  constructor
  · intro x
    rcases hint with h | h <;>
      simp [normalize, ColumnDef.admit, h, ColumnType.coerce, ColumnType.accepts.eq_def]
  · intro v d hv hd
    rw [normalize_of_ne_null hv] at hd
    obtain ⟨rfl, haccepts⟩ := admit_spec hd
    rcases hint with h | h
    all_goals
      rw [h] at haccepts ⊢
      cases v with
      | null => exact absurd rfl hv
      | int x => exact ⟨x, rfl⟩
      | bool b => exact ⟨if b then 1 else 0, rfl⟩
      | float _ | text _ | dateTime _ => cases haccepts

theorem keyInt_inj {x y : Int64} (h : keyInt x = keyInt y) : x = y := by
  have hcompare := compare_keyInt x y
  rw [h, Std.ReflOrd.compare_self] at hcompare
  exact Std.compare_eq_iff_eq.mp hcompare.symm

/-- A statement of one tuple that is refused. -/
theorem execInsert_refused {cols : Option (List String)} (hl : Listing table schema names)
    (ha : schema.sequence = some inc.colIdx)
    (hindices : InsertStmt.indices ⟨table, cols, [exprs]⟩ schema = .ok indices)
    (hadmitted : ∃ e, (admitRow noForeignKeys schema indices (some inc) exprs).2 = .error e) :
    ∃ e, (execInsert noForeignKeys ⟨table, cols, [exprs]⟩ (sampleConn table schema inc)).2 = .error e := by
  refine executeStmt_refused (h := openHost) (knows_sample hl.table ha) hindices ?_ 0
  rw [autoIncs_sample schema inc hl.table]
  exact hadmitted

theorem Listing.length_sample (hl : Listing table schema names) :
    ((sampleRow schema names).map readBack).length = names.length := by
  rw [List.length_map]
  exact hl.length_row (isRow_sample hl)

/-- The key takes a default that is no NULL as it takes a given value. -/
theorem Listing.assign_default (hc : schema.columns[a]? = some c)
    (hnamed : a ∉ schema.positions names) (next : Nat) (hne : c.defaultValue.getD .null ≠ .null) :
    ∃ inc', assignAutoInc (some ⟨a, next⟩)
      (insertRow schema names ((sampleRow schema names).map readBack)) =
        .ok (inc', insertRow schema names ((sampleRow schema names).map readBack)) := by
  have hvalue := Listing.getElem?_insertRow hnamed hc ((sampleRow schema names).map readBack)
  have hexplicit : ExplicitRow (some ⟨a, next⟩)
      (insertRow schema names ((sampleRow schema names).map readBack)) := by
    rintro i ⟨⟩
    rw [hvalue]
    exact fun hnull => hne (Option.some.inj hnull)
  rcases assignAutoInc_explicit hexplicit with ⟨-, i, ⟨⟩, hnone⟩ | ⟨hassign, -⟩
  · cases hvalue.symm.trans hnone
  · exact hassign

/-- An `INSERT` refuses a default that is no key. -/
theorem insert_refused (hl : Listing table schema names) (hc : schema.columns[a]? = some c)
    (hnamed : a ∉ schema.positions names) (next : Nat) {e : Error} (hne : c.defaultValue.getD .null ≠ .null)
    (he : c.normalize .null = .error e) :
    ∃ e, (admitRow noForeignKeys schema (some (schema.positions names)) (some ⟨a, next⟩)
      (tupleExprs (sampleRow schema names))).2 = .error e := by
  refine admitRow_refused (hl.buildRow_insert noForeignKeys (hl.length_row (isRow_sample hl)))
    fun inc' row' hassign => Schema.validateRow_refused (e := e) hc ?_
  obtain ⟨inc'', hkept⟩ := Listing.assign_default hc hnamed next hne
  obtain ⟨-, rfl⟩ := Prod.mk.inj (Except.ok.inj (hassign.symm.trans hkept))
  rw [Listing.getElem?_insertRow hnamed hc, Option.getD_some, c.normalize_default, he]

section Keys

variable (hl : Listing table schema names) (hseq : schema.sequence = some a)
  (hc : schema.columns[a]? = some c) (hnamed : a ∉ schema.positions names)
  (hrefuses : ¬ Refuses schema names)

include hl hseq hc hnamed hrefuses

/-- An `INSERT` takes a default for the key. -/
theorem insert_given (next : Nat) {x : Int64} (hne : c.defaultValue.getD .null ≠ .null)
    (hx : c.normalize .null = .ok (.int x)) :
    ∃ inc' stored, admitRow noForeignKeys schema (some (schema.positions names)) (some ⟨a, next⟩)
      (tupleExprs (sampleRow schema names)) = (inc', .ok (1 :: keyInt x, stored)) := by
  obtain ⟨inc', hassign⟩ := Listing.assign_default hc hnamed next hne
  refine ⟨inc', admitRow_sample ⟨a, next⟩ hl hseq hc
    (hl.buildRow_insert noForeignKeys (hl.length_row (isRow_sample hl)))
      (hl.fills hl.length_sample).width.le hassign
      (fun j c' hc' hj => normalize_named hl hseq hrefuses hc' hj (.inr rfl)) ?_⟩
  rw [Listing.getElem?_insertRow hnamed hc, Option.getD_some, c.normalize_default, hx]

theorem insert_asks (next : Nat) (hnext : next ≤ 2 ^ 63 - 1)
    (hdefault : c.defaultValue.getD .null = .null) :
    ∃ inc' stored, admitRow noForeignKeys schema (some (schema.positions names)) (some ⟨a, next⟩)
      (tupleExprs (sampleRow schema names)) = (inc', .ok (1 :: keyInt (Int64.ofNat next), stored)) := by
  have hvalue := Listing.getElem?_insertRow hnamed hc ((sampleRow schema names).map readBack)
  rw [hdefault] at hvalue
  refine ⟨_, admitRow_sample ⟨a, next⟩ hl hseq hc
    (hl.buildRow_insert noForeignKeys (hl.length_row (isRow_sample hl)))
      (hl.fills hl.length_sample).width.le (assign_null hvalue hnext)
      (fun j c' hc' hj => normalize_named hl hseq hrefuses hc' hj (.inr rfl)) ?_⟩
  rw [List.getElem?_set_self (List.getElem?_eq_some_iff.mp hvalue).1, Option.getD_some]
  exact (c.normalize_int (hl.sequence a c hseq hc).2).1 _

/-- A COPY asks the sequence for a key in front of a column that is named. -/
theorem copy_asks (next : Nat) (hnext : next ≤ 2 ^ 63 - 1) (hwidth : a < schema.copyWidth names) :
    ∃ inc' stored, admitRow noForeignKeys schema none (some ⟨a, next⟩)
      (tupleExprs (copyTuple schema names (sampleRow schema names))) =
        (inc', .ok (1 :: keyInt (Int64.ofNat next), stored)) := by
  have hvalue : (copyTuple schema names ((sampleRow schema names).map readBack))[a]? = some .null := by
    rw [Listing.getElem?_copyTuple hnamed, if_pos hwidth]
  refine ⟨_, admitRow_sample ⟨a, next⟩ hl hseq hc
    (Listing.buildRow_copy noForeignKeys schema names (sampleRow schema names))
      (hl.fills hl.length_sample).cut (assign_null hvalue hnext)
      (fun j c' hc' hj => normalize_named hl hseq hrefuses hc' hj (.inl rfl)) ?_⟩
  rw [List.getElem?_set_self (List.getElem?_eq_some_iff.mp hvalue).1, Option.getD_some]
  exact (c.normalize_int (hl.sequence a c hseq hc).2).1 _

end Keys

/-- If a COPY is its `INSERT`, the sequence is asked alike. -/
theorem asksAlike_of_copyIsInsert (hl : Listing table schema names) (h : CopyIsInsert table schema names) :
    AsksAlike schema names := by
  intro a c hseq hc
  by_contra hnot
  rw [not_or, not_or] at hnot
  obtain ⟨hnamed, hrefuses, hdefault⟩ := hnot
  have hindices : InsertStmt.indices (sampleInsert table schema names) schema =
      .ok (some (schema.positions names)) := by
    simp only [InsertStmt.indices, sampleInsert, hl.columnIndices_eq]
    rfl
  by_cases hwidth : a < schema.copyWidth names
  · rw [if_pos hwidth] at hdefault
    -- the COPY does not look at the default
    have hcopied : ∀ next, next ≤ 2 ^ 63 - 1 →
        (∃ n, (execInsert noForeignKeys (sampleCopy table schema names)
          (sampleConn table schema ⟨a, next⟩)).2 = .ok n) ∧
        (sampleKey table, 1 :: keyInt (Int64.ofNat next)) ∈ (execInsert noForeignKeys
          (sampleCopy table schema names)
          (sampleConn table schema ⟨a, next⟩)).1.visible := by
      intro next hnext
      obtain ⟨inc', stored, hcopy⟩ := copy_asks hl hseq hc hnamed hrefuses next hnext hwidth
      obtain ⟨hok, hkeys⟩ := execInsert_one (sampleCopy table schema names) hl hseq rfl rfl rfl hcopy
      exact ⟨hok, (hkeys _).mpr rfl⟩
    cases hnull : c.normalize .null with
    | error e =>
      obtain ⟨n, hn⟩ := (h.one_row ⟨a, 1⟩ hl hseq).1.mp (hcopied 1 (by decide)).1
      obtain ⟨e', he'⟩ := execInsert_refused hl hseq hindices
        (insert_refused hl hc hnamed 1 hdefault hnull)
      cases hn.symm.trans he'
    | ok d =>
      obtain ⟨x, rfl⟩ := (c.normalize_int (hl.sequence a c hseq hc).2).2 _ d hdefault
        (c.normalize_default.trans hnull)
      obtain ⟨next, hnext, hne⟩ : ∃ next : Nat, next ≤ 2 ^ 63 - 1 ∧ Int64.ofNat next ≠ x := by
        by_cases hx : x = 1
        · exact ⟨2, by decide, by rw [hx]; decide⟩
        · exact ⟨1, by decide, Ne.symm hx⟩
      obtain ⟨inc', stored, hinsert⟩ := insert_given hl hseq hc hnamed hrefuses next hdefault hnull
      obtain ⟨hok, hkeys⟩ := execInsert_one (sampleInsert table schema names) hl hseq rfl rfl hindices hinsert
      have hvisible := (h.one_row ⟨a, next⟩ hl hseq).2 hok
      have hmem := (hcopied next hnext).2
      rw [hvisible, hkeys] at hmem
      exact hne (keyInt_inj (List.cons.inj hmem).2)
  · rw [if_neg hwidth] at hdefault
    -- the COPY leaves the key off
    have hinc : ∀ next, seqColumn (some ⟨a, next⟩) = some a := fun _ => rfl
    have hunnamed : InsertStmt.indices
        (sampleCopy table schema names) schema = .ok none := rfl
    obtain ⟨e, he⟩ := execInsert_refused hl hseq hunnamed
      (copy_refused noForeignKeys (sampleRow schema names) (hinc 1) hnamed hwidth)
    have hinserted : ∃ inc' k stored, admitRow noForeignKeys schema (some (schema.positions names))
        (some ⟨a, 1⟩) (tupleExprs (sampleRow schema names)) = (inc', .ok (k, stored)) := by
      by_cases hnone : c.defaultValue.getD .null = .null
      · obtain ⟨inc', stored, hinsert⟩ := insert_asks hl hseq hc hnamed hrefuses 1 (by decide) hnone
        exact ⟨inc', _, stored, hinsert⟩
      · cases hnull : c.normalize .null with
        | error e => exact absurd ⟨hnone, e, hnull⟩ hdefault
        | ok d =>
          obtain ⟨x, rfl⟩ := (c.normalize_int (hl.sequence a c hseq hc).2).2 _ d hnone
            (c.normalize_default.trans hnull)
          obtain ⟨inc', stored, hinsert⟩ := insert_given hl hseq hc hnamed hrefuses 1 hnone hnull
          exact ⟨inc', _, stored, hinsert⟩
    obtain ⟨inc', k, stored, hinsert⟩ := hinserted
    obtain ⟨hok, -⟩ := execInsert_one (sampleInsert table schema names) hl hseq rfl rfl hindices hinsert
    obtain ⟨n, hn⟩ := (h.one_row ⟨a, 1⟩ hl hseq).1.mpr hok
    cases hn.symm.trans he

end Apart

/-- A COPY of named columns is the `INSERT` of them just if the sequence of the table is asked for a
key in both or in neither, or every row is refused. -/
theorem copy_is_insert_iff {table : String} {schema : Schema} {names : List String}
    (hl : Listing table schema names) : CopyIsInsert table schema names ↔ AsksAlike schema names :=
  ⟨asksAlike_of_copyIsInsert hl, copyIsInsert_of_asksAlike hl⟩

/-! ## A key behind the columns -/

/-- `CREATE TABLE t (v INT, id INT PRIMARY KEY AUTO_INCREMENT)`. -/
def tickets : Schema where
  columns := [⟨"v", .int, true, false, none⟩, ⟨"id", .int, false, true, none⟩]
  pkIdx := 1

theorem listing_tickets : Listing "t" tickets ["v"] where
  table := ⟨'t', [], by decide, by decide, by simp⟩
  named := by decide
  distinct := by decide
  columns := by
    intro s hs
    cases List.mem_singleton.mp hs
    exact ⟨⟨'v', [], by decide, by decide, by simp⟩, 0, by decide⟩
  noFloats := by decide
  sequence := by
    rintro a c ha hc
    obtain rfl : 1 = a := Option.some.inj ha
    obtain rfl : ⟨"id", .int, false, true, none⟩ = c := Option.some.inj hc
    exact ⟨rfl, .inl rfl⟩

theorem copy_is_insert_tickets : CopyIsInsert "t" tickets ["v"] ↔ AsksAlike tickets ["v"] :=
  copy_is_insert_iff listing_tickets

/-- `COPY t (v)` finds no place for the key that `INSERT INTO t (v)` generates. -/
theorem copy_is_not_insert : ¬ CopyIsInsert "t" tickets ["v"] := by
  intro h
  have hpositions : tickets.positions ["v"] = [0] := by decide
  rcases asksAlike_of_copyIsInsert listing_tickets h 1 ⟨"id", .int, false, true, none⟩ rfl rfl with
    hnamed | ⟨j, c, e, hc, hj, hseq, he⟩ | hdefault
  · rw [hpositions] at hnamed
    exact absurd hnamed (by decide)
  · rw [hpositions] at hj
    match j with
    | 0 => exact hj List.mem_cons_self
    | 1 => exact hseq rfl
    | j + 2 => cases hc
  · rw [if_neg (by decide)] at hdefault
    exact hdefault.1 rfl

end HenchDB
