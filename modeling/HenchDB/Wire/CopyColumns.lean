import HenchDB.Session.Alike
import HenchDB.Wire.CopyRun

/-!
# The columns of a COPY

A COPY lays its values out by position.  A column that is not named gets `NULL` if
it stands in front of one that is, and is left off if it stands behind them all; its
`INSERT` names no columns.  An `INSERT` of the same columns fills the others with their
defaults.  A row of the one is the row of the other but for these values
(`Listing.fills`).

A COPY of rows of values is its statements in a transaction (`copyRows_eq`).
-/

namespace HenchDB

open Session Outcome

/-! ## Values at positions -/

def spread (positions : List Nat) (vals : List Datum) (base : Session.Row) : Session.Row :=
  (positions.zip vals).foldl (fun row p => row.set p.1 p.2) base

section Spread

variable {ps : List Nat} {vals : List Datum} {base : Session.Row} {j : Nat}

theorem spread_cons (p : Nat) (ps : List Nat) (v : Datum) (vals : List Datum) (base : Session.Row) :
    spread (p :: ps) (v :: vals) base = spread ps vals (base.set p v) := rfl

@[simp]
theorem length_spread : ∀ {ps : List Nat} {vals : List Datum} {base : Session.Row},
    (spread ps vals base).length = base.length
  | [], _, _ => rfl
  | _ :: _, [], _ => rfl
  | p :: ps, v :: vals, base => by rw [spread_cons, length_spread, List.length_set]

theorem spread_map (f : Datum → Datum) : ∀ {ps : List Nat} {vals : List Datum} {base : Session.Row},
    (spread ps vals base).map f = spread ps (vals.map f) (base.map f)
  | [], _, _ => rfl
  | _ :: _, [], _ => rfl
  | p :: ps, v :: vals, base => by
    rw [List.map_cons, spread_cons, spread_cons, spread_map f, List.map_set]

/-- Another position keeps its value. -/
theorem getElem?_spread_of_not_mem : ∀ {ps : List Nat} {vals : List Datum} {base : Session.Row}, j ∉ ps →
    (spread ps vals base)[j]? = base[j]?
  | [], _, _, _ => rfl
  | _ :: _, [], _, _ => rfl
  | p :: ps, v :: vals, base, hj => by
    rw [List.mem_cons, not_or] at hj
    rw [spread_cons, getElem?_spread_of_not_mem hj.2, List.getElem?_set_ne (Ne.symm hj.1)]

/-- A position that is given a value has it, whatever was there. -/
theorem getElem?_spread_of_mem : ∀ {ps : List Nat} {vals : List Datum}, ps.length = vals.length → j ∈ ps →
    ∃ d, (j, d) ∈ ps.zip vals ∧
      ∀ base : Session.Row, j < base.length → (spread ps vals base)[j]? = some d
  | p :: ps, v :: vals, hlen, hj => by
    by_cases hmem : j ∈ ps
    · obtain ⟨d, hd, hbase⟩ := getElem?_spread_of_mem (Nat.succ.inj hlen) hmem
      exact ⟨d, List.mem_cons_of_mem _ hd, fun base hlt => hbase _ (by simpa using hlt)⟩
    · obtain rfl := (List.mem_cons.mp hj).resolve_right hmem
      refine ⟨v, List.mem_cons_self, fun base hlt => ?_⟩
      rw [spread_cons, getElem?_spread_of_not_mem hmem, List.getElem?_set_self hlt]

end Spread

/-! ## Columns that are named -/

/-- The columns as `describe` tells them. -/
def Schema.described (schema : Schema) : List (String × ColumnType) :=
  schema.columns.map fun c => (c.name, c.ctype)

def Schema.positions (schema : Schema) (names : List String) : List Nat := names.filterMap schema.indexOf

/-- How many values a tuple of a COPY has. -/
def Schema.copyWidth (schema : Schema) (names : List String) : Nat :=
  (schema.positions names).foldl max 0 + 1

def Schema.targets (schema : Schema) (names : List String) : List (Nat × ColumnType) :=
  (schema.positions names).map fun p => (p, (schema.columns[p]?.map ColumnDef.ctype).getD .text)

/-- A table as `CREATE TABLE` accepts it, without floats, and names of columns of it. -/
structure Listing (table : String) (schema : Schema) (names : List String) : Prop where
  table : IsName table
  named : names ≠ []
  distinct : names.Nodup
  columns : ∀ s ∈ names, IsName s ∧ ∃ p, schema.indexOf s = some p
  noFloats : ∀ c ∈ schema.columns, c.ctype ≠ .float ∧ c.ctype ≠ .double
  sequence : ∀ a c, schema.sequence = some a → schema.columns[a]? = some c →
    a = schema.pkIdx ∧ (c.ctype = .int ∨ c.ctype = .bigInt)

/-- The values that a field of a COPY may have. -/
def ColumnType.reads : ColumnType → Datum → Bool
  | .int, d | .bigInt, d =>
    match d with
    | .int _ | .null => true
    | _ => false
  | .float, d | .double, d =>
    match d with
    | .float _ | .null => true
    | _ => false
  | .text, d | .varChar, d =>
    match d with
    | .text _ | .null => true
    | _ => false
  | .bool, d =>
    match d with
    | .bool _ | .null => true
    | _ => false
  | .dateTime, d | .timestamp, d =>
    match d with
    | .dateTime _ | .null => true
    | _ => false

/-- Values for the targets of a COPY. -/
def IsRow (schema : Schema) (names : List String) (row : List Datum) : Prop :=
  List.Forall₂ (fun t d => ColumnType.reads t.2 d = true) (schema.targets names) row

def copyTuple (schema : Schema) (names : List String) (row : List Datum) : List Datum :=
  spread (schema.positions names) row (List.replicate (schema.copyWidth names) .null)

/-- The row that an `INSERT` of the columns makes of it. -/
def insertRow (schema : Schema) (names : List String) (row : List Datum) : Session.Row :=
  spread (schema.positions names) row (schema.columns.map fun c => c.defaultValue.getD .null)

/-- Values as expressions of a statement. -/
def tupleExprs (row : List Datum) : List Expr := row.map fun d => .literal (readBack d)

namespace Listing

variable {table : String} {schema : Schema} {names : List String} {row : List Datum}

theorem length_positions (h : Listing table schema names) :
    (schema.positions names).length = names.length := by
  have hall : ∀ {names : List String}, (∀ s ∈ names, ∃ p, schema.indexOf s = some p) →
      (schema.positions names).length = names.length := by
    intro names
    induction names with
    | nil => exact fun _ => rfl
    | cons s names ih =>
      intro hs
      obtain ⟨p, hp⟩ := hs s List.mem_cons_self
      rw [Schema.positions, List.filterMap_cons_some hp, List.length_cons, List.length_cons]
      exact congrArg (· + 1) (ih fun s hmem => hs s (List.mem_cons_of_mem _ hmem))
  exact hall fun s hs => (h.columns s hs).2

theorem lt_of_mem_positions {p : Nat} (hp : p ∈ schema.positions names) : p < schema.columns.length := by
  obtain ⟨s, -, hs⟩ := List.mem_filterMap.mp hp
  exact (List.findIdx?_eq_some_iff_findIdx_eq.mp hs).1

theorem le_foldl_max : ∀ (ps : List Nat) (m : Nat), m ≤ ps.foldl max m ∧ ∀ p ∈ ps, p ≤ ps.foldl max m
  | [], m => ⟨le_rfl, by simp⟩
  | p :: ps, m => by
    obtain ⟨hm, hps⟩ := le_foldl_max ps (max m p)
    refine ⟨(le_max_left m p).trans hm, fun q hq => ?_⟩
    rcases List.mem_cons.mp hq with rfl | hq
    · exact (le_max_right m q).trans hm
    · exact hps q hq

theorem foldl_max_lt {n : Nat} : ∀ (ps : List Nat) {m : Nat}, m < n → (∀ p ∈ ps, p < n) → ps.foldl max m < n
  | [], _, hm, _ => hm
  | p :: ps, _, hm, hps =>
    foldl_max_lt ps (max_lt hm (hps p List.mem_cons_self)) fun q hq => hps q (List.mem_cons_of_mem _ hq)

theorem lt_copyWidth {p : Nat} (hp : p ∈ schema.positions names) : p < schema.copyWidth names :=
  Nat.lt_succ_of_le ((le_foldl_max _ 0).2 p hp)

theorem copyWidth_le (h : Listing table schema names) : schema.copyWidth names ≤ schema.columns.length := by
  obtain ⟨p, hp⟩ := List.exists_mem_of_length_pos (l := schema.positions names) (by
    rw [h.length_positions]
    exact List.length_pos_iff.mpr h.named)
  exact foldl_max_lt _ (Nat.zero_lt_of_lt (lt_of_mem_positions hp)) fun q hq => lt_of_mem_positions hq

theorem getElem?_copyTuple {j : Nat} (hj : j ∉ schema.positions names) (vals : List Datum) :
    (copyTuple schema names vals)[j]? = if j < schema.copyWidth names then some .null else none := by
  rw [copyTuple, getElem?_spread_of_not_mem hj, List.getElem?_replicate]

/-- A row of an `INSERT` in a column that is not named. -/
theorem getElem?_insertRow {j : Nat} {c : ColumnDef} (hj : j ∉ schema.positions names)
    (hc : schema.columns[j]? = some c) (vals : List Datum) :
    (insertRow schema names vals)[j]? = some (c.defaultValue.getD .null) := by
  rw [insertRow, getElem?_spread_of_not_mem hj, List.getElem?_map, hc, Option.map_some]

theorem getElem?_named (h : Listing table schema names) {j : Nat} (hj : j ∈ schema.positions names)
    {vals : List Datum} (hlen : vals.length = names.length) :
    ∃ d, (j, d) ∈ (schema.positions names).zip vals ∧ (copyTuple schema names vals)[j]? = some d ∧
      (insertRow schema names vals)[j]? = some d := by
  obtain ⟨d, hd, hbase⟩ := getElem?_spread_of_mem (h.length_positions.trans hlen.symm) hj
  refine ⟨d, hd, hbase _ ?_, hbase _ ?_⟩
  · rw [List.length_replicate]
    exact lt_copyWidth hj
  · rw [List.length_map]
    exact lt_of_mem_positions hj

theorem fills (h : Listing table schema names) {vals : List Datum} (hlen : vals.length = names.length) :
    Fills schema (copyTuple schema names vals) (insertRow schema names vals) where
  cut := by
    rw [copyTuple, length_spread, List.length_replicate]
    exact h.copyWidth_le
  width := by rw [insertRow, length_spread, List.length_map]
  column := fun j c hc => by
    by_cases hj : j ∈ schema.positions names
    · obtain ⟨d, -, hcopy, hinsert⟩ := h.getElem?_named hj hlen
      exact .inl (hcopy.trans hinsert.symm)
    · rw [getElem?_copyTuple hj, getElem?_insertRow hj hc]
      refine .inr ⟨?_, rfl⟩
      by_cases hwidth : j < schema.copyWidth names
      · exact .inr (if_pos hwidth)
      · exact .inl (if_neg hwidth)

theorem buildRow_copy (ctx : Context) (schema : Schema) (names : List String) (row : List Datum) :
    buildRow ctx schema none (tupleExprs (copyTuple schema names row)) =
      .ok (copyTuple schema names (row.map readBack)) := by
  have hall : ∀ vals : List Datum, (tupleExprs vals).mapM (literalOf ctx) = .ok (vals.map readBack) := by
    intro vals
    induction vals with
    | nil => rfl
    | cons d vals ih =>
      rw [tupleExprs] at ih
      rw [tupleExprs, List.map_cons, List.mapM_cons, ih]
      rfl
  have hpadded : (List.replicate (schema.copyWidth names) Datum.null).map readBack =
      List.replicate (schema.copyWidth names) .null := List.map_replicate
  rw [buildRow, hall, copyTuple, copyTuple, spread_map, hpadded]

/-- The row of a tuple of an `INSERT`. -/
theorem buildRow_insert (h : Listing table schema names) (ctx : Context)
    (hlen : row.length = names.length) :
    buildRow ctx schema (some (schema.positions names)) (tupleExprs row) =
      .ok (insertRow schema names (row.map readBack)) := by
  have hall : ∀ (ps : List Nat) (vals : List Datum) (base : Session.Row),
      (ps.zip (tupleExprs vals)).foldlM
        (fun row p => do return row.set p.1 (← literalOf ctx p.2)) base =
          .ok (spread ps (vals.map readBack) base) := by
    intro ps
    induction ps with
    | nil => exact fun _ _ => rfl
    | cons p ps ih =>
      intro vals base
      cases vals with
      | nil => rfl
      | cons d vals => exact ih vals _
  have hcount : (tupleExprs row).length = (schema.positions names).length := by
    rw [tupleExprs, List.length_map, hlen, h.length_positions]
  rw [buildRow]
  simp only
  rw [if_neg (not_not_intro hcount), hall]
  rfl

/-- `INSERT` finds the columns. -/
theorem columnIndices_eq (h : Listing table schema names) :
    columnIndices schema table [] names = .ok (schema.positions names) := by
  have hall : ∀ {names seen : List String}, names.Nodup → (∀ s ∈ names, s ∉ seen) →
      (∀ s ∈ names, ∃ p, schema.indexOf s = some p) →
        columnIndices schema table seen names = .ok (schema.positions names) := by
    intro names
    induction names with
    | nil => exact fun _ _ _ => rfl
    | cons s names ih =>
      intro seen hdistinct hseen hfound
      obtain ⟨hs, hdistinct⟩ := List.nodup_cons.mp hdistinct
      obtain ⟨p, hp⟩ := hfound s List.mem_cons_self
      have hrest := @ih (s :: seen) hdistinct (fun s' hs' => ?_) fun s' hs' =>
        hfound s' (List.mem_cons_of_mem _ hs')
      · rw [columnIndices, if_neg (hseen s List.mem_cons_self), hp]
        simp only [hrest, Schema.positions, List.filterMap_cons_some hp]
        rfl
      · rw [List.mem_cons, not_or]
        exact ⟨fun heq => hs (heq ▸ hs'), hseen s' (List.mem_cons_of_mem _ hs')⟩
  exact hall h.distinct (by simp) fun s hs => (h.columns s hs).2

/-- A name of letters is not in quotes. -/
theorem bareName_eq {s : String} (hs : IsName s) : bareName s = s := by
  obtain ⟨c, word, hlist, hc, hword⟩ := hs
  have hquote : ∀ d ∈ s.toList, d ≠ '"' := by
    intro d hd
    rw [hlist] at hd
    rintro rfl
    rcases List.mem_cons.mp hd with rfl | hd
    · rcases hc with hc | hc <;> exact absurd hc (by decide)
    · exact absurd (hword _ hd) (by decide)
  have hdrop : ∀ {cs : List Char}, (∀ d ∈ cs, d ≠ '"') → cs.dropWhile (· = '"') = cs := by
    intro cs hcs
    cases cs with
    | nil => rfl
    | cons d cs => rw [List.dropWhile_cons, if_neg (by simpa using hcs d List.mem_cons_self)]
  have hundouble : ∀ {cs : List Char}, (∀ d ∈ cs, d ≠ '"') → undouble cs = cs := by
    intro cs hcs
    induction cs with
    | nil => rfl
    | cons d cs ih =>
      rw [undouble, ih fun e he => hcs e (List.mem_cons_of_mem _ he)]
      rintro _ rfl -
      exact hcs '"' List.mem_cons_self rfl
  rw [bareName]
  simp only [hdrop hquote]
  rw [hdrop fun d hd => hquote d (List.mem_reverse.mp hd), List.reverse_reverse, hundouble hquote,
    String.ofList_toList]

theorem copyTargets_eq (h : Listing table schema names) :
    copyTargets table names schema.described = .ok (schema.targets names) := by
  have hall : ∀ {names : List String}, (∀ s ∈ names, IsName s ∧ ∃ p, schema.indexOf s = some p) →
      names.mapM (copyTarget schema.described) = .ok (schema.targets names) := by
    intro names
    induction names with
    | nil => exact fun _ => rfl
    | cons s names ih =>
      intro hs
      obtain ⟨hname, p, hp⟩ := hs s List.mem_cons_self
      have hfound : schema.described.findIdx? (fun c => c.1 = s || c.1 = bareName s) = some p := by
        rw [Schema.indexOf] at hp
        rw [bareName_eq hname, Schema.described, List.findIdx?_map]
        simpa [Function.comp_def] using hp
      have htarget : copyTarget schema.described s =
          .ok (p, (schema.columns[p]?.map ColumnDef.ctype).getD .text) := by
        rw [copyTarget, hfound]
        simp only [Schema.described, List.getElem?_map, Option.map_map]
        rfl
      rw [List.mapM_cons, htarget, ih fun s' hs' => hs s' (List.mem_cons_of_mem _ hs')]
      simp only [Schema.targets, Schema.positions, List.filterMap_cons_some hp, List.map_cons]
      rfl
  have hdescribed : schema.described ≠ [] := by
    obtain ⟨s, hs⟩ := List.exists_mem_of_ne_nil names h.named
    obtain ⟨-, p, hp⟩ := h.columns s hs
    intro hnil
    have hlt : p < schema.columns.length := (List.findIdx?_eq_some_iff_findIdx_eq.mp hp).1
    rw [List.map_eq_nil_iff.mp hnil] at hlt
    exact Nat.not_lt_zero _ hlt
  rw [copyTargets, if_neg (by simpa using hdescribed), if_neg (by simpa using h.named)]
  exact hall h.columns

end Listing

/-! ## The two runs -/

def copyRows (h : CopyHost) (spec : CopySpec) (schema : Schema) (names : List String)
    (rows : List (List Datum)) (c : Conn) : Conn × Except CopyError Nat :=
  match CopyRun.start (.ok schema.described) spec names c with
  | .error e => (c, .error e)
  | .ok (run, c) =>
    CopyRun.finish h { run with runner := rows.foldl (CopyRunner.pushDatums h.txt) run.runner } c

/-- The text of an `INSERT` of the columns. -/
def insertChunk (h : CopyHost) (table : String) (names : List String) (chunk : List (List Datum)) :
    List Char :=
  insertText table (some names) (chunk.map (tupleText h.txt.float))

/-- The `INSERT` statements of the rows, with as many rows as those of the COPY. -/
def insertStatements (h : CopyHost) (table : String) (names : List String) (rows : List (List Datum)) :
    List (List Char) :=
  (rows.toChunks CopyRunner.insertChunkRows).map (insertChunk h table names)

/-- Statements in a transaction, which is opened for them if there is none. -/
def insertInTxn (h : CopyHost) (sqls : List (List Char)) (c : Conn) : Conn × Except StmtError Unit :=
  if c.inTransaction then CopyRun.insertAll h 0 sqls c
  else
    match c.beginTxn with
    | .error e => (c, .error e)
    | .ok c =>
      match CopyRun.insertAll h 0 sqls c with
      | (c, .error e) => (c.rollback, .error e)
      | (c, .ok _) =>
        match c.commit h.fault with
        | (c, .error e) => (c.rollback, .error e)
        | (c, .ok _) => (c, .ok ())

def copyChunk (h : CopyHost) (table : String) (schema : Schema) (names : List String)
    (chunk : List (List Datum)) : List Char :=
  insertText table none (chunk.map fun row => tupleText h.txt.float (copyTuple schema names row))

def copyStatements (h : CopyHost) (table : String) (schema : Schema) (names : List String)
    (rows : List (List Datum)) : List (List Char) :=
  (rows.toChunks CopyRunner.insertChunkRows).map (copyChunk h table schema names)

section Runs

variable {h : CopyHost} {table : String} {schema : Schema} {names : List String} {c : Conn}

theorem foldl_pushDatums (txt : CopyText) : ∀ (rows : List (List Datum)) (r : CopyRunner),
    rows.foldl (CopyRunner.pushDatums txt) r =
      { r with
        tuples := r.tuples ++ rows.map fun row => tupleText txt.float
          (spread (r.targets.map Prod.fst) row
            (List.replicate ((r.targets.map Prod.fst).foldl max 0 + 1) .null))
        rowCount := r.rowCount + rows.length }
  | [], r => by simp
  | row :: rows, r => by
    have hspread : ∀ base : Session.Row, spread (r.targets.map Prod.fst) row base =
        (r.targets.zip row).foldl (fun row p => row.set p.1.1 p.2) base := by
      intro base
      rw [spread, List.zip_map_left, List.foldl_map]
      rfl
    have hrow : r.pushDatums txt row =
        { r with
          tuples := r.tuples ++ [tupleText txt.float (spread (r.targets.map Prod.fst) row
            (List.replicate ((r.targets.map Prod.fst).foldl max 0 + 1) .null))]
          rowCount := r.rowCount + 1 } := by
      rw [hspread]
      rfl
    rw [List.foldl_cons, foldl_pushDatums txt rows, hrow]
    simp only [List.map_cons, List.append_assoc, List.singleton_append, List.length_cons]
    rw [Nat.add_assoc, Nat.add_comm 1]

/-- Nothing is left in a runner that has taken rows of values. -/
theorem finishRows_idle (txt : CopyText) {r : CopyRunner} (htext : r.textBuf = []) (hcsv : r.csv = .empty) :
    r.finishRows txt = .ok r := by
  rw [CopyRunner.finishRows]
  split
  · rw [hcsv]
    rfl
  · rw [if_pos htext]

theorem targets_fst (schema : Schema) (names : List String) :
    (schema.targets names).map Prod.fst = schema.positions names := by
  rw [Schema.targets, List.map_map]
  exact List.map_id _

theorem inserts_copy (h : CopyHost) (spec : CopySpec) (schema : Schema) (names : List String)
    (rows : List (List Datum)) (k : Nat) :
    CopyRunner.inserts ⟨spec, schema.targets names, rows.map fun row => tupleText h.txt.float
      (spread (schema.positions names) row
        (List.replicate ((schema.positions names).foldl max 0 + 1) .null)), [], .empty, k, false⟩ =
          copyStatements h spec.table schema names rows := by
  rw [inserts_eq, Chunks.toChunks_map (by decide), List.map_map]
  rfl

theorem copyRows_eq (hl : Listing table schema names) (spec : CopySpec) (hspec : spec.table = table)
    (rows : List (List Datum)) :
    ((∃ n, (copyRows h spec schema names rows c).2 = .ok n) ↔
      (insertInTxn h (copyStatements h table schema names rows) c).2 = .ok ()) ∧
    ((insertInTxn h (copyStatements h table schema names rows) c).2 = .ok () →
      (copyRows h spec schema names rows c).1 =
        (insertInTxn h (copyStatements h table schema names rows) c).1) := by
  have hrunner : rows.foldl (CopyRunner.pushDatums h.txt) (.start spec (schema.targets names)) =
      ⟨spec, schema.targets names, rows.map fun row => tupleText h.txt.float
        (spread (schema.positions names) row
          (List.replicate ((schema.positions names).foldl max 0 + 1) .null)), [], .empty,
            0 + rows.length, false⟩ := by
    rw [foldl_pushDatums, CopyRunner.start, targets_fst]
    rfl
  have hinserts := inserts_copy h spec schema names rows (0 + rows.length)
  rw [hspec] at hinserts
  rw [← hinserts, copyRows, insertInTxn, CopyRun.start, hspec, Except.mapError]
  simp only [bind, Except.bind, hl.copyTargets_eq, Except.mapError]
  cases htxn : c.txn with
  | some t =>
    rw [if_pos (by rw [Conn.inTransaction, htxn]; rfl), if_pos (by rw [Conn.inTransaction, htxn]; rfl)]
    simp only [pure, Except.pure, hrunner, CopyRun.finish, CopyRun.finishInner]
    rw [finishRows_idle h.txt rfl rfl]
    simp only [CopyRun.insertAndCommit]
    rcases CopyRun.insertAll h 0 _ c with ⟨after, e | _⟩
    · simp
    · simp
  | none =>
    have hbegin : c.beginTxn = .ok { c with txn := some ∅ } := by
      rw [Conn.beginTxn]
      split
      · next heq => cases htxn.symm.trans heq
      · rfl
    rw [if_neg (by rw [Conn.inTransaction, htxn]; simp), if_neg (by rw [Conn.inTransaction, htxn]; simp),
      hbegin]
    simp only [pure, Except.pure, hrunner, CopyRun.finish, CopyRun.finishInner]
    rw [finishRows_idle h.txt rfl rfl]
    simp only [CopyRun.insertAndCommit, if_true]
    rcases CopyRun.insertAll h 0 _ _ with ⟨after, e | _⟩
    · simp
    · simp only
      rcases after.commit h.fault with ⟨done, e | _⟩
      · simp
      · simp

end Runs

end HenchDB
