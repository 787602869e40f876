import HenchDB.Session.Insert
import HenchDB.Session.Rerun

/-!
# Tuples that are stored alike

A row is brought to the width of its table after the sequence has been asked: a value
that is `NULL` and a value that is left off both become the default.  So a row and the
same row with its defaults filled in are stored alike (`Fills.validateRow`), if the
sequence finds the same value in both (`Fills.assign`), and statements whose tuples
become such rows are carried out alike (`insertTuples_congr`).
-/

namespace HenchDB

open Session
open Std (ExtTreeMap)

/-! ## Rows that are stored alike -/

namespace Schema

variable {schema : Schema} {row : List Datum} {c : ColumnDef} {j : Nat}

theorem length_fillDefaults (h : row.length ≤ schema.columns.length) :
    (schema.fillDefaults row).length = schema.columns.length := by
  rw [fillDefaults, List.length_append, List.length_map, List.length_drop]
  omega

theorem getElem?_fillDefaults (hc : schema.columns[j]? = some c) :
    (schema.fillDefaults row)[j]? = some (row[j]?.getD (c.defaultValue.getD .null)) := by
  rw [fillDefaults, List.getElem?_append]
  split
  · next hj => rw [List.getElem?_eq_getElem hj, Option.getD_some]
  · next hj =>
    rw [List.getElem?_map, List.getElem?_drop, Nat.add_sub_of_le (Nat.not_lt.mp hj), hc,
      List.getElem?_eq_none (Nat.not_lt.mp hj), Option.map_some, Option.getD_none]

theorem normalizeRow_congr : ∀ {cols : List ColumnDef} {xs ys : List Datum}, xs.length = ys.length →
    (∀ (j : Nat) c x y, cols[j]? = some c → xs[j]? = some x → ys[j]? = some y →
      c.normalize x = c.normalize y) →
    normalizeRow cols xs = normalizeRow cols ys
  | [], _, _, _, _ => rfl
  | _ :: _, [], [], _, _ => rfl
  | c :: cs, x :: xs, y :: ys, hlen, h => by
    have hhead := h 0 c x y rfl rfl rfl
    have htail := normalizeRow_congr (Nat.succ.inj hlen) fun j => h (j + 1)
    rw [normalizeRow, normalizeRow, hhead, htail]

end Schema

/-- `NULL` becomes the default in any case. -/
theorem ColumnDef.normalize_default (c : ColumnDef) :
    c.normalize (c.defaultValue.getD .null) = c.normalize .null := by
  cases hdefault : c.defaultValue with
  | none => rfl
  | some v =>
    by_cases hv : v = .null
    · rw [hv, Option.getD_some]
    · rw [Option.getD_some, normalize_of_ne_null hv, normalize, hdefault]

theorem Schema.validateRow_refused {schema : Schema} {row : List Datum} {c : ColumnDef} {j : Nat}
    {e : Error} (hc : schema.columns[j]? = some c)
    (he : c.normalize (row[j]?.getD (c.defaultValue.getD .null)) = .error e) :
    ∃ e, schema.validateRow row = .error e := by
  cases hvalid : schema.validateRow row with
  | error e => exact ⟨e, rfl⟩
  | ok row' =>
    obtain ⟨hwidth, hcolumn⟩ := validateRow_spec hvalid
    have hj : j < row'.length := hwidth ▸ (List.getElem?_eq_some_iff.mp hc).1
    have hok := hcolumn j c _ _ hc (getElem?_fillDefaults hc) (List.getElem?_eq_getElem hj)
    exact nomatch he.symm.trans hok

/-- A row is another one but for values that are `NULL` or left off, where that one has
the defaults. -/
structure Fills (schema : Schema) (short full : Session.Row) : Prop where
  cut : short.length ≤ schema.columns.length
  width : full.length = schema.columns.length
  column : ∀ (j : Nat) c, schema.columns[j]? = some c → short[j]? = full[j]? ∨
    (short[j]? = none ∨ short[j]? = some .null) ∧ full[j]? = some (c.defaultValue.getD .null)

namespace Fills

variable {schema : Schema} {short full : Session.Row}

/-- The two rows are checked alike. -/
theorem validateRow (h : Fills schema short full) :
    schema.validateRow short = schema.validateRow full := by
  have hcolumns : Schema.normalizeRow schema.columns (schema.fillDefaults short) =
      Schema.normalizeRow schema.columns (schema.fillDefaults full) := by
    refine Schema.normalizeRow_congr ?_ fun j c x y hc hx hy => ?_
    · rw [Schema.length_fillDefaults h.cut, Schema.length_fillDefaults h.width.le]
    · rw [Schema.getElem?_fillDefaults hc] at hx hy
      cases hx
      cases hy
      rcases h.column j c hc with hsame | ⟨hshort | hshort, hfull⟩
      · rw [hsame]
      · rw [hshort, hfull, Option.getD_none, Option.getD_some]
      · rw [hshort, hfull, Option.getD_some, Option.getD_some, c.normalize_default]
  simp only [Schema.validateRow, Schema.length_fillDefaults h.cut, Schema.length_fillDefaults h.width.le,
    hcolumns]

/-- A value that is put into both rows. -/
theorem set (h : Fills schema short full) {i : Nat} (hi : i < short.length) (d : Datum) :
    Fills schema (short.set i d) (full.set i d) where
  cut := by
    rw [List.length_set]
    exact h.cut
  width := by
    rw [List.length_set]
    exact h.width
  column := fun j c hc => by
    by_cases hj : i = j
    · subst hj
      have hi' : i < full.length := hi.trans_le (h.cut.trans h.width.ge)
      exact .inl (by rw [List.getElem?_set_self hi, List.getElem?_set_self hi'])
    · rw [List.getElem?_set_ne hj, List.getElem?_set_ne hj]
      exact h.column j c hc

/-- A sequence that finds the same value does the same. -/
theorem assign {inc : Option AutoIncState} (h : Fills schema short full)
    (hsame : ∀ a, seqColumn inc = some a → short[a]? = full[a]?) :
    (∃ e, assignAutoInc inc short = .error e ∧ assignAutoInc inc full = .error e) ∨
    ∃ inc' short' full', assignAutoInc inc short = .ok (inc', short') ∧
      assignAutoInc inc full = .ok (inc', full') ∧ Fills schema short' full' := by
  cases inc with
  | none => exact .inr ⟨none, short, full, rfl, rfl, h⟩
  | some st =>
    have hvalue := hsame st.colIdx rfl
    have hkept : ∀ st', st.assign short = .ok (st', short) → st.assign full = .ok (st', full) →
        ∃ inc' short' full', assignAutoInc (some st) short = .ok (inc', short') ∧
          assignAutoInc (some st) full = .ok (inc', full') ∧ Fills schema short' full' := by
      intro st' hshort hfull
      exact ⟨some st', short, full, by rw [assignAutoInc, hshort]; rfl,
        by rw [assignAutoInc, hfull]; rfl, h⟩
    cases hd : full[st.colIdx]? with
    | none =>
      refine .inl ⟨.err (.corrupted "auto-inc column out of range"), ?_, ?_⟩
      · simp [assignAutoInc, AutoIncState.assign, hvalue, hd, Except.mapError, Except.map]
      · simp [assignAutoInc, AutoIncState.assign, hd, Except.mapError, Except.map]
    | some d =>
      rw [hd] at hvalue
      cases d with
      | null =>
        by_cases hnext : st.next > 2 ^ 63 - 1
        · refine .inl ⟨.err (.notSupported "auto-increment exhausted"), ?_, ?_⟩
          · simp only [assignAutoInc, AutoIncState.assign, hvalue, if_pos hnext]
            rfl
          · simp only [assignAutoInc, AutoIncState.assign, hd, if_pos hnext]
            rfl
        · have hi : st.colIdx < short.length := (List.getElem?_eq_some_iff.mp hvalue).1
          refine .inr ⟨some { st with next := st.next + 1 },
            short.set st.colIdx (.int (Int64.ofNat st.next)),
            full.set st.colIdx (.int (Int64.ofNat st.next)), ?_, ?_, h.set hi _⟩
          · simp only [assignAutoInc, AutoIncState.assign, hvalue, if_neg hnext]
            rfl
          · simp only [assignAutoInc, AutoIncState.assign, hd, if_neg hnext]
            rfl
      | int v =>
        by_cases hv : 0 ≤ v.toInt ∧ st.next ≤ v.toInt.toNat
        · exact .inr (hkept { st with next := Nat.min (v.toInt.toNat + 1) Table.u64Max }
            (by simp only [AutoIncState.assign, hvalue, if_pos hv])
            (by simp only [AutoIncState.assign, hd, if_pos hv]))
        · exact .inr (hkept st (by simp only [AutoIncState.assign, hvalue, if_neg hv])
            (by simp only [AutoIncState.assign, hd, if_neg hv]))
      | float v | text v | bool v | dateTime v =>
        exact .inr (hkept st (by simp only [AutoIncState.assign, hvalue])
          (by simp only [AutoIncState.assign, hd]))

end Fills

/-! ## Statements that are carried out alike -/

/-- The position of the `AUTO_INCREMENT` column. -/
def Schema.sequence (schema : Schema) : Option Nat := schema.columns.findIdx? ColumnDef.autoIncrement

namespace Session

section Congr

variable {ctx : Context} {schema : Schema} {is is' : Option (List Nat)} {text table : String} {rows : Rows}
  {s : Option Nat}

/-- A tuple keeps the column of the sequence. -/
theorem seqColumn_admitRow (inc : Option AutoIncState) (exprs : List Expr) :
    seqColumn (admitRow ctx schema is inc exprs).1 = seqColumn inc := by
  rw [admitRow]
  split
  · rfl
  · split
    · rfl
    · next hassign => exact seqColumn_assignAutoInc hassign

theorem seqColumn_insertTuples : ∀ (tuples : List (List Expr)) (inc : Option AutoIncState)
    (staged : Staged), seqColumn (insertTuples ctx schema is text table rows inc tuples staged).1 =
      seqColumn inc
  | [], _, _ => rfl
  | exprs :: rest, inc, staged => by
    have hcol : seqColumn (admitRow ctx schema is inc exprs).1 = seqColumn inc := seqColumn_admitRow inc exprs
    rw [insertTuples]
    split
    · next hadmitted =>
      rw [hadmitted] at hcol
      exact hcol
    · next hadmitted =>
      rw [hadmitted] at hcol
      split
      · exact hcol
      · exact (seqColumn_insertTuples rest _ _).trans hcol

theorem assignAutoInc_keeps {inc inc' : Option AutoIncState} {row row' : Row}
    (h : assignAutoInc inc row = .ok (inc', row')) :
    row'.length = row.length ∧ ∀ j, seqColumn inc ≠ some j → row'[j]? = row[j]? := by
  cases inc with
  | none =>
    cases h
    exact ⟨rfl, fun _ _ => rfl⟩
  | some st =>
    have hassign : ∀ {st' row'}, st.assign row = .ok (st', row') → row' = row ∨
        ∃ d, row' = row.set st.colIdx d := by
      intro st' row' hst
      rw [AutoIncState.assign] at hst
      split at hst
      · cases hst
      · split at hst
        · cases hst
        · cases hst
          exact .inr ⟨_, rfl⟩
      · split at hst
        · cases hst
          exact .inl rfl
        · cases hst
          exact .inl rfl
      · cases hst
        exact .inl rfl
    rw [assignAutoInc] at h
    cases hst : st.assign row with
    | error e =>
      rw [hst] at h
      cases h
    | ok p =>
      rw [hst] at h
      cases h
      rcases hassign hst with hrow | ⟨d, hrow⟩
      · rw [hrow]
        exact ⟨rfl, fun _ _ => rfl⟩
      · rw [hrow]
        refine ⟨List.length_set, fun j hj => List.getElem?_set_ne fun heq => hj ?_⟩
        rw [← heq]
        rfl

theorem admitRow_congr {inc : Option AutoIncState} {exprs exprs' : List Expr} {short full : Row}
    (hshort : buildRow ctx schema is exprs = .ok short) (hfull : buildRow ctx schema is' exprs' = .ok full)
    (hfills : Fills schema short full) (hsame : ∀ a, seqColumn inc = some a → short[a]? = full[a]?) :
    admitRow ctx schema is inc exprs = admitRow ctx schema is' inc exprs' := by
  rw [admitRow, admitRow, hshort, hfull]
  rcases hfills.assign hsame with ⟨e, he, he'⟩ | ⟨inc', short', full', hok, hok', hfills'⟩
  · simp only [he, he']
  · simp only [hok, hok', hfills'.validateRow]

/-- A row that is refused once the sequence has been asked. -/
theorem admitRow_refused {inc : Option AutoIncState} {exprs : List Expr} {row : Row}
    (hrow : buildRow ctx schema is exprs = .ok row)
    (hbad : ∀ inc' row', assignAutoInc inc row = .ok (inc', row') →
      ∃ e, schema.validateRow row' = .error e) :
    ∃ e, (admitRow ctx schema is inc exprs).2 = .error e := by
  rw [admitRow, hrow]
  cases hassign : assignAutoInc inc row with
  | error e => exact ⟨e, by simp only [hassign]⟩
  | ok p =>
    obtain ⟨e, he⟩ := hbad p.1 p.2 hassign
    refine ⟨.err e, ?_⟩
    simp only [hassign, he]
    rfl

theorem insertTuples_congr {α : Type} {f g : α → List Expr} :
    ∀ {items : List α} {inc : Option AutoIncState} {staged : Staged},
    (∀ a ∈ items, ∀ inc, seqColumn inc = s →
      admitRow ctx schema is inc (f a) = admitRow ctx schema is' inc (g a)) →
    seqColumn inc = s →
      insertTuples ctx schema is text table rows inc (items.map f) staged =
        insertTuples ctx schema is' text table rows inc (items.map g) staged
  | [], _, _, _, _ => rfl
  | a :: items, inc, staged, h, hinc => by
    have hadmitted := h a List.mem_cons_self inc hinc
    have hcol : seqColumn (admitRow ctx schema is' inc (g a)).1 = s :=
      (seqColumn_admitRow inc (g a)).trans hinc
    rw [List.map_cons, List.map_cons, insertTuples, insertTuples, hadmitted]
    split
    · rfl
    · next heq =>
      rw [heq] at hcol
      split
      · rfl
      · exact insertTuples_congr (fun a ha => h a (List.mem_cons_of_mem _ ha)) hcol

end Congr

/-- The session knows the table, and its sequence is that of the `AUTO_INCREMENT` column. -/
structure Conn.Knows (c : Conn) (table : String) (schema : Schema) : Prop where
  known : c.schemas[c.resolveTableKey table]? = some schema
  sequence : seqColumn c.autoIncs[c.resolveTableKey table]? = schema.sequence

section Exec

variable {ctx : Context} {c c' : Conn} {stmt : InsertStmt} {table : String} {schema : Schema}

theorem Conn.Knows.of_eq (h : c.Knows table schema) (hschemas : c'.schemas = c.schemas)
    (hdb : c'.currentDb = c.currentDb)
    (hincs : ∀ k : String, seqColumn c'.autoIncs[k]? = seqColumn c.autoIncs[k]?) :
    c'.Knows table schema := by
  have hkey : c'.resolveTableKey table = c.resolveTableKey table := by
    rw [Conn.resolveTableKey, Conn.resolveTableKey, hschemas, hdb]
  exact ⟨by rw [hkey, hschemas, h.known], by rw [hkey, hincs, h.sequence]⟩

/-- A commit is about rows only. -/
theorem commitStagedOrStage_keeps {staged : Staged} (h : c.commitStagedOrStage staged = .ok c') :
    c'.schemas = c.schemas ∧ c'.currentDb = c.currentDb ∧ c'.autoIncs = c.autoIncs := by
  rw [Conn.commitStagedOrStage] at h
  split at h
  · cases h
    exact ⟨rfl, rfl, rfl⟩
  · split at h
    · obtain ⟨rfl, -⟩ := commitTxn_ok h
      exact ⟨rfl, rfl, rfl⟩
    · cases h
      exact ⟨rfl, rfl, rfl⟩

/-- A statement keeps the columns of the sequences. -/
theorem Conn.Knows.execInsert (h : c.Knows table schema) (stmt : InsertStmt) :
    (Session.execInsert ctx stmt c).1.Knows table schema := by
  rw [Session.execInsert]
  split
  · exact h
  · next schema' hschema =>
    split
    · exact h
    · next indices hindices =>
      have hcol : seqColumn (insertTuples ctx schema' indices stmt.table (c.resolveTableKey stmt.table)
          c.visible c.autoIncs[c.resolveTableKey stmt.table]? stmt.rows ∅).1 =
            seqColumn c.autoIncs[c.resolveTableKey stmt.table]? := seqColumn_insertTuples _ _ _
      generalize insertTuples ctx schema' indices stmt.table (c.resolveTableKey stmt.table) c.visible
          c.autoIncs[c.resolveTableKey stmt.table]? stmt.rows ∅ = placed at hcol
      obtain ⟨inc, result⟩ := placed
      have hknows : ({ c with
          autoIncs := inc.elim c.autoIncs (c.autoIncs.insert (c.resolveTableKey stmt.table)) } : Conn).Knows
            table schema := by
        refine h.of_eq rfl rfl fun k => ?_
        cases inc with
        | none => rfl
        | some st =>
          rw [Option.elim_some, ExtTreeMap.getElem?_insert]
          split
          · next heq =>
            rw [← Std.compare_eq_iff_eq.mp heq]
            exact hcol
          · rfl
      cases result with
      | error e => exact hknows
      | ok staged =>
        simp only
        split
        · exact hknows
        · split
          · exact hknows
          · next c' hcommit =>
            obtain ⟨hschemas, hdb, hincs⟩ := commitStagedOrStage_keeps hcommit
            exact hknows.of_eq hschemas hdb fun k => by rw [hincs]

end Exec

end Session

end HenchDB
