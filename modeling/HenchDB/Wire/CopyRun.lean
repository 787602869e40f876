import HenchDB.Lib.Chunks
import HenchDB.Wire.InsertText

/-!
# A COPY from begin to end

`CopyRunner::begin` opens a transaction where the session holds none; the input
comes in messages, and at its end the rows go to the engine as `INSERT`
statements of 2000 rows.  Whatever goes wrong, the runner rolls back the
transaction that it has opened itself, and no other.

So in a transaction of the client the statements that were accepted stay staged
when a later one is refused.  In a transaction of its own a COPY that fails leaves
nothing, unless its `COMMIT` is cut off by an I/O error behind the first row that
it installs (`undone_iff`).

The gates of a statement, the answer of `describe` and the I/O error of the
commit are inputs.  No other session commits meanwhile.
-/

namespace HenchDB

namespace Session

/-! ## Transactions of a connection -/

/-- An I/O error that cuts off a commit: of the log, before a row is installed, or
of a page, when the rows under some keys are. -/
structure CommitFault where
  error : Error
  installed : TKey → Bool

namespace Conn

def inTransaction (c : Conn) : Bool := c.txn.isSome

/-- `Statement::Begin`. -/
def beginTxn (c : Conn) : Except StmtError Conn :=
  match c.txn with
  | some _ => .error (.err (.txnConflict "transaction already active"))
  | none => .ok { c with txn := some ∅ }

/-- `Statement::Commit`; without rows there is nothing that could be cut off. -/
def commit (fault : Option CommitFault) (c : Conn) : Conn × Except StmtError Unit :=
  match c.txn with
  | none => ({ c with pinned := none }, .ok ())
  | some staged =>
    match ({ c with txn := none } : Conn).commitTxn staged with
    | .error e => ({ c with txn := none }, .error e)
    | .ok done =>
      match if staged.isEmpty then none else fault with
      | none => ({ done with pinned := none }, .ok ())
      | some f =>
        ({ c with txn := none, rows := view c.rows (staged.filter fun k _ => f.installed k) },
          .error (.err f.error))

def rollback (c : Conn) : Conn := { c with txn := none, pinned := none }

end Conn

end Session

open Session Outcome
open Std (ExtTreeMap)

/-! ## The run -/

structure CopyHost where
  txt : CopyText
  grammar : Grammar
  context : Context
  /-- The gates in front of the parser at the `n`-th `INSERT`: the replica's and the
  age of the snapshot. -/
  gate : Nat → Except Error Unit
  /-- `privilege::enforce` of the `n`-th `INSERT`. -/
  enforce : Nat → InsertStmt → Except Error Unit
  /-- The I/O error that the commit meets. -/
  fault : Option CommitFault

inductive CopyError where
  /-- With an error of its own. -/
  | wire (code msg : String)
  | engine (e : StmtError)
  /-- The connection or the server goes down. -/
  | gone

def CopyError.failed : CopyError → CopyError
  | .wire code msg => .wire code s!"COPY failed: {msg}"
  | e => e

/-- A message of the client, or the news that the server goes down. -/
inductive CopyMessage where
  | data (chunk : Bytes)
  | done
  | fail (msg : String)
  | other
  | shutdown

/-- `CopyRunner` with `implicit_txn`. -/
structure CopyRun where
  runner : CopyRunner
  implicitTxn : Bool

/-- `s.replace("\"\"", "\"")`. -/
def undouble : List Char → List Char
  | '"' :: '"' :: cs => '"' :: undouble cs
  | c :: cs => c :: undouble cs
  | [] => []

/-- A name of the preamble without the quotes around it. -/
def bareName (name : String) : String :=
  let unquoted := name.toList.dropWhile (· = '"')
  String.ofList (undouble (unquoted.reverse.dropWhile (· = '"')).reverse)

def copyTarget (cols : List (String × ColumnType)) (name : String) :
    Except (String × String) (Nat × ColumnType) :=
  match cols.findIdx? fun c => c.1 = name || c.1 = bareName name with
  | none => .error ("42703", s!"column \"{name}\" does not exist")
  | some pos => .ok (pos, (cols[pos]?.map Prod.snd).getD .text)

/-- The columns of a COPY, all of them if it names none. -/
def copyTargets (table : String) (columns : List String) (cols : List (String × ColumnType)) :
    Except (String × String) (List (Nat × ColumnType)) :=
  if cols.isEmpty then .error ("42P01", s!"table \"{table}\" does not exist")
  else (if columns.isEmpty then cols.map Prod.fst else columns).mapM (copyTarget cols)

namespace CopyRun

variable (h : CopyHost)

/-- `begin`, given the answer of `describe`. -/
def start (described : Except Error (List (String × ColumnType))) (spec : CopySpec)
    (columns : List String) (c : Conn) : Except CopyError (CopyRun × Conn) := do
  let cols ← described.mapError fun e => .engine (.err e)
  let targets ← (copyTargets spec.table columns cols).mapError fun e => .wire e.1 e.2
  if c.inTransaction then return (⟨.start spec targets, false⟩, c)
  else return (⟨.start spec targets, true⟩, ← c.beginTxn.mapError .engine)

/-- `execute` of the `n`-th `INSERT`. -/
def execute (n : Nat) (sql : List Char) (c : Conn) : Conn × Except StmtError Nat :=
  match h.gate n with
  | .error e => (c, .error (.err e))
  | .ok _ =>
    match h.grammar.parseSql sql with
    | .error e => (c, .error (.err e))
    | .ok stmt =>
      match h.enforce n stmt with
      | .error e => (c, .error (.err e))
      | .ok _ => execInsert h.context stmt c

/-- The `INSERT` statements one after the other. -/
def insertAll : Nat → List (List Char) → Conn → Conn × Except StmtError Unit
  | _, [], c => (c, .ok ())
  | n, sql :: sqls, c =>
    match execute h n sql c with
    | (c, .error e) => (c, .error e)
    | (c, .ok _) => insertAll (n + 1) sqls c

/-- `finish_inner` behind the rows. -/
def insertAndCommit (implicitTxn : Bool) (r : CopyRunner) (c : Conn) : Conn × Except CopyError Nat :=
  match insertAll h 0 r.inserts c with
  | (c, .error e) => (c, .error (.engine e))
  | (c, .ok _) =>
    if implicitTxn then
      match c.commit h.fault with
      | (c, .error e) => (c, .error (.engine e))
      | (c, .ok _) => (c, .ok r.rowCount)
    else (c, .ok r.rowCount)

/-- `finish_inner`, with the number of rows it reports. -/
def finishInner (run : CopyRun) (c : Conn) : Conn × Except CopyError Nat :=
  match run.runner.finishRows h.txt with
  | .error e => (c, .error (.wire e.1 e.2))
  | .ok r => insertAndCommit h run.implicitTxn r c

def rollback (run : CopyRun) (c : Conn) : Conn := if run.implicitTxn then c.rollback else c

def finish (run : CopyRun) (c : Conn) : Conn × Except CopyError Nat :=
  match finishInner h run c with
  | (c, .error e) => (run.rollback c, .error e)
  | (c, .ok n) => (c, .ok n)

/-- The loop of `run_copy_in`; a connection without further messages is dead. -/
def ingest : List CopyMessage → CopyRun → Conn → Conn × Except CopyError Nat
  | .data chunk :: msgs, run, c =>
    match run.runner.feed h.txt chunk with
    | .error e => (run.rollback c, .error (CopyError.wire e.1 e.2).failed)
    | .ok r => ingest msgs { run with runner := r } c
  | .done :: _, run, c => ((finish h run c).1, (finish h run c).2.mapError CopyError.failed)
  | .fail msg :: _, run, c =>
    (run.rollback c, .error (.wire "57014" s!"COPY aborted by client: {msg}"))
  | .other :: _, run, c =>
    (run.rollback c, .error (.wire "08P04" "unexpected message during COPY, aborting"))
  | .shutdown :: _, run, c => (run.rollback c, .error .gone)
  | [], run, c => (run.rollback c, .error .gone)

end CopyRun

def runCopyIn (h : CopyHost) (described : Except Error (List (String × ColumnType))) (spec : CopySpec)
    (columns : List String) (msgs : List CopyMessage) (c : Conn) : Conn × Except CopyError Nat :=
  match CopyRun.start described spec columns c with
  | .error e => (c, .error e)
  | .ok (run, c) => CopyRun.ingest h msgs run c

/-! ## Statements that were read -/

theorem Grammar.separated_ne_nil (g : Grammar) {α : Type}
    {item : List Token → Except Error (α × List Token)} {n : Nat} {ts rest : List Token} {as : List α}
    (h : g.separated item n ts = .ok (as, rest)) : as ≠ [] := by
  cases n with
  | zero => cases h
  | succ n =>
    rw [Grammar.separated] at h
    obtain ⟨⟨a, ts'⟩, -, h⟩ := bind_ok h
    simp only at h
    split at h
    · obtain ⟨⟨more, ts''⟩, -, h⟩ := bind_ok h
      cases h
      exact List.cons_ne_nil a more
    · cases h
      exact List.cons_ne_nil a []

/-- A statement that is read has a tuple. -/
theorem Grammar.rows_ne_nil (g : Grammar) {sql : List Char} {stmt : InsertStmt}
    (h : g.parseSql sql = .ok stmt) : stmt.rows ≠ [] := by
  rw [Grammar.parseSql] at h
  obtain ⟨ts, -, h⟩ := bind_ok h
  obtain ⟨⟨stmt', rest⟩, hinsert, h⟩ := bind_ok h
  simp only at h
  split at h
  · cases h
    rw [Grammar.parseInsert] at hinsert
    obtain ⟨ts₁, -, hinsert⟩ := bind_ok hinsert
    obtain ⟨⟨table, ts₂⟩, -, hinsert⟩ := bind_ok hinsert
    obtain ⟨⟨columns, ts₃⟩, -, hinsert⟩ := bind_ok hinsert
    obtain ⟨ts₄, -, hinsert⟩ := bind_ok hinsert
    obtain ⟨⟨rows, ts₅⟩, hrows, hinsert⟩ := bind_ok hinsert
    cases hinsert
    exact g.separated_ne_nil hrows
  · cases h

/-! ## What a statement adds to a transaction -/

namespace Session

variable {ctx : Context} {stmt : InsertStmt} {c : Conn} {text table : String} {rows : Rows}

theorem Staged.extend_empty (staged : Staged) : staged.extend ∅ = staged := by
  refine ExtTreeMap.ext_getElem? fun k => ?_
  rw [getElem?_extend]
  simp

theorem Staged.extend_assoc (t a b : Staged) : (t.extend a).extend b = t.extend (a.extend b) := by
  refine ExtTreeMap.ext_getElem? fun k => ?_
  simp only [getElem?_extend, Option.or_assoc]

/-- Writes that put rows as new, under keys that are not among the rows. -/
def Adds (rows : Rows) (more : Staged) : Prop :=
  ∀ k w, more[k]? = some w → w.isInsert = true ∧ w.row.isSome = true ∧ k ∉ rows

theorem adds_empty : Adds rows ∅ := by
  intro k w hw
  simp at hw

theorem Adds.extend {more further : Staged} (h : Adds rows more) (hfurther : Adds (view rows more) further) :
    Adds rows (more.extend further) := by
  intro k w hw
  rw [getElem?_extend] at hw
  cases hnew : further[k]? with
  | none =>
    rw [hnew, Option.none_or] at hw
    exact h k w hw
  | some w' =>
    rw [hnew, Option.some_or] at hw
    cases hw
    obtain ⟨hinsert, hrow, hnone⟩ := hfurther k w hnew
    refine ⟨hinsert, hrow, fun hmem => hnone ?_⟩
    rw [ExtTreeMap.mem_iff_isSome_getElem?, getElem?_view]
    cases hmore : more[k]? with
    | none => simpa [← ExtTreeMap.mem_iff_isSome_getElem?] using hmem
    | some w'' => simpa using (h k w'' hmore).2.1

theorem placeRows_adds : ∀ {new : List (Bytes × Row)} {err : Option StmtError} {staged placed : Staged},
    placeRows text table rows new err staged = .ok placed → Adds rows staged →
      err = none ∧ Adds rows placed ∧ (∀ k ∈ staged, k ∈ placed) ∧ ∀ e ∈ new, (table, e.1) ∈ placed
  | [], none, staged, placed, h, hadds => by
    cases h
    exact ⟨rfl, hadds, fun _ hk => hk, by simp⟩
  | [], some e, _, _, h, _ => by cases h
  | (key, row) :: new, err, staged, placed, h, hadds => by
    rw [placeRows] at h
    split at h
    · cases h
    · next hfree =>
      have hnone : (table, key) ∉ rows := by
        intro hmem
        exact hfree (by simp [hmem])
      have hadds' : Adds rows (staged.insert (table, key) { row := some row, isInsert := true }) := by
        intro k w hw
        rw [ExtTreeMap.getElem?_insert] at hw
        split at hw
        · next heq =>
          cases hw
          exact ⟨rfl, rfl, Std.compare_eq_iff_eq.mp heq ▸ hnone⟩
        · exact hadds k w hw
      obtain ⟨herr, hplaced, hkept, hnew⟩ := placeRows_adds h hadds'
      refine ⟨herr, hplaced, fun k hk => hkept k (ExtTreeMap.mem_insert.mpr (.inr hk)), fun e he => ?_⟩
      rcases List.mem_cons.mp he with rfl | he
      · exact hkept _ ExtTreeMap.mem_insert_self
      · exact hnew e he

/-- In a transaction an `INSERT` fails and leaves the staged rows, or adds rows to them, at
least one if it has a tuple. -/
theorem execInsert_inTxn {t : Staged} (htxn : c.txn = some t) :
    (∃ incs e, execInsert ctx stmt c = ({ c with autoIncs := incs }, .error e)) ∨
    ∃ incs more n, execInsert ctx stmt c =
      ({ c with autoIncs := incs, txn := some (t.extend more) }, .ok n) ∧
      Adds c.visible more ∧ (stmt.rows ≠ [] → ∃ k, k ∈ more) := by
  obtain ⟨incs, hexec⟩ := execInsert_eq ctx stmt c
  rw [hexec]
  cases hplaced : placeRows stmt.table (stmt.key c) c.visible (stmt.newRows ctx c)
      (stmt.carried ctx c).2 ∅ with
  | error e => exact .inl ⟨incs, e, rfl⟩
  | ok more =>
    cases hfk : ctx.fkCheckInsertRows ({ c with autoIncs := incs } : Conn).visible more with
    | error e => exact .inl ⟨incs, .err e, by simp only [finish, hfk]⟩
    | ok _ =>
      obtain ⟨herr, hadds, -, hnew⟩ := placeRows_adds hplaced adds_empty
      refine .inr ⟨incs, more, more.size, ?_, hadds, fun hrows => ?_⟩
      · have hcommit : ({ c with autoIncs := incs } : Conn).commitStagedOrStage more =
            .ok { c with autoIncs := incs, txn := some (t.extend more) } := by
          simp only [Conn.commitStagedOrStage, htxn]
        simp only [finish, hfk, hcommit]
      · have hlength := length_carried herr
        obtain ⟨e, he⟩ := List.exists_mem_of_ne_nil (stmt.newRows ctx c) fun hnil => by
          rw [hnil] at hlength
          exact hrows (List.eq_nil_of_length_eq_zero hlength.symm)
        exact ⟨_, hnew e he⟩

end Session

namespace CopyRun

variable {h : CopyHost} {c : Conn} {t : Staged} {n : Nat} {sql : List Char}

/-- The same of a text that is executed. -/
theorem execute_inTxn (n : Nat) (sql : List Char) (htxn : c.txn = some t) :
    (∃ incs e, execute h n sql c = ({ c with autoIncs := incs }, .error e)) ∨
    ∃ incs more m, execute h n sql c =
      ({ c with autoIncs := incs, txn := some (t.extend more) }, .ok m) ∧
      Adds c.visible more ∧ ∃ k, k ∈ more := by
  rw [execute]
  cases hgate : h.gate n with
  | error e => exact .inl ⟨c.autoIncs, .err e, rfl⟩
  | ok _ =>
    cases hparse : h.grammar.parseSql sql with
    | error e => exact .inl ⟨c.autoIncs, .err e, rfl⟩
    | ok stmt =>
      cases henforce : h.enforce n stmt with
      | error e => exact .inl ⟨c.autoIncs, .err e, by simp only [henforce]⟩
      | ok _ =>
        simp only [henforce]
        rcases execInsert_inTxn htxn with hfail | ⟨incs, more, m, hok, hadds, hmore⟩
        · exact .inl hfail
        · exact .inr ⟨incs, more, m, hok, hadds, hmore (h.grammar.rows_ne_nil hparse)⟩

theorem visible_staged (htxn : c.txn = some t) (incs : AutoIncs) (more : Staged) :
    ({ c with autoIncs := incs, txn := some (t.extend more) } : Conn).visible = view c.visible more := by
  simp [Conn.visible, htxn, view_extend]

/-- The statements add rows to the transaction and do nothing else. -/
theorem insertAll_inTxn : ∀ (sqls : List (List Char)) (n : Nat) {c : Conn} {t : Staged}, c.txn = some t →
    ∃ incs more, (insertAll h n sqls c).1 = { c with autoIncs := incs, txn := some (t.extend more) } ∧
      Adds c.visible more
  | [], _, c, t, htxn => ⟨c.autoIncs, ∅, by simp [insertAll, t.extend_empty, ← htxn], adds_empty⟩
  | sql :: sqls, n, c, t, htxn => by
    rw [insertAll]
    rcases execute_inTxn (h := h) n sql htxn with ⟨incs, e, hfail⟩ | ⟨incs, more, m, hok, hadds, -⟩
    · rw [hfail]
      exact ⟨incs, ∅, by simp [t.extend_empty, ← htxn], adds_empty⟩
    · rw [hok]
      obtain ⟨incs', further, hrest, hfurther⟩ := insertAll_inTxn sqls (n + 1)
        (c := { c with autoIncs := incs, txn := some (t.extend more) }) rfl
      rw [visible_staged htxn] at hfurther
      exact ⟨incs', more.extend further, by simp only [hrest, Staged.extend_assoc], hadds.extend hfurther⟩

/-! ## The ends of a run -/

variable (h)

/-- The runner when the input is read to its end. -/
def collected : List CopyMessage → CopyRunner → Option CopyRunner
  | .data chunk :: msgs, r => (r.feed h.txt chunk).toOption.bind (collected msgs)
  | .done :: _, r => (r.finishRows h.txt).toOption
  | _, _ => none

variable {msgs : List CopyMessage} {run : CopyRun} {r : CopyRunner}

/-- Without such a runner the run is over before its first statement. -/
theorem ingest_of_none : ∀ (msgs : List CopyMessage) (run : CopyRun), collected h msgs run.runner = none →
    ∃ e, ingest h msgs run c = (run.rollback c, .error e)
  | .data chunk :: msgs, run, hnone => by
    rw [collected] at hnone
    rw [ingest]
    cases hfeed : run.runner.feed h.txt chunk with
    | error e => exact ⟨_, rfl⟩
    | ok r =>
      rw [hfeed] at hnone
      exact ingest_of_none msgs { run with runner := r } hnone
  | .done :: _, run, hnone => by
    rw [collected] at hnone
    cases hrows : run.runner.finishRows h.txt with
    | error e => exact ⟨_, by simp only [ingest, finish, finishInner, hrows]; rfl⟩
    | ok r =>
      rw [hrows] at hnone
      cases hnone
  | .fail _ :: _, _, _ => ⟨_, rfl⟩
  | .other :: _, _, _ => ⟨_, rfl⟩
  | .shutdown :: _, _, _ => ⟨_, rfl⟩
  | [], _, _ => ⟨_, rfl⟩

/-- With one the statements decide, and a failure is rolled back. -/
theorem ingest_of_some : ∀ (msgs : List CopyMessage) (run : CopyRun), collected h msgs run.runner = some r →
    (∀ m, (insertAndCommit h run.implicitTxn r c).2 = .ok m → (ingest h msgs run c).2 = .ok m) ∧
    ∀ e, (insertAndCommit h run.implicitTxn r c).2 = .error e →
      ingest h msgs run c = (run.rollback (insertAndCommit h run.implicitTxn r c).1, .error e.failed)
  | .data chunk :: msgs, run, hsome => by
    rw [collected] at hsome
    rw [ingest]
    cases hfeed : run.runner.feed h.txt chunk with
    | error e =>
      rw [hfeed] at hsome
      cases hsome
    | ok r' =>
      rw [hfeed] at hsome
      exact ingest_of_some msgs { run with runner := r' } hsome
  | .done :: _, run, hsome => by
    rw [collected] at hsome
    cases hrows : run.runner.finishRows h.txt with
    | error e =>
      rw [hrows] at hsome
      cases hsome
    | ok r' =>
      rw [hrows] at hsome
      cases hsome
      rw [ingest, finish, finishInner, hrows]
      constructor
      · intro m hm
        simp only
        split
        · next he =>
          rw [he] at hm
          cases hm
        · next hn =>
          rw [hn] at hm
          exact congrArg _ hm
      · intro e he
        simp only
        split
        · next he' =>
          rw [he'] at he ⊢
          obtain rfl := Except.error.inj he
          rfl
        · next hn =>
          rw [hn] at he
          cases he
  | .fail _ :: _, _, hsome => by cases hsome
  | .other :: _, _, hsome => by cases hsome
  | .shutdown :: _, _, hsome => by cases hsome
  | [], _, hsome => by cases hsome

theorem ingest_error_iff {P : Conn → Prop} (hsome : collected h msgs run.runner = some r) :
    (∀ e, (ingest h msgs run c).2 = .error e → P (ingest h msgs run c).1) ↔
      ∀ e, (insertAndCommit h run.implicitTxn r c).2 = .error e →
        P (run.rollback (insertAndCommit h run.implicitTxn r c).1) := by
  obtain ⟨hgood, hbad⟩ := ingest_of_some h (c := c) msgs run hsome
  cases hresult : (insertAndCommit h run.implicitTxn r c).2 with
  | error e =>
    rw [hbad e hresult]
    simp
  | ok m =>
    rw [hgood m hresult]
    simp

/-! ## A transaction of the client -/

/-- A statement is accepted and a later one is not. -/
def RefusesLater (sqls : List (List Char)) (c : Conn) : Prop :=
  ∃ sql rest, sqls = sql :: rest ∧ (∃ m, (execute h 0 sql c).2 = .ok m) ∧
    ∃ e, (insertAll h 0 sqls c).2 = .error e

/-- Added rows make another transaction. -/
theorem extend_ne {more : Staged} (htxn : c.txn = some t) (hadds : Adds c.visible more)
    (hmore : ∃ k, k ∈ more) : t.extend more ≠ t := by
  intro heq
  obtain ⟨k, hk⟩ := hmore
  obtain ⟨w, hw⟩ := Option.isSome_iff_exists.mp (ExtTreeMap.mem_iff_isSome_getElem?.mp hk)
  obtain ⟨-, hrow, hnone⟩ := hadds k w hw
  have hstaged : t[k]? = some w := by
    rw [← heq, getElem?_extend, hw]
    rfl
  refine hnone ?_
  rw [ExtTreeMap.mem_iff_isSome_getElem?, Conn.visible, getElem?_view, htxn, Option.getD_some, hstaged]
  exact hrow

/-- The transaction is another one just if the first statement is accepted. -/
theorem txn_insertAll (htxn : c.txn = some t) (rest : List (List Char)) :
    (insertAll h n (sql :: rest) c).1.txn = c.txn ↔ ∃ e, (execute h n sql c).2 = .error e := by
  rw [insertAll]
  rcases execute_inTxn (h := h) n sql htxn with
    ⟨incs, e, hfail⟩ | ⟨incs, more, m, hok, hadds, k, hk⟩
  · rw [hfail]
    exact iff_of_true rfl ⟨e, rfl⟩
  · obtain ⟨incs', further, hrest, hfurther⟩ := insertAll_inTxn (h := h) rest (n + 1)
      (c := { c with autoIncs := incs, txn := some (t.extend more) }) rfl
    rw [visible_staged htxn] at hfurther
    have hmore : ∃ k, k ∈ more.extend further := by
      refine ⟨k, ?_⟩
      rw [ExtTreeMap.mem_iff_isSome_getElem?] at hk ⊢
      rw [getElem?_extend, Option.isSome_or, hk, Bool.or_true]
    rw [hok]
    refine iff_of_false (fun heq => ?_) (by simp)
    simp only [hrest, Staged.extend_assoc, htxn] at heq
    exact extend_ne htxn (hadds.extend hfurther) hmore (Option.some.inj heq)

/-- In a transaction of the client a COPY leaves the staged rows as they were, or ends well,
if it does not refuse a statement behind one that it has accepted. -/
theorem client_undone_iff (htxn : c.txn = some t) :
    (∀ e, (insertAndCommit h false r c).2 = .error e →
      (insertAndCommit h false r c).1.rows = c.rows ∧ (insertAndCommit h false r c).1.txn = c.txn) ↔
      ¬ RefusesLater h r.inserts c := by
  obtain ⟨incs, more, hall, -⟩ := insertAll_inTxn (h := h) r.inserts 0 htxn
  have hrows : (insertAll h 0 r.inserts c).1.rows = c.rows := by rw [hall]
  rw [insertAndCommit, RefusesLater]
  rcases hresult : insertAll h 0 r.inserts c with ⟨after, e | _⟩
  · rw [hresult] at hrows
    cases hsqls : r.inserts with
    | nil =>
      rw [hsqls] at hresult
      cases hresult
    | cons sql rest =>
      have htxn' : _ ↔ ∃ e, (execute h 0 sql c).2 = .error e := txn_insertAll h htxn rest
      rw [hsqls] at hresult
      rw [hresult] at htxn'
      cases hfirst : (execute h 0 sql c).2 with
      | error e' =>
        refine iff_of_true (fun _ _ => ⟨hrows, htxn'.mpr ⟨e', hfirst⟩⟩) ?_
        rintro ⟨_, _, hcons, ⟨m, hm⟩, -⟩
        obtain ⟨rfl, rfl⟩ := List.cons.inj hcons
        exact nomatch hfirst.symm.trans hm
      | ok m =>
        refine iff_of_false (fun hundone => ?_) (not_not_intro ?_)
        · obtain ⟨e', he'⟩ := htxn'.mp (hundone _ rfl).2
          exact nomatch hfirst.symm.trans he'
        · exact ⟨sql, rest, rfl, ⟨m, hfirst⟩, e, rfl⟩
  · refine iff_of_true (fun e he => nomatch he) ?_
    rintro ⟨_, _, -, -, e, he⟩
    cases he

/-! ## A transaction of its own -/

/-- All statements are accepted, the commit is too, and it is cut off behind a row that it
has installed. -/
def CutsOff (sqls : List (List Char)) (c : Conn) : Prop :=
  (insertAll h 0 sqls c).2 = .ok () ∧ ∃ staged done f, (insertAll h 0 sqls c).1.txn = some staged ∧
    ({ (insertAll h 0 sqls c).1 with txn := none } : Conn).commitTxn staged = .ok done ∧
      h.fault = some f ∧ ∃ k ∈ staged, f.installed k = true

/-- Some of the rows that are added make a difference. -/
theorem view_filter_eq {rows : Session.Rows} {staged : Staged} {p : TKey → Bool}
    (hputs : ∀ (k : TKey) (w : StagedWrite), staged[k]? = some w → w.row.isSome = true) (hfree :
      ∀ k ∈ staged, k ∉ rows) :
    view rows (staged.filter fun k _ => p k) = rows ↔ ¬ ∃ k ∈ staged, p k = true := by
  constructor
  · rintro hsame ⟨k, hk, hp⟩
    obtain ⟨w, hw⟩ := Option.isSome_iff_exists.mp (ExtTreeMap.mem_iff_isSome_getElem?.mp hk)
    refine hfree k hk ?_
    rw [← hsame, ExtTreeMap.mem_iff_isSome_getElem?, getElem?_view, ExtTreeMap.getElem?_filter', hw]
    simpa [hp, Option.filter] using hputs k w hw
  · intro hnone
    refine ExtTreeMap.ext_getElem? fun k => ?_
    rw [getElem?_view, ExtTreeMap.getElem?_filter']
    cases hw : staged[k]? with
    | none => rfl
    | some w =>
      have hk : p k = false := by
        by_contra hp
        exact hnone ⟨k, ExtTreeMap.mem_iff_isSome_getElem?.mpr (by rw [hw]; rfl), by simpa using hp⟩
      simp [hk]

/-- In a transaction of its own a COPY that fails leaves the rows as they were, if its
commit is not cut off. -/
theorem own_undone_iff (htxn : c.txn = some ∅) :
    (∀ e, (insertAndCommit h true r c).2 = .error e → (insertAndCommit h true r c).1.rows = c.rows) ↔
      ¬ CutsOff h r.inserts c := by
  obtain ⟨incs, more, hall, hadds⟩ := insertAll_inTxn (h := h) r.inserts 0 htxn
  rw [empty_extend] at hall
  rw [insertAndCommit, CutsOff]
  rcases hresult : insertAll h 0 r.inserts c with ⟨after, e | _⟩
  · rw [hresult] at hall
    obtain rfl : after = _ := hall
    exact iff_of_true (fun _ _ => rfl) fun hcut => nomatch hcut.1
  · rw [hresult] at hall
    obtain rfl : after = _ := hall
    simp only [if_true, Conn.commit]
    cases hcommit : ({ c with autoIncs := incs, txn := none } : Conn).commitTxn more with
    | error e =>
      refine iff_of_true (fun _ _ => rfl) ?_
      rintro ⟨-, staged, done, f, hstaged, hdone, -⟩
      cases hstaged
      exact nomatch hcommit.symm.trans hdone
    | ok done =>
      have hcut : (True ∧ ∃ staged done' f, some more = some staged ∧
          ({ c with autoIncs := incs, txn := none } : Conn).commitTxn staged = .ok done' ∧
          h.fault = some f ∧ ∃ k ∈ staged, f.installed k = true) ↔
            ∃ f, h.fault = some f ∧ ∃ k ∈ more, f.installed k = true := by
        constructor
        · rintro ⟨-, staged, done', f, hstaged, -, hf, hk⟩
          cases hstaged
          exact ⟨f, hf, hk⟩
        · rintro ⟨f, hf, hk⟩
          exact ⟨trivial, more, done, f, rfl, hcommit, hf, hk⟩
      simp only
      rw [hcut]
      by_cases hempty : more.isEmpty
      · rw [if_pos hempty]
        refine iff_of_true (fun e he => nomatch he) ?_
        rintro ⟨f, -, k, hk, -⟩
        rw [ExtTreeMap.isEmpty_iff.mp hempty] at hk
        simp at hk
      · rw [if_neg hempty]
        obtain ⟨-, hfree⟩ := (commitTxn_ok hcommit).2.resolve_left hempty
        cases hfault : h.fault with
        | none =>
          refine iff_of_true (fun e he => nomatch he) ?_
          rintro ⟨f, hf, -⟩
          cases hf
        | some f =>
          have hinserted : ∀ k ∈ more, k ∉ c.rows := by
            intro k hk
            obtain ⟨w, hw⟩ := Option.isSome_iff_exists.mp (ExtTreeMap.mem_iff_isSome_getElem?.mp hk)
            exact hfree k (Engine.mem_inserted.mpr ⟨w, hw, (hadds k w hw).1⟩)
          simp only [Except.error.injEq, forall_eq', Option.some.injEq, exists_eq_left']
          exact view_filter_eq (fun k w hw => (hadds k w hw).2.1) hinserted

end CopyRun

/-! ## The law -/

open CopyRun

variable (h : CopyHost) (described : Except Error (List (String × ColumnType))) (spec : CopySpec)
  (columns : List String) (msgs : List CopyMessage) (c : Conn)

/-- A COPY that ends with an error leaves the tables and the staged rows as they were. -/
def CopyUndone : Prop :=
  ∀ e, (runCopyIn h described spec columns msgs c).2 = .error e →
    (runCopyIn h described spec columns msgs c).1.rows = c.rows ∧
      (runCopyIn h described spec columns msgs c).1.txn = c.txn

/-- The ways in which a COPY leaves something behind. -/
def LeavesRows : Prop :=
  ∃ run c' r, start described spec columns c = .ok (run, c') ∧ collected h msgs run.runner = some r ∧
    if c.inTransaction then RefusesLater h r.inserts c' else CutsOff h r.inserts c'

/-- What `begin` makes of the session. -/
theorem start_ok {run : CopyRun} {c' : Conn} (hstart : start described spec columns c = .ok (run, c')) :
    run.implicitTxn = !c.inTransaction ∧
      c' = if c.inTransaction then c else { c with txn := some ∅ } := by
  rw [start] at hstart
  obtain ⟨cols, -, hstart⟩ := bind_ok hstart
  obtain ⟨targets, -, hstart⟩ := bind_ok hstart
  cases htxn : c.txn with
  | some t =>
    rw [Conn.inTransaction, htxn] at hstart ⊢
    cases hstart
    exact ⟨rfl, rfl⟩
  | none =>
    rw [Conn.inTransaction, htxn] at hstart ⊢
    simp only [Conn.beginTxn, htxn] at hstart
    cases hstart
    exact ⟨rfl, rfl⟩

/-- A COPY that fails leaves nothing, but for the statements that a transaction of the client
holds when a later one is refused, and for rows that were installed when the commit was cut off. -/
theorem undone_iff :
    CopyUndone h described spec columns msgs c ↔ ¬ LeavesRows h described spec columns msgs c := by
  rw [CopyUndone, LeavesRows, runCopyIn]
  cases hstart : start described spec columns c with
  | error e =>
    refine iff_of_true (fun _ _ => ⟨rfl, rfl⟩) ?_
    rintro ⟨run, c', r, hok, -⟩
    cases hok
  | ok started =>
    obtain ⟨run, c'⟩ := started
    obtain ⟨himplicit, hc'⟩ := start_ok described spec columns c hstart
    have hleaves : (∃ run' c'' r, Except.ok (run, c') = (.ok (run', c'') : Except CopyError _) ∧
        collected h msgs run'.runner = some r ∧
          if c.inTransaction then RefusesLater h r.inserts c'' else CutsOff h r.inserts c'') ↔
        ∃ r, collected h msgs run.runner = some r ∧
          if c.inTransaction then RefusesLater h r.inserts c' else CutsOff h r.inserts c' := by
      constructor
      · rintro ⟨run', c'', r, hok, hr⟩
        cases hok
        exact ⟨r, hr⟩
      · rintro ⟨r, hr⟩
        exact ⟨run, c', r, rfl, hr⟩
    rw [hleaves]
    simp only
    cases htxn : c.txn with
    | some t =>
      rw [Conn.inTransaction, htxn] at himplicit hc' ⊢
      obtain rfl : c' = c := hc'
      have hrollback : ∀ c : Conn, run.rollback c = c := fun c => by rw [rollback, himplicit]; rfl
      cases hcollected : collected h msgs run.runner with
      | none =>
        obtain ⟨e, hend⟩ := ingest_of_none h (c := c') msgs run hcollected
        rw [hend, hrollback]
        exact iff_of_true (fun _ _ => ⟨rfl, htxn⟩) (by simp)
      | some r =>
        have hlaw := client_undone_iff h (r := r) htxn
        have hends := ingest_error_iff h (c := c') hcollected
          (P := fun after => after.rows = c'.rows ∧ after.txn = some t)
        rw [himplicit] at hends
        refine hends.trans ?_
        simpa [hrollback, htxn] using hlaw
    | none =>
      rw [Conn.inTransaction, htxn] at himplicit hc' ⊢
      obtain rfl : c' = { c with txn := some ∅ } := hc'
      have hrollback : ∀ c : Conn, run.rollback c = c.rollback := fun c => by
        rw [rollback, himplicit]
        rfl
      cases hcollected : collected h msgs run.runner with
      | none =>
        obtain ⟨e, hend⟩ := ingest_of_none h (c := { c with txn := some ∅ }) msgs run hcollected
        rw [hend, hrollback]
        exact iff_of_true (fun _ _ => ⟨rfl, rfl⟩) (by simp)
      | some r =>
        have hlaw := own_undone_iff h (c := { c with txn := some ∅ }) (r := r) rfl
        have hends := ingest_error_iff h (c := { c with txn := some ∅ }) hcollected
          (P := fun after => after.rows = c.rows ∧ after.txn = none)
        rw [himplicit] at hends
        refine hends.trans ?_
        simpa [hrollback, Conn.rollback] using hlaw

/-! ## A row that is refused late -/

theorem insertText_none (table : String) (tuples : List (List Char)) :
    insertText table none tuples =
      "INSERT INTO ".toList ++ table.toList ++ " VALUES ".toList ++ List.intercalate [','] tuples :=
  congrArg (fun s => s ++ " VALUES ".toList ++ List.intercalate [','] tuples)
    (List.append_nil ("INSERT INTO ".toList ++ table.toList))

theorem inserts_eq (r : CopyRunner) :
    r.inserts = (r.tuples.toChunks CopyRunner.insertChunkRows).map (insertText r.spec.table none) :=
  List.map_congr_left fun tuples _ => (insertText_none r.spec.table tuples).symm

/-- A server without foreign keys that lets every statement through. -/
def openHost : CopyHost where
  txt := ⟨fun _ => none, fun _ => "", ⟨fun _ => "", fun _ => ""⟩⟩
  grammar := ⟨fun _ => "", fun _ => none, fun _ => .error (.parseError "expected operand")⟩
  context := noForeignKeys
  gate := fun _ => .ok ()
  enforce := fun _ _ => .ok ()
  fault := none

/-- `COPY counters FROM STDIN CSV`. -/
def counterSpec : CopySpec := ⟨"counters", .csv, byteOf ',', [], false⟩

def counterRunner (tuples : List (List Char)) (k : Nat) : CopyRunner :=
  ⟨counterSpec, [(0, .int), (1, .int)], tuples, [], .empty, k, false⟩

def sevenRow : List Datum := [.int 7, .int 1]

def nullRow : List Datum := [.null, .int 1]

/-- A line of two fields is a tuple. -/
theorem feed_line {line : Bytes} {a b : CsvField} {x y : Datum}
    (hline : CsvTokenizer.feed (byteOf ',') .empty line = (.empty, [[a, b]]))
    (hx : coerceField openHost.txt a.bytes a.quoted false .int [] = .ok x)
    (hy : coerceField openHost.txt b.bytes b.quoted false .int [] = .ok y)
    (tuples : List (List Char)) (k : Nat) :
    (counterRunner tuples k).feed openHost.txt line =
      .ok (counterRunner (tuples ++ [tupleText openHost.txt.float [x, y]]) (k + 1)) := by
  have hdatums : CopyRunner.rowDatums openHost.txt false (counterRunner tuples k) [a, b] = .ok [x, y] := by
    simp only [CopyRunner.rowDatums, counterRunner, counterSpec, List.zip_cons_cons, List.zip_nil_left,
      List.mapM_cons, List.mapM_nil, hx, hy, Except.mapError, bind, Except.bind, pure, Except.pure]
  have hpush : CopyRunner.pushRowCsv openHost.txt (counterRunner tuples k) [a, b] =
      .ok (counterRunner (tuples ++ [tupleText openHost.txt.float [x, y]]) (k + 1)) := by
    rw [CopyRunner.pushRowCsv, CopyRunner.pushRow, if_neg (by simp [counterRunner, counterSpec]),
      if_neg (by simp [counterRunner]), hdatums]
    rfl
  rw [CopyRunner.feed_csv openHost.txt rfl]
  simp only [show (counterRunner tuples k).csv = .empty from rfl,
    show (counterRunner tuples k).spec.delimiter = byteOf ',' from rfl, hline, List.foldlM_cons,
    List.foldlM_nil]
  rw [show (counterRunner tuples k).withInput (counterRunner tuples k).textBuf .empty =
    counterRunner tuples k from rfl, hpush]
  rfl

def sevenLine : Bytes := [55, 44, 49, 10]

def nullLine : Bytes := [44, 49, 10]

/-- 2000 rows with the key 7, and one without a key. -/
def counterInput : List CopyMessage :=
  List.replicate 2000 (.data sevenLine) ++ [.data nullLine, .done]

theorem feed_seven (tuples : List (List Char)) (k : Nat) :
    (counterRunner tuples k).feed openHost.txt sevenLine =
      .ok (counterRunner (tuples ++ [tupleText openHost.txt.float sevenRow]) (k + 1)) :=
  feed_line (a := ⟨[55], false⟩) (b := ⟨[49], false⟩) (by decide) (by decide +kernel) (by decide +kernel)
    tuples k

theorem feed_null (tuples : List (List Char)) (k : Nat) :
    (counterRunner tuples k).feed openHost.txt nullLine =
      .ok (counterRunner (tuples ++ [tupleText openHost.txt.float nullRow]) (k + 1)) :=
  feed_line (a := ⟨[], false⟩) (b := ⟨[49], false⟩) (by decide) (by decide +kernel) (by decide +kernel)
    tuples k

theorem collected_sevens : ∀ (n : Nat) (tuples : List (List Char)) (k : Nat) (msgs : List CopyMessage),
    collected openHost (List.replicate n (.data sevenLine) ++ msgs) (counterRunner tuples k) =
      collected openHost msgs
        (counterRunner (tuples ++ List.replicate n (tupleText openHost.txt.float sevenRow)) (k + n))
  | 0, tuples, k, msgs => by simp
  | n + 1, tuples, k, msgs => by
    rw [List.replicate_succ, List.cons_append, collected, feed_seven]
    refine (collected_sevens n _ _ msgs).trans ?_
    rw [List.append_assoc, List.singleton_append, ← List.replicate_succ, Nat.add_assoc, Nat.add_comm 1 n]

def counterEnd : CopyRunner :=
  counterRunner (List.replicate 2000 (tupleText openHost.txt.float sevenRow) ++
    [tupleText openHost.txt.float nullRow]) 2001

theorem collected_counters : collected openHost counterInput (counterRunner [] 0) = some counterEnd := by
  rw [counterInput, collected_sevens, collected, feed_null]
  rfl

theorem inserts_counterEnd : counterEnd.inserts =
    [insertText "counters" none (List.replicate 2000 (tupleText openHost.txt.float sevenRow)),
      insertText "counters" none [tupleText openHost.txt.float nullRow]] := by
  have hchunks : counterEnd.tuples.toChunks CopyRunner.insertChunkRows =
      [List.replicate 2000 (tupleText openHost.txt.float sevenRow),
        [tupleText openHost.txt.float nullRow]] := by
    rw [counterEnd, counterRunner, CopyRunner.insertChunkRows,
      Chunks.toChunks_eq (by decide) (List.append_ne_nil_of_right_ne_nil _ (List.cons_ne_nil _ _)),
      List.take_left' List.length_replicate, List.drop_left' List.length_replicate,
      Chunks.toChunks_eq (by decide) (List.cons_ne_nil _ _)]
    rfl
  rw [inserts_eq, hchunks]
  rfl

/-- A transaction that the client has opened on a connection without rows. -/
def openConn : Conn := { counterConn with txn := some ∅ }

def counterStmt (rows : List (List Datum)) : InsertStmt :=
  ⟨"counters", none, rows.map (List.map fun d => .literal (readBack d))⟩

theorem execute_counters (rows : List (List Datum)) (hne : rows ≠ [])
    (hrows : ∀ row ∈ rows, row ≠ [] ∧ ∀ d ∈ row, noFloat d) (n : Nat) (c : Conn) :
    execute openHost n (insertText "counters" none (rows.map (tupleText openHost.txt.float))) c =
      execInsert noForeignKeys (counterStmt rows) c := by
  have hname : IsName "counters" :=
    ⟨'c', ['o', 'u', 'n', 't', 'e', 'r', 's'], by decide, by decide, List.all_iff_forall_prop.mp (by decide)⟩
  have hparse : openHost.grammar.parseSql
      (insertText "counters" none (rows.map (tupleText openHost.txt.float))) = .ok (counterStmt rows) :=
    openHost.grammar.parseSql_insertText ⟨hname, by simp, hne, hrows⟩
  rw [execute, hparse]
  rfl

/-- Rows of one key are all placed, as the staged rows are looked up under another name. -/
theorem insertTuples_sevens : ∀ (n : Nat) {staged : Staged}, (∀ k, ("counters", k) ∉ staged) →
    ∃ placed, insertTuples noForeignKeys Engine.counters none "counters" "default.counters" ∅ none
      (List.replicate n (sevenRow.map fun d => .literal (readBack d))) staged = (none, .ok placed)
  | 0, staged, _ => ⟨staged, rfl⟩
  | n + 1, staged, hstaged => by
    have hadmitted : admitRow noForeignKeys Engine.counters none none
        (sevenRow.map fun d => .literal (readBack d)) = (none, .ok (1 :: keyInt 7, [.int 7, .int 1])) := by
      rfl
    rw [List.replicate_succ, insertTuples, hadmitted]
    simp only
    rw [if_neg (by simpa using hstaged _)]
    refine insertTuples_sevens n fun k hk => ?_
    rcases ExtTreeMap.mem_insert.mp hk with heq | hk
    · have hname : "default.counters" = "counters" := congrArg Prod.fst (Std.compare_eq_iff_eq.mp heq)
      exact absurd hname (by decide)
    · exact hstaged k hk

theorem resolveTableKey_counters (t : Option Staged) :
    ({ counterConn with txn := t } : Conn).resolveTableKey "counters" = "default.counters" := by
  have hkey : counterConn.resolveTableKey "counters" = "default.counters" := by decide +kernel
  exact hkey

theorem schemas_counters : counterConn.schemas["default.counters"]? = some Engine.counters := by
  simp [counterConn, Engine.counterSchemas]

/-- The first statement is staged. -/
theorem execute_sevens : ∃ placed m, execute openHost 0
    (insertText "counters" none (List.replicate 2000 (tupleText openHost.txt.float sevenRow))) openConn =
      ({ counterConn with txn := some placed }, .ok m) := by
  obtain ⟨placed, hplaced⟩ := insertTuples_sevens 2000 fun _ => ExtTreeMap.not_mem_empty
  have hrows : List.replicate 2000 (tupleText openHost.txt.float sevenRow) =
      (List.replicate 2000 sevenRow).map (tupleText openHost.txt.float) := List.map_replicate.symm
  have hvisible : openConn.visible = ∅ := by simp [Conn.visible, openConn, counterConn, view_empty]
  refine ⟨(∅ : Staged).extend placed, placed.size, ?_⟩
  rw [hrows, execute_counters, execInsert]
  · simp only [counterStmt, openConn, resolveTableKey_counters, schemas_counters, List.map_replicate,
      InsertStmt.indices]
    rw [show ({ counterConn with txn := some ∅ } : Conn).visible = ∅ from hvisible,
      show ({ counterConn with txn := some ∅ } : Conn).autoIncs["default.counters"]? = none by
        simp [counterConn], hplaced]
    rfl
  · exact List.cons_ne_nil sevenRow (List.replicate 1999 sevenRow)
  · intro row hrow
    rw [List.eq_of_mem_replicate hrow]
    simp [sevenRow, noFloat]

/-- The second one is refused. -/
theorem execute_null (t : Staged) : execute openHost 1
    (insertText "counters" none [tupleText openHost.txt.float nullRow]) { counterConn with txn := some t } =
      ({ counterConn with txn := some t }, .error (.err (.notNullViolation "id"))) := by
  have hrun : execute openHost 1 (insertText "counters" none [tupleText openHost.txt.float nullRow])
      { counterConn with txn := some t } =
        execInsert noForeignKeys (counterStmt [nullRow]) { counterConn with txn := some t } :=
    execute_counters [nullRow] (by simp) (by simp [nullRow, noFloat]) 1 _
  rw [hrun, execInsert]
  simp only [counterStmt, resolveTableKey_counters, schemas_counters, InsertStmt.indices]
  rw [show ({ counterConn with txn := some t } : Conn).autoIncs["default.counters"]? = none by
    simp [counterConn]]
  rfl

/-- In a transaction of the client 2000 rows stay staged when the next one has no key. -/
theorem copy_leaves_rows :
    ¬ ∀ h described spec columns msgs c, CopyUndone h described spec columns msgs c := by
  intro hall
  have hundone := hall openHost (.ok [("id", .int), ("n", .int)]) counterSpec [] counterInput openConn
  have hstart : start (.ok [("id", .int), ("n", .int)]) counterSpec [] openConn =
      .ok (⟨counterRunner [] 0, false⟩, openConn) := rfl
  obtain ⟨placed, m, hfirst⟩ := execute_sevens
  have hfails : insertAll openHost 0 counterEnd.inserts openConn =
      ({ counterConn with txn := some placed }, .error (.err (.notNullViolation "id"))) := by
    rw [inserts_counterEnd, insertAll, hfirst]
    simp only
    rw [insertAll, execute_null]
  have hresult : insertAndCommit openHost false counterEnd openConn =
      ({ counterConn with txn := some placed }, .error (.engine (.err (.notNullViolation "id")))) := by
    rw [insertAndCommit, hfails]
  obtain ⟨-, hbad⟩ := ingest_of_some openHost (c := openConn) counterInput ⟨counterRunner [] 0, false⟩
    collected_counters
  have hend := hbad _ (by rw [hresult])
  rw [CopyUndone, runCopyIn, hstart] at hundone
  obtain ⟨-, htxn⟩ := hundone _ (congrArg Prod.snd hend)
  have hsame : (insertAll openHost 0 counterEnd.inserts openConn).1.txn = openConn.txn := by
    rw [hfails]
    simp only [hend, hresult] at htxn
    exact htxn
  rw [inserts_counterEnd] at hsame
  obtain ⟨e, he⟩ := (txn_insertAll openHost (t := ∅) rfl _).mp hsame
  rw [hfirst] at he
  cases he

end HenchDB
