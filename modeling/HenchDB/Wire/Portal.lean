import HenchDB.Wire.Numbered

/-!
# Portals

A client follows its portals from their Binds: which statement the name denoted,
which parameters were bound, and what the Executes of the current run were sent
(`Seen`).  The engine's state at a message is whatever other connections have made
of it.

A portal keeps the name of its statement, so a Parse under that name reaches it
as long as it has not run.  Rows whose cells do not encode are lost together with
the rows sent before them in the same Execute.  A client is regular if neither
happens to it (`Regular`); what it is promised is `Seen.Fixed` and
`SeenRun.Paged`.
-/

namespace HenchDB

open Codec PgConn

variable {σ : Type} {env : PgEnv σ}

/-! ## Replies -/

def dataRows (replies : List Reply) : List (List (Option Bytes)) :=
  replies.filterMap fun r => match r with
    | .dataRow cells => some cells
    | _ => none

/-- The tags of the CommandCompletes of replies. -/
def completions (replies : List Reply) : List String :=
  replies.filterMap fun r => match r with
    | .commandComplete tag => some tag
    | _ => none

def suspended (replies : List Reply) : Prop := replies.getLast? = some .portalSuspended

/-- The rows that an Execute sends from, if the portal runs. -/
def buffered (env : PgEnv σ) (pg : PgConn) (s : σ) (p : PgPortal) : Option Pending :=
  match p.pending with
  | some pending => some pending
  | none =>
    match portalText env pg p with
    | .ok (some (stmt, text)) =>
      match env.execute s text with
      | (s, .ok result) =>
        if result.columns = [] then none
        else
          let cols := resultColumns env s stmt result
          match expandFormats p.resultFormats cols.length with
          | .ok formats => some ⟨cols, result.rows, 0, formats, result.rows.length⟩
          | .error _ => none
      | (_, .error _) => none
    | _ => none

/-! ## What the client sees -/

/-- A run of a portal: the rows of its result as they are sent, and what each Execute of
the run was answered. -/
structure SeenRun where
  full : List (Except String (List (Option Bytes)))
  replies : List (List Reply)

/-- A portal since its Bind. -/
structure Seen where
  /-- The name of the statement, and what it denoted at the Bind. -/
  name : String
  stmt : PgStmt
  params : List (Option Datum)
  /-- The portal has been executed. -/
  started : Bool
  run : Option SeenRun

/-- The rows that a run is to send. -/
def Pending.cells (env : PgEnv σ) (pending : Pending) : List (Except String (List (Option Bytes))) :=
  pending.rows.map (rowCells env pending.cols pending.formats)

/-- The run after an Execute: a suspended one goes on, else a new one begins. -/
def Seen.next (v : Seen) (full : Option (List (Except String (List (Option Bytes)))))
    (replies : List Reply) : Option SeenRun :=
  match v.run with
  | some r =>
    if (r.replies.getLast?.bind List.getLast?) = some .portalSuspended then
      some { r with replies := r.replies ++ [replies] }
    else full.map (⟨·, [replies]⟩)
  | none => full.map (⟨·, [replies]⟩)

def observe (env : PgEnv σ) (pg : PgConn) (s : σ) (seen : String → Option Seen) (m : PgMessage)
    (replies : List Reply) (n : String) : Option Seen :=
  if pg.failed then seen n
  else match m with
    | .bind portal statement params _ =>
      if n = portal ∧ replies = [.bindComplete] then
        match pg.stmts statement with
        | some stmt =>
          match (stmt.oids.zip params).mapM fun x => decodeParam env.floats x.1 x.2 with
          | .ok data => some ⟨statement, stmt, data, false, none⟩
          | .error _ => none
        | none => none
      else seen n
    | .execute portal _ =>
      if n = portal then
        match seen n, pg.portals n with
        | some v, some p =>
          some { v with
            started := true
            run := v.next ((buffered env pg s p).map (Pending.cells env)) replies }
        | v, _ => v
      else seen n
    | .close true name => (seen n).filter fun v => v.name ≠ name
    | .close false name => if n = name then none else seen n
    | _ => seen n

/-- A connection and what its client sees. -/
structure Watched where
  pg : PgConn
  seen : String → Option Seen

/-- A message, handled in a state of the engine. -/
def Watched.step (env : PgEnv σ) (w : Watched) (x : σ × PgMessage) : Watched :=
  let (pg, _, replies) := PgConn.step env w.pg x.1 x.2
  ⟨pg, observe env w.pg x.1 w.seen x.2 replies⟩

/-- A connection that is just open. -/
def Watched.start : Watched := ⟨.start, fun _ => none⟩

/-! ## What the client is promised -/

/-- The first Execute of a portal runs what the name of its statement denoted at the Bind,
with the parameters of the Bind. -/
def Seen.Fixed (env : PgEnv σ) (pg : PgConn) (p : PgPortal) (v : Seen) : Prop :=
  p.pending = none ∧
    ((v.stmt.empty ∧ portalText env pg p = .ok none) ∨
      ¬v.stmt.empty ∧ ∃ text,
        substitute v.stmt.sql v.stmt.offsets (v.params.map (paramLiteral env)) = .ok text ∧
          portalText env pg p = .ok (some (v.stmt, text)))

/-- Every row is sent once, in order; an Execute that leaves rows ends in PortalSuspended,
and the last one in the only CommandComplete. -/
structure SeenRun.Paged (r : SeenRun) : Prop where
  earlier : ∀ replies ∈ r.replies.dropLast, suspended replies ∧ completions replies = []
  /-- The last Execute so far is suspended in front of rows, or it ends the run. -/
  last : ∃ replies ∈ r.replies.getLast?,
    (suspended replies ∧ completions replies = [] ∧
      ∃ rest, rest ≠ [] ∧ r.full = (r.replies.flatMap dataRows).map .ok ++ rest) ∨
    (¬suspended replies ∧ completions replies = [s!"SELECT {r.full.length}"] ∧
      replies.getLast? = some (.commandComplete s!"SELECT {r.full.length}") ∧
        r.full = (r.replies.flatMap dataRows).map .ok)

/-- What holds of every portal. -/
def Watched.Promised (env : PgEnv σ) (w : Watched) : Prop :=
  ∀ n v, w.seen n = some v → ∃ p, w.pg.portals n = some p ∧
    (v.started = false → v.Fixed env w.pg p) ∧ ∀ r, v.run = some r → r.Paged

/-! ## Regular clients -/

/-- No INT column that goes out binary has a number that is no int4. -/
def Pending.Fits (pending : Pending) (row : List Datum) : Prop :=
  ∀ x ∈ (row.zip (pending.cols.map Prod.snd)).zip pending.formats, x.2 ≠ 0 → x.1.2 = .int →
    ∀ v, x.1.1 = .int v → -2 ^ 31 ≤ v.toInt ∧ v.toInt < 2 ^ 31

/-- A message that does not reach a portal behind its Bind: no Parse gives another statement
to the name of one that a portal waits to run, and the rows due fit. -/
def Regular (env : PgEnv σ) (w : Watched) (x : σ × PgMessage) : Prop :=
  w.pg.failed = false →
    match x.2 with
    | .parse name query paramOids =>
      ∀ stmt, parsed env query paramOids = .ok stmt →
        ∀ n v, w.seen n = some v → v.name = name → v.started = false → v.stmt = stmt
    | .execute portal maxRows =>
      ∀ p pending, w.pg.portals portal = some p → buffered env w.pg x.1 p = some pending →
        ∀ row ∈ due pending maxRows, pending.Fits row
    | _ => True

/-! ## Sending rows -/

theorem dataRows_append (replies replies' : List Reply) :
    dataRows (replies ++ replies') = dataRows replies ++ dataRows replies' := List.filterMap_append

theorem completions_append (replies replies' : List Reply) :
    completions (replies ++ replies') = completions replies ++ completions replies' :=
  List.filterMap_append

theorem dataRows_rows (cells : List (List (Option Bytes))) :
    dataRows (cells.map Reply.dataRow) = cells := by
  induction cells with
  | nil => rfl
  | cons c cells ih => exact congrArg (c :: ·) ih

theorem completions_rows (cells : List (List (Option Bytes))) :
    completions (cells.map Reply.dataRow) = [] := by
  induction cells with
  | nil => rfl
  | cons c cells ih => exact ih

theorem exists_mapM_cells {ε α β : Type} {f : α → Except ε β} {l : List α}
    (h : ∀ a ∈ l, ∃ b, f a = .ok b) : ∃ l', l.mapM f = .ok l' := by
  induction l with
  | nil => exact ⟨[], rfl⟩
  | cons a l ih =>
    obtain ⟨b, hb⟩ := h a List.mem_cons_self
    obtain ⟨bs, hbs⟩ := ih fun a ha => h a (List.mem_cons_of_mem _ ha)
    refine ⟨b :: bs, ?_⟩
    rw [List.mapM_cons, hb, hbs]
    rfl

theorem Pending.Fits.cells {pending : Pending} {row : List Datum} (h : pending.Fits row) :
    ∃ cells, rowCells env pending.cols pending.formats row = .ok cells := by
  rw [rowCells]
  split
  · exact ⟨_, rfl⟩
  · refine exists_mapM_cells fun x hx => ?_
    have hx := h x hx
    obtain ⟨⟨d, ctype⟩, fmt⟩ := x
    change ∃ b, (if fmt = 0 then .ok (datumText env.floats d) else
      encodeBinaryCell env.floats d ctype) = .ok b
    by_cases hfmt : fmt = 0
    · exact ⟨_, if_pos hfmt⟩
    rw [if_neg hfmt]
    cases d with
    | null => exact ⟨_, rfl⟩
    | int v =>
      rw [encodeBinaryCell]
      by_cases hint : ctype = .int
      · rw [if_pos hint, if_pos (hx hfmt hint v rfl)]
        exact ⟨_, rfl⟩
      · rw [if_neg hint]
        exact ⟨_, rfl⟩
    | float v =>
      rw [encodeBinaryCell]
      split <;> exact ⟨_, rfl⟩
    | bool b => exact ⟨_, rfl⟩
    | text s => exact ⟨_, rfl⟩
    | dateTime m => exact ⟨_, rfl⟩

theorem sendRows_fits {pending : Pending} {rows : List (List Datum)}
    (h : ∀ row ∈ rows, pending.Fits row) :
    ∃ cells : List (List (Option Bytes)),
      rows.map (rowCells env pending.cols pending.formats) = cells.map .ok ∧
      sendRows env pending.cols pending.formats rows = (cells.map .dataRow, none) := by
  induction rows with
  | nil => exact ⟨[], rfl, rfl⟩
  | cons row rows ih =>
    obtain ⟨c, hc⟩ := @Pending.Fits.cells σ env pending row (h row List.mem_cons_self)
    obtain ⟨cells, hcells, hsent⟩ := ih fun row hrow => h row (List.mem_cons_of_mem _ hrow)
    refine ⟨c :: cells, ?_, ?_⟩
    · rw [List.map_cons, List.map_cons, hc, hcells]
    · rw [sendRows, hc]
      simp only [hsent]
      rfl

theorem due_append (pending : Pending) (maxRows : Nat) :
    ∃ rest, pending.rows.drop pending.pos = due pending maxRows ++ rest := by
  rw [due]
  split
  · exact ⟨[], (List.append_nil _).symm⟩
  · exact ⟨_, (List.take_append_drop maxRows _).symm⟩

/-- A run of which rows are left. -/
structure Midway (env : PgEnv σ) (pending : Pending) (replies : List (List Reply)) : Prop where
  pos : pending.pos ≤ pending.rows.length
  total : pending.total = pending.rows.length
  sent : (replies.flatMap dataRows).map .ok = (pending.cells env).take pending.pos
  pages : ∀ rs ∈ replies, suspended rs ∧ completions rs = []

structure Ended (r : SeenRun) : Prop where
  paged : r.Paged
  last : (r.replies.getLast?.bind List.getLast?) ≠ some .portalSuspended

theorem length_cells (pending : Pending) : (pending.cells env).length = pending.rows.length :=
  List.length_map _

/-- What is sent of a run is in front of what is left. -/
theorem Midway.paged {pending : Pending} {r : SeenRun} (h : Midway env pending r.replies)
    (hfull : r.full = pending.cells env) (hreplies : r.replies ≠ [])
    (hpos : pending.pos < pending.rows.length) : r.Paged where
  earlier := fun rs hrs => h.pages rs (List.dropLast_subset _ hrs)
  last := by
    refine ⟨r.replies.getLast hreplies, List.getLast?_eq_some_getLast hreplies, .inl ?_⟩
    obtain ⟨hsuspended, hnone⟩ := h.pages _ (List.getLast_mem hreplies)
    refine ⟨hsuspended, hnone, (pending.cells env).drop pending.pos, ?_, ?_⟩
    · rw [ne_eq, List.drop_eq_nil_iff, length_cells]
      omega
    · rw [hfull, h.sent, List.take_append_drop]

/-- What one Execute sends of a buffered run. -/
theorem Midway.emit {pending : Pending} {replies : List (List Reply)} {pg : PgConn} {name : String}
    {p : PgPortal} {maxRows : Nat} (h : Midway env pending replies)
    (hfits : ∀ row ∈ due pending maxRows, pending.Fits row) :
    ∃ p' rs, emitRows env pg name p pending maxRows = (pg.setPortal name p', .ok rs) ∧
      p'.stmt = p.stmt ∧ p'.params = p.params ∧
        ((∃ pending', p'.pending = some pending' ∧ pending'.cells env = pending.cells env ∧
          Midway env pending' (replies ++ [rs]) ∧ pending'.pos < pending'.rows.length) ∨
          p'.pending = none ∧ Ended ⟨pending.cells env, replies ++ [rs]⟩) := by
  obtain ⟨cells, hcells, hsend⟩ := @sendRows_fits σ env pending _ hfits
  obtain ⟨rest, hrest⟩ := due_append pending maxRows
  have hlen : cells.length = (due pending maxRows).length := by
    simpa using (congrArg List.length hcells).symm
  have hleft : pending.pos + cells.length + rest.length = pending.rows.length := by
    have := congrArg List.length hrest
    have hpos := h.pos
    rw [List.length_drop, List.length_append] at this
    omega
  -- the cells behind the position are those sent now and those of the rest
  have hdrop : (pending.cells env).drop pending.pos =
      cells.map .ok ++ rest.map (rowCells env pending.cols pending.formats) := by
    rw [Pending.cells, ← List.map_drop, hrest, List.map_append, hcells]
  have hfull : pending.cells env = ((replies.flatMap dataRows) ++ cells).map .ok ++
      rest.map (rowCells env pending.cols pending.formats) := by
    rw [List.map_append, h.sent, List.append_assoc, ← hdrop, List.take_append_drop]
  have hsent (description final : List Reply) (hd : dataRows description = [])
      (hf : dataRows final = []) :
      (replies ++ [description ++ cells.map Reply.dataRow ++ final]).flatMap dataRows =
        replies.flatMap dataRows ++ cells := by
    rw [List.flatMap_append, List.flatMap_singleton, dataRows_append, dataRows_append, hd, hf,
      dataRows_rows, List.nil_append, List.append_nil]
  let description : List Reply :=
    if p.described then [] else [.rowDescription pending.cols pending.formats]
  have hdescription : dataRows description = [] ∧ completions description = [] := by
    simp only [description]
    split <;> exact ⟨rfl, rfl⟩
  rw [emitRows]
  simp only [hsend, List.length_map]
  by_cases hmore : pending.pos + cells.length < pending.rows.length
  · rw [if_pos hmore]
    refine ⟨_, _, rfl, rfl, rfl, .inl ⟨_, rfl, rfl, ?_, hmore⟩⟩
    constructor
    · exact Nat.le_of_lt hmore
    · exact h.total
    · rw [hsent _ [.portalSuspended] hdescription.1 rfl]
      change _ = (pending.cells env).take (pending.pos + cells.length)
      rw [hfull, List.take_left']
      have := congrArg List.length h.sent
      rw [List.length_map, List.length_take, length_cells] at this
      have hpos := h.pos
      rw [List.length_map, List.length_append]
      omega
    · intro rs hrs
      obtain hrs | hrs := List.mem_append.mp hrs
      · exact h.pages rs hrs
      · cases List.mem_singleton.mp hrs
        refine ⟨List.getLast?_concat, ?_⟩
        rw [completions_append, completions_append, hdescription.2, completions_rows]
        rfl
  · rw [if_neg hmore]
    have hnil : rest = [] := List.length_eq_zero_iff.mp (by omega)
    subst hnil
    rw [List.map_nil, List.append_nil] at hfull
    have htotal : (pending.cells env).length = pending.total := by rw [length_cells, h.total]
    refine ⟨_, _, rfl, rfl, rfl, .inr ⟨rfl, ?_, ?_⟩⟩
    · constructor
      · intro rs hrs
        rw [List.dropLast_concat] at hrs
        exact h.pages rs hrs
      · refine ⟨_, List.getLast?_concat, .inr ⟨?_, ?_, ?_, ?_⟩⟩
        · rw [suspended, List.getLast?_concat]
          simp
        · rw [completions_append, completions_append, hdescription.2, completions_rows, htotal]
          rfl
        · rw [List.getLast?_concat, htotal]
        · rw [hsent _ [.commandComplete _] hdescription.1 rfl]
          exact hfull
    · rw [List.getLast?_concat, Option.bind_some, List.getLast?_concat]
      simp

/-! ## Runs -/

def RegularRun (env : PgEnv σ) : Watched → List (σ × PgMessage) → Prop
  | _, [] => True
  | w, x :: xs => Regular env w x ∧ RegularRun env (w.step env x) xs

/-! ## What every message keeps -/

/-- What a client sees of a portal is what the connection knows of it. -/
structure Tracks (env : PgEnv σ) (pg : PgConn) (p : PgPortal) (v : Seen) : Prop where
  name : p.stmt = v.name
  params : p.params = v.params
  fresh : v.started = false → p.pending = none ∧ v.run = none ∧ pg.stmts v.name = some v.stmt ∧
    v.stmt.offsets.length = v.params.length
  idle : p.pending = none → ∀ r, v.run = some r → Ended r
  midway : ∀ pending, p.pending = some pending → ∃ r, v.run = some r ∧ r.full = pending.cells env ∧
    r.replies ≠ [] ∧ Midway env pending r.replies ∧ pending.pos < pending.rows.length

/-- What holds of every portal, seen or not. -/
structure WatchOk (env : PgEnv σ) (w : Watched) : Prop where
  stmts : ∀ name stmt, w.pg.stmts name = some stmt → stmt.oids.length = stmt.offsets.length
  seen : ∀ n v, w.seen n = some v → ∃ p, w.pg.portals n = some p ∧ Tracks env w.pg p v
  bound : ∀ n p, w.pg.portals n = some p → ∃ v, w.seen n = some v

namespace Tracks

variable {pg pg' : PgConn} {p p' : PgPortal} {v : Seen}

theorem fixed (h : Tracks env pg p v) (hstarted : v.started = false) : v.Fixed env pg p := by
  obtain ⟨hpending, -, hstmt, hlen⟩ := h.fresh hstarted
  refine ⟨hpending, ?_⟩
  rw [portalText, h.name, hstmt, h.params]
  cases hempty : v.stmt.empty with
  | true => exact .inl ⟨rfl, by simp [hempty]⟩
  | false =>
    refine .inr ⟨by simp, substituteFrom v.stmt.sql 0
      (v.stmt.offsets.zip (v.params.map (paramLiteral env))), ?_, ?_⟩
    · rw [substitute, if_neg (by rw [List.length_map, hlen]; exact not_not.mpr rfl)]
    · simp only [hempty, Bool.false_eq_true, if_false]
      rw [substitute, if_neg (by rw [List.length_map, hlen]; exact not_not.mpr rfl)]

theorem paged (h : Tracks env pg p v) {r : SeenRun} (hr : v.run = some r) : r.Paged := by
  cases hpending : p.pending with
  | none => exact (h.idle hpending r hr).paged
  | some pending =>
    obtain ⟨r', hr', hfull, hreplies, hmidway, hpos⟩ := h.midway pending hpending
    rw [hr, Option.some.injEq] at hr'
    subst hr'
    exact hmidway.paged hfull hreplies hpos

/-- What a portal shows is its statement, its parameters and its buffered rows. -/
theorem congr (h : Tracks env pg p v) (hname : p'.stmt = p.stmt) (hparams : p'.params = p.params)
    (hpending : p'.pending = p.pending)
    (hstmts : v.started = false → pg.stmts v.name = some v.stmt → pg'.stmts v.name = some v.stmt) :
    Tracks env pg' p' v where
  name := hname.trans h.name
  params := hparams.trans h.params
  fresh := by
    intro hstarted
    obtain ⟨hnone, hrun, hstmt, hlen⟩ := h.fresh hstarted
    exact ⟨hpending.trans hnone, hrun, hstmts hstarted hstmt, hlen⟩
  idle := by rw [hpending]; exact h.idle
  midway := by rw [hpending]; exact h.midway

end Tracks

theorem WatchOk.promised {w : Watched} (h : WatchOk env w) : w.Promised env := by
  intro n v hv
  obtain ⟨p, hp, htracks⟩ := h.seen n v hv
  exact ⟨p, hp, htracks.fixed, fun r hr => htracks.paged hr⟩

theorem watchOk_start : WatchOk env .start where
  stmts := by rintro name stmt ⟨⟩
  seen := by rintro n v ⟨⟩
  bound := by rintro n p ⟨⟩

section Messages

variable {w : Watched} {s : σ}

/-- Only whether a connection has failed is changed by an answer. -/
theorem answer_fields (pg : PgConn) (out : Except PgError (List Reply)) :
    (pg.answer out).1.stmts = pg.stmts ∧ (pg.answer out).1.portals = pg.portals := by
  cases out <;> exact ⟨rfl, rfl⟩

/-- Nothing else of a connection matters. -/
theorem WatchOk.congr {w' : Watched} (h : WatchOk env w) (hstmts : w'.pg.stmts = w.pg.stmts)
    (hportals : w'.pg.portals = w.pg.portals) (hseen : w'.seen = w.seen) : WatchOk env w' where
  stmts := by rw [hstmts]; exact h.stmts
  seen := by
    rw [hseen, hportals]
    intro n v hv
    obtain ⟨p, hp, htracks⟩ := h.seen n v hv
    exact ⟨p, hp, htracks.congr rfl rfl rfl (by rw [hstmts]; exact fun _ h => h)⟩
  bound := by rw [hseen, hportals]; exact h.bound

theorem length_oids_of_parsed {query : String} {paramOids : List Nat} {stmt : PgStmt}
    (h : parsed env query paramOids = .ok stmt) : stmt.oids.length = stmt.offsets.length := by
  rw [parsed] at h
  by_cases hblank : trim query.toList = []
  · rw [if_pos hblank] at h
    cases h
    rfl
  rw [if_neg hblank] at h
  cases hmarkers : pgToMarkers query with
  | error m =>
    rw [hmarkers] at h
    cases h
  | ok r =>
    simp only [hmarkers] at h
    split at h
    · cases h
    · next hlen =>
      split at h
      · cases h
      · cases h
        simp only [List.length_take, List.length_append, List.length_replicate]
        have := not_not.mp hlen
        omega

variable {name portal : String} {p : PgPortal} {v : Seen} {pg : PgConn} {pending : Pending}

/-- A statement under a name that no fresh portal waits for, or the same statement. -/
theorem WatchOk.setStmt {stmt : PgStmt} (h : WatchOk env w)
    (hlen : stmt.oids.length = stmt.offsets.length)
    (hsame : ∀ n v, w.seen n = some v → v.name = name → v.started = false → v.stmt = stmt) :
    WatchOk env ⟨w.pg.setStmt name stmt, w.seen⟩ where
  stmts := by
    intro name' stmt' hstmt'
    change (if name' = name then some stmt else w.pg.stmts name') = some stmt' at hstmt'
    by_cases hname : name' = name
    · rw [if_pos hname, Option.some.injEq] at hstmt'
      exact hstmt' ▸ hlen
    · rw [if_neg hname] at hstmt'
      exact h.stmts name' stmt' hstmt'
  seen := by
    intro n v hv
    obtain ⟨p, hp, htracks⟩ := h.seen n v hv
    refine ⟨p, hp, htracks.congr rfl rfl rfl fun hstarted hstmt => ?_⟩
    change (if v.name = name then some stmt else w.pg.stmts v.name) = some v.stmt
    by_cases hname : v.name = name
    · rw [if_pos hname, hsame n v hv hname hstarted]
    · rw [if_neg hname, hstmt]
  bound := h.bound

theorem WatchOk.setPortal {seen : String → Option Seen} (h : WatchOk env w)
    (hv : seen name = some v) (hseen : ∀ n, n ≠ name → seen n = w.seen n)
    (htracks : Tracks env (w.pg.setPortal name p) p v) :
    WatchOk env ⟨w.pg.setPortal name p, seen⟩ where
  stmts := h.stmts
  seen := by
    intro n v' hv'
    change seen n = some v' at hv'
    by_cases hn : n = name
    · subst hn
      rw [hv, Option.some.injEq] at hv'
      subst hv'
      exact ⟨p, if_pos rfl, htracks⟩
    · rw [hseen n hn] at hv'
      obtain ⟨p', hp', htracks'⟩ := h.seen n v' hv'
      exact ⟨p', (if_neg hn).trans hp', htracks'.congr rfl rfl rfl fun _ h => h⟩
  bound := by
    intro n p' hp'
    by_cases hn : n = name
    · subst hn
      exact ⟨v, hv⟩
    · rw [show (w.pg.setPortal name p).portals n = w.pg.portals n from if_neg hn] at hp'
      obtain ⟨v', hv'⟩ := h.bound n p' hp'
      exact ⟨v', (hseen n hn).trans hv'⟩

theorem WatchOk.parse {query : String} {paramOids : List Nat} (h : WatchOk env w)
    (hfailed : w.pg.failed = false) (hreg : Regular env w (s, .parse name query paramOids)) :
    WatchOk env (w.step env (s, .parse name query paramOids)) := by
  have hseen (replies : List Reply) :
      observe env w.pg s w.seen (.parse name query paramOids) replies = w.seen := by
    funext n
    simp [observe, hfailed]
  rw [Watched.step, PgConn.step, if_neg (by simp [hfailed])]
  simp only [onParse, hseen]
  cases hparsed : parsed env query paramOids with
  | error e => exact h.congr rfl rfl rfl
  | ok stmt => exact h.setStmt (length_oids_of_parsed hparsed) (hreg hfailed stmt hparsed)

/-- A Bind that fails changes nothing. -/
theorem onBind_error {pg' : PgConn} {statement : String} {params : List BoundParam}
    {formats : List Int} {e : PgError}
    (h : onBind env pg portal statement params formats = (pg', .error e)) : pg' = pg := by
  rw [onBind] at h
  split at h
  · cases h
    rfl
  · split at h
    · cases h
      rfl
    · split at h
      · cases h
        rfl
      · cases h

theorem WatchOk.bind {statement : String} {params : List BoundParam} {formats : List Int}
    (h : WatchOk env w) (hfailed : w.pg.failed = false) :
    WatchOk env (w.step env (s, .bind portal statement params formats)) := by
  rw [Watched.step, PgConn.step, if_neg (by simp [hfailed])]
  cases hbind : onBind env w.pg portal statement params formats with
  | mk pg' out =>
    cases out with
    | error e =>
      obtain rfl := onBind_error hbind
      refine h.congr rfl rfl (funext fun n => ?_)
      simp [observe, hfailed, answer]
    | ok replies =>
      obtain ⟨stmt, data, hstmt, hlen, hdata, rfl⟩ := onBind_ok hbind
      rw [onBind_of hstmt hlen hdata] at hbind
      cases hbind
      refine h.setPortal (v := ⟨statement, stmt, data, false, none⟩) ?_ (fun n hn => ?_) ?_
      · simp only [observe, hfailed, Bool.false_eq_true, if_false, true_and, if_true, hstmt, hdata]
      · simp only [observe, hfailed, Bool.false_eq_true, if_false, hn, false_and]
      · refine ⟨rfl, rfl, fun _ => ⟨rfl, rfl, hstmt, ?_⟩, fun _ r hr => ?_, fun pending hp => ?_⟩
        · have hoids := h.stmts statement stmt hstmt
          change stmt.offsets.length = data.length
          rw [length_of_mapM_ok hdata, List.length_zip]
          omega
        · cases hr
        · cases hp

theorem WatchOk.describe {ofStmt : Bool} (h : WatchOk env w) (hfailed : w.pg.failed = false) :
    WatchOk env (w.step env (s, .describe ofStmt name)) := by
  have hseen (replies : List Reply) :
      observe env w.pg s w.seen (.describe ofStmt name) replies = w.seen := by
    funext n
    simp [observe, hfailed]
  rw [Watched.step, PgConn.step, if_neg (by simp [hfailed])]
  simp only [hseen]
  rw [onDescribe]
  split
  · split
    · exact h.congr rfl rfl rfl
    · split
      · exact h
      · constructor
        · exact h.stmts
        · intro n v hv
          obtain ⟨p, hp, htracks⟩ := h.seen n v hv
          refine ⟨if p.stmt = name then { p with described := true } else p, ?_, ?_⟩
          · change (w.pg.portals n).map _ = _
            rw [hp]
            rfl
          · split
            · exact htracks.congr rfl rfl rfl fun _ h => h
            · exact htracks.congr rfl rfl rfl fun _ h => h
        · intro n p hp
          obtain ⟨p', hp', -⟩ := Option.map_eq_some_iff.mp hp
          exact h.bound n p' hp'
  · split
    · exact h.congr rfl rfl rfl
    · split
      · exact h.congr rfl rfl rfl
      · exact h

theorem WatchOk.close {ofStmt : Bool} (h : WatchOk env w) (hfailed : w.pg.failed = false) :
    WatchOk env (w.step env (s, .close ofStmt name)) := by
  rw [Watched.step, PgConn.step, if_neg (by simp [hfailed])]
  cases ofStmt with
  | true =>
    have hseen (replies : List Reply) : observe env w.pg s w.seen (.close true name) replies =
        fun n => (w.seen n).filter fun v => v.name ≠ name := by
      funext n
      simp [observe, hfailed]
    simp only [hseen, onClose, if_true, answer]
    constructor
    · intro name' stmt hstmt
      by_cases hname : name' = name
      · simp [hname] at hstmt
      · simp only [hname, if_false] at hstmt
        exact h.stmts name' stmt hstmt
    · intro n v hv
      obtain ⟨hv, hname⟩ := Option.filter_eq_some_iff.mp hv
      rw [decide_eq_true_iff] at hname
      obtain ⟨p, hp, htracks⟩ := h.seen n v hv
      refine ⟨p, ?_, htracks.congr rfl rfl rfl fun _ hstmt => ?_⟩
      · simp only [hp, Option.filter_some, htracks.name, hname, ne_eq, not_false_eq_true,
          decide_true, if_true]
      · simp only [hname, if_false]
        exact hstmt
    · intro n p hp
      obtain ⟨hp, hname⟩ := Option.filter_eq_some_iff.mp hp
      obtain ⟨v, hv⟩ := h.bound n p hp
      obtain ⟨p', hp', htracks⟩ := h.seen n v hv
      rw [hp, Option.some.injEq] at hp'
      subst hp'
      refine ⟨v, ?_⟩
      rw [htracks.name] at hname
      simp only [hv, Option.filter_some, hname, if_true]
  | false =>
    have hseen (replies : List Reply) : observe env w.pg s w.seen (.close false name) replies =
        fun n => if n = name then none else w.seen n := by
      funext n
      simp [observe, hfailed]
    simp only [hseen, onClose, Bool.false_eq_true, if_false, answer]
    constructor
    · exact h.stmts
    · intro n v hv
      by_cases hn : n = name
      · simp [hn] at hv
      · simp only [hn, if_false] at hv ⊢
        obtain ⟨p, hp, htracks⟩ := h.seen n v hv
        exact ⟨p, hp, htracks.congr rfl rfl rfl fun _ h => h⟩
    · intro n p hp
      by_cases hn : n = name
      · simp [hn] at hp
      · simp only [hn, if_false] at hp ⊢
        exact h.bound n p hp

theorem onExecute_of_buffered (maxRows : Nat) (hp : pg.portals portal = some p)
    (hb : buffered env pg s p = some pending) :
    ∃ s', onExecute env pg s portal maxRows =
      ((emitRows env pg portal p pending maxRows).1, s', (emitRows env pg portal p pending maxRows).2) := by
  rw [onExecute, hp]
  rw [buffered] at hb
  cases hpending : p.pending with
  | some pending' =>
    rw [hpending] at hb
    cases hb
    exact ⟨s, by simp only [hpending]⟩
  | none =>
    simp only [hpending] at hb ⊢
    cases htext : portalText env pg p with
    | error e =>
      rw [htext] at hb
      cases hb
    | ok ran =>
      cases ran with
      | none =>
        rw [htext] at hb
        cases hb
      | some ran =>
        obtain ⟨stmt, text⟩ := ran
        rcases hexec : env.execute s text with ⟨s', result⟩
        simp only [htext, hexec] at hb ⊢
        cases result with
        | error e => cases hb
        | ok result =>
          simp only at hb ⊢
          by_cases hcols : result.columns = []
          · rw [if_pos hcols] at hb
            cases hb
          · rw [if_neg hcols] at hb
            rw [onResult]
            simp only [hcols, if_false]
            split at hb
            · next formats hformats =>
              cases hb
              rw [hformats]
              exact ⟨s', rfl⟩
            · cases hb

/-- A run that begins has sent nothing. -/
theorem buffered_fresh (hpending : p.pending = none) (hb : buffered env pg s p = some pending) :
    pending.pos = 0 ∧ pending.total = pending.rows.length := by
  rw [buffered, hpending] at hb
  simp only at hb
  split at hb
  · split at hb
    · split at hb
      · cases hb
      · split at hb
        · cases hb
          exact ⟨rfl, rfl⟩
        · cases hb
    · cases hb
  · cases hb

theorem onExecute_of_not_buffered (maxRows : Nat) (hp : pg.portals portal = some p)
    (hb : buffered env pg s p = none) :
    p.pending = none ∧ (onExecute env pg s portal maxRows).1 = pg := by
  rw [onExecute, hp]
  rw [buffered] at hb
  cases hpending : p.pending with
  | some pending' =>
    rw [hpending] at hb
    cases hb
  | none =>
    refine ⟨rfl, ?_⟩
    simp only [hpending] at hb ⊢
    cases htext : portalText env pg p with
    | error e => rfl
    | ok ran =>
      cases ran with
      | none => rfl
      | some ran =>
        obtain ⟨stmt, text⟩ := ran
        rcases hexec : env.execute s text with ⟨s', result⟩
        simp only [htext, hexec] at hb ⊢
        cases result with
        | error e => rfl
        | ok result =>
          simp only at hb ⊢
          rw [onResult]
          by_cases hcols : result.columns = []
          · simp only [hcols, if_true]
          · rw [if_neg hcols] at hb
            simp only [hcols, if_false]
            split at hb
            · cases hb
            · next hformats =>
              rw [hformats]

theorem observe_execute (maxRows : Nat) {replies : List Reply} (hfailed : w.pg.failed = false)
    (hv : w.seen portal = some v) (hp : w.pg.portals portal = some p) :
    observe env w.pg s w.seen (.execute portal maxRows) replies portal =
      some { v with
        started := true
        run := v.next ((buffered env w.pg s p).map (Pending.cells env)) replies } := by
  simp only [observe, hfailed, Bool.false_eq_true, if_false, if_true, hv, hp]

theorem observe_execute_of_ne {n : String} (maxRows : Nat) {replies : List Reply} (hn : n ≠ portal) :
    observe env w.pg s w.seen (.execute portal maxRows) replies n = w.seen n := by
  simp [observe, hn]

theorem Seen.next_of_ended (hv : ∀ r, v.run = some r → Ended r)
    (full : Option (List (Except String (List (Option Bytes))))) (replies : List Reply) :
    v.next full replies = full.map (⟨·, [replies]⟩) := by
  rw [Seen.next]
  cases hrun : v.run with
  | none => rfl
  | some r => exact if_neg (hv r hrun).last

theorem Seen.next_of_midway {r : SeenRun} (hr : v.run = some r)
    (hmidway : Midway env pending r.replies) (hreplies : r.replies ≠ [])
    (full : Option (List (Except String (List (Option Bytes))))) (replies : List Reply) :
    v.next full replies = some { r with replies := r.replies ++ [replies] } := by
  have hlast := (hmidway.pages _ (List.getLast_mem hreplies)).1
  rw [Seen.next, hr]
  refine if_pos ?_
  rw [List.getLast?_eq_some_getLast hreplies]
  exact hlast

theorem WatchOk.executed {portal : String} {maxRows : Nat} {pg' : PgConn} {replies : List Reply}
    {p : PgPortal} {v : Seen} (p' : PgPortal) (h : WatchOk env w) (hfailed : w.pg.failed = false)
    (hv : w.seen portal = some v) (hp : w.pg.portals portal = some p)
    (hstmts : pg'.stmts = w.pg.stmts)
    (hportals : ∀ n, pg'.portals n = if n = portal then some p' else w.pg.portals n)
    (htracks : Tracks env pg' p' { v with
      started := true
      run := v.next ((buffered env w.pg s p).map (Pending.cells env)) replies }) :
    WatchOk env ⟨pg', observe env w.pg s w.seen (.execute portal maxRows) replies⟩ where
  stmts := by
    simp only [hstmts]
    exact h.stmts
  seen := by
    intro n v' hv'
    by_cases hn : n = portal
    · subst hn
      change observe env w.pg s w.seen (.execute n maxRows) replies n = some v' at hv'
      rw [observe_execute maxRows hfailed hv hp, Option.some.injEq] at hv'
      subst hv'
      exact ⟨p', (hportals n).trans (if_pos rfl), htracks⟩
    · have hsame : observe env w.pg s w.seen (.execute portal maxRows) replies n = w.seen n :=
        observe_execute_of_ne maxRows hn
      replace hv' : w.seen n = some v' := hsame.symm.trans hv'
      obtain ⟨p'', hp'', htracks'⟩ := h.seen n v' hv'
      refine ⟨p'', ((hportals n).trans (if_neg hn)).trans hp'', htracks'.congr rfl rfl rfl ?_⟩
      simp only [hstmts]
      exact fun _ h => h
  bound := by
    intro n p'' hp''
    by_cases hn : n = portal
    · subst hn
      exact ⟨_, observe_execute maxRows hfailed hv hp⟩
    · have hold := (hportals n).trans (if_neg hn)
      obtain ⟨v', hv'⟩ := h.bound n p'' (hold.symm.trans hp'')
      exact ⟨v', (observe_execute_of_ne maxRows hn).trans hv'⟩

theorem WatchOk.execute {portal : String} {maxRows : Nat} (h : WatchOk env w)
    (hfailed : w.pg.failed = false) (hreg : Regular env w (s, .execute portal maxRows)) :
    WatchOk env (w.step env (s, .execute portal maxRows)) := by
  rw [Watched.step, PgConn.step, if_neg (by simp [hfailed])]
  simp only
  cases hp : w.pg.portals portal with
  | none =>
    have hseen : w.seen portal = none := by
      rw [Option.eq_none_iff_forall_ne_some]
      intro v hv
      obtain ⟨p, hp', -⟩ := h.seen portal v hv
      rw [hp] at hp'
      cases hp'
    have hstep : onExecute env w.pg s portal maxRows =
        (w.pg, s, .error ("34000", "portal \"" ++ portal ++ "\" does not exist")) := by
      rw [onExecute, hp]
    rw [hstep]
    refine h.congr rfl rfl (funext fun n => ?_)
    by_cases hn : n = portal
    · subst hn
      simp only [observe, hfailed, Bool.false_eq_true, if_false, if_true, hseen]
    · exact observe_execute_of_ne maxRows hn
  | some p =>
    obtain ⟨v, hv⟩ := h.bound portal p hp
    obtain ⟨p', hp', htracks⟩ := h.seen portal v hv
    rw [hp, Option.some.injEq] at hp'
    subst hp'
    cases hb : buffered env w.pg s p with
    | none =>
      -- nothing is sent: an error, or a statement without rows
      obtain ⟨hpending, hsame⟩ := onExecute_of_not_buffered maxRows hp hb
      obtain ⟨hstmts, hportals⟩ := answer_fields (onExecute env w.pg s portal maxRows).1
        (onExecute env w.pg s portal maxRows).2.2
      refine h.executed p hfailed hv hp (hstmts.trans (congrArg _ hsame)) (fun n => ?_) ?_
      · rw [hportals, hsame]
        split
        · next hn => rw [hn, hp]
        · rfl
      · rw [hb, Option.map_none, Seen.next_of_ended (htracks.idle hpending)]
        refine ⟨htracks.name, htracks.params, fun hs => (by cases hs), ?_, ?_⟩
        · rintro _ r ⟨⟩
        · rw [hpending]
          rintro pending ⟨⟩
    | some pending =>
      have hfits := hreg hfailed p pending hp hb
      obtain ⟨s', hexec⟩ := onExecute_of_buffered maxRows hp hb
      -- the answers of the run so far
      obtain ⟨earlier, hmidway, hnext⟩ : ∃ earlier, Midway env pending earlier ∧ ∀ replies,
          v.next (some (pending.cells env)) replies =
            some ⟨pending.cells env, earlier ++ [replies]⟩ := by
        cases hpending : p.pending with
        | none =>
          obtain ⟨hpos, htotal⟩ := buffered_fresh hpending hb
          refine ⟨[], ⟨hpos ▸ Nat.zero_le _, htotal, by rw [hpos]; rfl, fun rs hrs => ?_⟩,
            fun replies => Seen.next_of_ended (htracks.idle hpending) _ _⟩
          cases hrs
        | some pending' =>
          rw [buffered, hpending] at hb
          cases hb
          obtain ⟨r, hr, hfull, hreplies, hmidway, hpos⟩ := htracks.midway pending hpending
          refine ⟨r.replies, hmidway, fun replies => ?_⟩
          rw [Seen.next_of_midway hr hmidway hreplies, ← hfull]
      obtain ⟨p', rs, hemit, hname, hparams, hpending'⟩ :=
        @Midway.emit σ env pending earlier w.pg portal p maxRows hmidway hfits
      rw [hexec, hemit]
      refine h.executed p' hfailed hv hp rfl (fun n => rfl) ?_
      rw [hb, Option.map_some]
      change Tracks env (w.pg.setPortal portal p') p'
        { v with started := true, run := v.next (some (pending.cells env)) rs }
      rw [hnext]
      refine ⟨hname.trans htracks.name, hparams.trans htracks.params, fun hs => (by cases hs),
        fun hnone r hr => ?_, fun pending'' hp'' => ?_⟩
      · cases hr
        obtain ⟨pending', hsome, -⟩ | ⟨-, hended⟩ := hpending'
        · rw [hnone] at hsome
          cases hsome
        · exact hended
      · obtain ⟨pending', hsome, hcells, hmidway', hpos⟩ | ⟨hnone, -⟩ := hpending'
        · rw [hsome, Option.some.injEq] at hp''
          subst hp''
          exact ⟨_, rfl, hcells.symm, by simp, hmidway', hpos⟩
        · rw [hnone] at hp''
          cases hp''

/-- What is seen of every portal stays right. -/
theorem WatchOk.step {x : σ × PgMessage} (h : WatchOk env w) (hreg : Regular env w x) :
    WatchOk env (w.step env x) := by
  obtain ⟨s, m⟩ := x
  cases hfailed : w.pg.failed with
  | true =>
    -- an error makes the connection skip to the next Sync
    have hseen (replies : List Reply) : observe env w.pg s w.seen m replies = w.seen := by
      funext n
      simp only [observe, hfailed, if_true]
    rw [Watched.step, PgConn.step.eq_def]
    by_cases hsync : m = .sync
    · subst hsync
      rw [if_neg (by simp)]
      exact h.congr rfl rfl (hseen [.readyForQuery (env.inTransaction s)])
    · rw [if_pos ⟨hfailed, hsync⟩]
      exact h.congr rfl rfl (hseen [])
  | false =>
    cases m with
    | parse name query paramOids => exact h.parse hfailed hreg
    | bind portal statement params formats => exact h.bind hfailed
    | describe ofStmt name => exact h.describe hfailed
    | execute portal maxRows => exact h.execute hfailed hreg
    | close ofStmt name => exact h.close hfailed
    | sync =>
      simp only [Watched.step, PgConn.step]
      rw [if_neg (by simp)]
      refine h.congr rfl rfl (funext fun n => ?_)
      simp [observe]

end Messages

theorem WatchOk.run {w : Watched} (h : WatchOk env w) {xs : List (σ × PgMessage)}
    (hregular : RegularRun env w xs) : WatchOk env (xs.foldl (Watched.step env) w) := by
  induction xs generalizing w with
  | nil => exact h
  | cons x xs ih => exact ih (h.step hregular.1) hregular.2

/-- In every run of regular messages the first Execute of a portal runs what was bound, and
its rows are paged without loss. -/
theorem portals_promised (env : PgEnv σ) {xs : List (σ × PgMessage)}
    (hregular : RegularRun env .start xs) :
    (xs.foldl (Watched.step env) .start).Promised env :=
  (watchOk_start.run hregular).promised

/-- A Parse between the Bind and the Execute: another statement is run. -/
theorem parse_reaches_portal :
    ¬∀ (env : PgEnv Unit) (xs : List (Unit × PgMessage)),
      (xs.foldl (Watched.step env) .start).Promised env := by
  intro h
  let xs : List (Unit × PgMessage) := [((), .parse "" "DELETE FROM t WHERE a = 1" []),
    ((), .bind "p" "" [] []), ((), .parse "" "DELETE FROM t" [])]
  let bound : PgStmt := ⟨"DELETE FROM t WHERE a = 1".toList, [], [], false⟩
  let other : PgStmt := ⟨"DELETE FROM t".toList, [], [], false⟩
  have hseen : (xs.foldl (Watched.step quietEnv) .start).seen "p" = some ⟨"", bound, [], false, none⟩ := by
    rfl
  have hportal : (xs.foldl (Watched.step quietEnv) .start).pg.portals "p" =
      some ⟨"", [], [], false, none⟩ := by rfl
  have hstmt : (xs.foldl (Watched.step quietEnv) .start).pg.stmts "" = some other := by rfl
  obtain ⟨p, hp, hfixed, -⟩ := h quietEnv xs "p" _ hseen
  rw [hportal, Option.some.injEq] at hp
  subst hp
  obtain ⟨-, ⟨hempty, -⟩ | ⟨-, text, -, htext⟩⟩ := hfixed rfl
  · cases hempty
  · rw [portalText, hstmt] at htext
    have hran : Except.ok (some (other, other.sql)) = Except.ok (some (bound, text)) := htext
    rw [Except.ok.injEq, Option.some.injEq, Prod.mk.injEq] at hran
    exact absurd hran.1 (by decide)

def rowsEnv : PgEnv Unit :=
  { quietEnv with
    execute := fun s _ => (s, .ok ⟨["a"], [[.int 1], [.int 2], [.int 3]], "3 row(s)"⟩) }

theorem portals_promised_rows :
    ([((), .parse "" "SELECT a FROM t" []), ((), .bind "p" "" [] []), ((), .execute "p" 2),
      ((), .execute "p" 2)].foldl (Watched.step rowsEnv) .start).Promised rowsEnv := by
  refine portals_promised rowsEnv ⟨fun _ => ?_, fun _ => trivial, fun _ => ?_, fun _ => ?_, trivial⟩
  · rintro stmt - n v ⟨⟩
  · rintro p pending ⟨⟩ ⟨⟩ row hrow x hx hfmt
    exact absurd (List.mem_singleton.mp (List.of_mem_zip hx).2) hfmt
  · rintro p pending ⟨⟩ ⟨⟩ row hrow x hx hfmt
    exact absurd (List.mem_singleton.mp (List.of_mem_zip hx).2) hfmt

end HenchDB
