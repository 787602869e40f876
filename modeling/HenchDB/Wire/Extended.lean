import HenchDB.Wire.Copy
import HenchDB.Wire.Bind
import HenchDB.Query.Scope

/-!
# The extended query protocol

A client parses a text into a statement, binds values to a statement in a
portal, and executes the portal, maybe a few rows at a time.  Statements and
portals have names; the portal keeps the name of its statement
(`PgPortal.stmt`), and `portalText` looks it up when the portal is run.

`pgScan` reads the placeholders `$1`, `$2` of a query.  It works on bytes and
copies every other byte as a character of its own.

The engine is a parameter: the grammar behind the lexer, the execution of a text
and the columns it describes.
-/

namespace HenchDB

open Codec

/-! ## Placeholders -/

/-- What the scanner of the placeholders is inside of. -/
inductive PgZone where
  | top
  | quoted (q : UInt8)
  | comment
  | block
deriving DecidableEq

/-- What the scanner writes: a byte of the query or a marker for a placeholder. -/
inductive PgItem where
  | byte (b : UInt8)
  | param (n : Nat)
deriving DecidableEq, Repr

/-- `b as char`. -/
def charOf (b : UInt8) : Char := Char.ofNat b.toNat

def isQuoteByte (b : UInt8) : Bool := b = byteOf '\'' || b = byteOf '"' || b = byteOf '`'

/-- `u8::is_ascii_digit`. -/
def isDigitByte (b : UInt8) : Bool := byteOf '0' ≤ b && b ≤ byteOf '9'

def decimal (bs : Bytes) : Nat := bs.foldl (fun n b => 10 * n + (b.toNat - 48)) 0

def placeholderNumber (digits : Bytes) : Except String Nat :=
  if digits = [] then .error "trailing $ in query"
  else if 2 ^ 64 ≤ decimal digits then .error "bad placeholder"
  else if decimal digits = 0 then .error "placeholder $0 out of range"
  else .ok (decimal digits)

/-- The loop of `pg_to_markers`; the count is of bytes that have been taken already. -/
def pgScan : Nat → PgZone → Bytes → Except String (List PgItem)
  | _, _, [] => .ok []
  | k + 1, z, _ :: bs => pgScan k z bs
  | 0, .quoted q, b :: bs =>
    if b = q then
      if bs.head? = some q then (pgScan 1 (.quoted q) bs).map (.byte b :: .byte q :: ·)
      else (pgScan 0 .top bs).map (.byte b :: ·)
    else (pgScan 0 (.quoted q) bs).map (.byte b :: ·)
  | 0, .comment, b :: bs =>
    (pgScan 0 (if b = byteOf '\n' then .top else .comment) bs).map (.byte b :: ·)
  | 0, .block, b :: bs =>
    if b = byteOf '*' ∧ bs.head? = some (byteOf '/') then
      (pgScan 1 .top bs).map (.byte b :: .byte (byteOf '/') :: ·)
    else (pgScan 0 .block bs).map (.byte b :: ·)
  | 0, .top, b :: bs =>
    if isQuoteByte b then (pgScan 0 (.quoted b) bs).map (.byte b :: ·)
    else if b = byteOf '-' ∧ bs.head? = some (byteOf '-') then
      (pgScan 0 .comment bs).map (.byte b :: ·)
    else if b = byteOf '/' ∧ bs.head? = some (byteOf '*') then
      (pgScan 0 .block bs).map (.byte b :: ·)
    else if b = byteOf '$' then
      match placeholderNumber (bs.takeWhile isDigitByte) with
      | .error e => .error e
      | .ok n => (pgScan (bs.takeWhile isDigitByte).length .top bs).map (.param n :: ·)
    else (pgScan 0 .top bs).map (.byte b :: ·)

def PgItem.char : PgItem → Char
  | .byte b => charOf b
  | .param _ => '?'

/-- The numbers of the placeholders in the order of the text. -/
def numbers (items : List PgItem) : List Nat :=
  items.filterMap fun item => match item with
    | .byte _ => none
    | .param n => some n

def pgToMarkers (sql : String) : Except String (List Char × Nat) :=
  match pgScan 0 .top (utf8 sql) with
  | .error e => .error e
  | .ok items =>
    let used := numbers items
    let max := used.foldl max 0
    match (List.range' 1 max).find? (· ∉ used) with
    | some k => .error s!"missing placeholder ${k}"
    | none => .ok (items.map PgItem.char, max)

/-! ## Values -/

/-- Conversions of the standard library that the protocol uses. -/
structure PgFloats where
  /-- `str::parse::<f64>`. -/
  parse : String → Option UInt64
  /-- `f32 as f64`. -/
  widen : UInt32 → UInt64
  /-- `f64 as f32`. -/
  narrow : UInt64 → UInt32
  text : FloatText

structure BoundParam where
  format : Int
  value : Option Bytes
deriving DecidableEq, Repr

abbrev PgError := String × String

/-- Microseconds between 1970 and 2000. -/
def pgEpochMicros : Int64 := 946684800000000

/-- Two's complement, the first byte the highest. -/
def beInt (bs : Bytes) : Int64 :=
  let n := beValue bs
  if 2 ^ (8 * bs.length) ≤ 2 * n then Int64.ofInt (n - 2 ^ (8 * bs.length)) else Int64.ofInt n

def decodeText (fl : PgFloats) (oid : Nat) (text : String) : Except PgError Datum :=
  let word := text.toList.map Char.toLower
  let words (ws : List String) : Bool := ws.any fun w => w.toList = word
  let orBad (code what : String) (d : Option Datum) : Except PgError Datum :=
    match d with
    | some d => .ok d
    | none => .error (code, "invalid " ++ what ++ ": " ++ text)
  match oid with
  | 0 =>
    match parseI64 text.toList with
    | some n => .ok (.int n)
    | none =>
      match fl.parse text with
      | some f => .ok (.float f)
      | none =>
        if words ["true"] then .ok (.bool true)
        else if words ["false"] then .ok (.bool false)
        else .ok (.text text)
  | 21 =>
    orBad "22P02" "int2"
      (((parseI64 text.toList).filter fun n => -2 ^ 15 ≤ n.toInt ∧ n.toInt < 2 ^ 15).map .int)
  | 20 | 23 => orBad "22P02" "integer" ((parseI64 text.toList).map .int)
  | 700 | 701 => orBad "22P02" "float" ((fl.parse text).map .float)
  | 16 =>
    if words ["true", "t", "yes", "on", "1"] then .ok (.bool true)
    else if words ["false", "f", "no", "off", "0"] then .ok (.bool false)
    else orBad "22P02" "boolean" none
  | 25 | 1043 | 1042 => .ok (.text text)
  | 1114 | 1184 => orBad "22008" "timestamp" ((parseDatetimeStr text).map .dateTime)
  | _ => .error ("42804", s!"unsupported parameter type OID {oid}")

def decodeBinary (fl : PgFloats) (oid : Nat) (bytes : Bytes) : Except PgError Datum :=
  let need (n : Nat) (d : Datum) : Except PgError Datum :=
    if bytes.length = n then .ok d else .error ("22P03", s!"bad binary length for OID {oid}")
  match oid with
  | 21 => need 2 (.int (beInt bytes))
  | 23 => need 4 (.int (beInt bytes))
  | 20 => need 8 (.int (beInt bytes))
  | 700 => need 4 (.float (fl.widen (UInt32.ofNat (beValue bytes))))
  | 701 => need 8 (.float (UInt64.ofNat (beValue bytes)))
  | 16 => need 1 (.bool (bytes ≠ [0]))
  | 25 | 1043 | 1042 =>
    match fromUtf8 bytes with
    | some s => .ok (.text s)
    | none => .error ("22P02", "invalid utf8 in text parameter")
  | 1114 | 1184 => need 8 (.dateTime (beInt bytes + pgEpochMicros))
  | 1082 => need 4 (.dateTime (beInt bytes * 86400000000 + pgEpochMicros))
  | _ => .error ("42804", s!"unsupported binary parameter type OID {oid}")

def decodeParam (fl : PgFloats) (oid : Nat) (p : BoundParam) : Except PgError (Option Datum) :=
  match p.value with
  | none => .ok none
  | some bytes =>
    if p.format = 1 then (decodeBinary fl oid bytes).map some
    else if p.format = 0 then
      match fromUtf8 bytes with
      | some text => (decodeText fl oid text).map some
      | none => .error ("22P02", "invalid utf8 in text parameter")
    else .error ("08P01", s!"bad parameter format {p.format}")

def encodeBinaryCell (fl : PgFloats) (d : Datum) (ctype : ColumnType) :
    Except String (Option Bytes) :=
  match d with
  | .null => .ok none
  | .int v =>
    if ctype = .int then
      if -2 ^ 31 ≤ v.toInt ∧ v.toInt < 2 ^ 31 then .ok (some ((leBytes 4 v.toUInt64.toNat).reverse))
      else .error "integer out of int4 range"
    else .ok (some (beBytes v.toUInt64.toNat))
  | .float v =>
    if ctype = .float then .ok (some ((leBytes 4 (fl.narrow v).toNat).reverse))
    else .ok (some (beBytes v.toNat))
  | .bool b => .ok (some [if b then 1 else 0])
  | .text s => .ok (some (utf8 s))
  | .dateTime m => .ok (some (beBytes (m - pgEpochMicros).toUInt64.toNat))

def datumText (fl : PgFloats) : Datum → Option Bytes
  | .null => none
  | .int v => some (utf8 (toString v.toInt))
  | .float bits => some (utf8 (fl.text.display bits))
  | .text v => some (utf8 v)
  | .bool v => some (utf8 (toString v))
  | .dateTime v => some (utf8 (formatDatetimeMicros v))

def expandFormats (codes : List Int) (ncols : Nat) : Except String (List Int) :=
  match codes with
  | [] => .ok (List.replicate ncols 0)
  | [f] => if f ≠ 0 ∧ f ≠ 1 then .error s!"bad result format {f}" else .ok (List.replicate ncols f)
  | _ =>
    if codes.length ≠ ncols then .error s!"result formats {codes.length} != columns {ncols}"
    else match codes.find? fun f => f ≠ 0 ∧ f ≠ 1 with
      | some f => .error s!"bad result format {f}"
      | none => .ok codes

/-! ## The connection -/

structure PgStmt where
  sql : List Char
  offsets : List Nat
  oids : List Nat
  empty : Bool
deriving DecidableEq, Repr

structure Pending where
  cols : List (String × ColumnType)
  rows : List (List Datum)
  pos : Nat
  formats : List Int
  total : Nat
deriving DecidableEq

structure PgPortal where
  stmt : String
  params : List (Option Datum)
  resultFormats : List Int
  described : Bool
  pending : Option Pending
deriving DecidableEq

structure PgConn where
  stmts : String → Option PgStmt
  portals : String → Option PgPortal
  failed : Bool

/-- `PgConn::default`. -/
def PgConn.start : PgConn := ⟨fun _ => none, fun _ => none, false⟩

structure QueryResult where
  columns : List String
  rows : List (List Datum)
  message : String
deriving DecidableEq

/-- The engine behind the connection, and what the standard library prints and converts. -/
structure PgEnv (σ : Type) where
  /-- The parser behind the lexer. -/
  grammar : List Token → Except Error Unit
  execute : σ → List Char → σ × Except Error QueryResult
  describe : σ → List Char → Except Error (List (String × ColumnType))
  inTransaction : σ → Bool
  /-- `pg_error`. -/
  pgError : Error → PgError
  /-- `str::to_uppercase`. -/
  upper : String → String
  floats : PgFloats

/-- What the server sends. -/
inductive Reply where
  | parseComplete
  | bindComplete
  | closeComplete
  | noData
  | parameterDescription (oids : List Nat)
  | rowDescription (cols : List (String × ColumnType)) (formats : List Int)
  | dataRow (cells : List (Option Bytes))
  | portalSuspended
  | commandComplete (tag : String)
  | emptyQuery
  | error (code message : String)
  | readyForQuery (inTransaction : Bool)
deriving DecidableEq

/-- `str::parse::<usize>`. -/
def parseUsize (s : List Char) : Option Nat :=
  let n := match s with
    | '+' :: s => DateTime.digits s
    | s => DateTime.digits s
  n.filter fun n => n < 2 ^ 64

/-- `command_tag` of a result without columns. -/
def commandTag {σ : Type} (env : PgEnv σ) (message : String) : String :=
  let words := (DateTime.words message.toList).map String.ofList
  let counted := match words with
    | n :: _ :: verb :: _ =>
      match parseUsize n.toList with
      | some count =>
        if verb = "inserted" then some s!"INSERT 0 {count}"
        else if verb = "updated" then some s!"UPDATE {count}"
        else if verb = "deleted" then some s!"DELETE {count}"
        else none
      | none => none
    | _ => none
  let contains (w : String) : Bool := message.toList.tails.any fun t => w.toList.isPrefixOf t
  match counted with
  | some tag => tag
  | none =>
    if message ∈ ["BEGIN", "COMMIT", "ROLLBACK", "OK"] then message
    else if "created\"".toList.isSuffixOf message.toList ∨ "created".toList.isSuffixOf message.toList then
      if contains "table" then "CREATE TABLE"
      else if contains "index" then "CREATE INDEX"
      else "CREATE"
    else if contains "dropped" then "DROP"
    else if contains "CHECKPOINT" ∨ contains "checkpoint" then "CHECKPOINT"
    else env.upper (words.headD "OK")

namespace PgConn

variable {σ : Type} (env : PgEnv σ)

def setStmt (pg : PgConn) (name : String) (stmt : PgStmt) : PgConn :=
  { pg with stmts := fun n => if n = name then some stmt else pg.stmts n }

def setPortal (pg : PgConn) (name : String) (portal : PgPortal) : PgConn :=
  { pg with portals := fun n => if n = name then some portal else pg.portals n }

/-- `neutralize_placeholders`. -/
def neutralize (sql : List Char) (offsets : List Nat) : List Char :=
  match substitute sql offsets (offsets.map fun _ => "NULL".toList) with
  | .ok text => text
  | .error _ => sql

/-- `parse_sql`, which only matters in so far as it fails. -/
def parseSql (sql : List Char) : Except Error Unit := do
  let tokens ← Lexer.tokenize sql
  env.grammar tokens

/-- The statement that `on_parse` makes of a query. -/
def parsed (query : String) (paramOids : List Nat) : Except PgError PgStmt :=
  if trim query.toList = [] then .ok ⟨[], [], [], true⟩
  else
    match pgToMarkers query with
    | .error m => .error ("42601", m)
    | .ok (sql, max) =>
      let offsets := findPlaceholders sql
      if offsets.length ≠ max then .error ("42601", "placeholder/parameter mismatch")
      else
        match parseSql env (neutralize sql offsets) with
        | .error e => .error ("42601", (env.pgError e).2)
        | .ok _ =>
          .ok ⟨sql, offsets, (paramOids ++ List.replicate (max - paramOids.length) 0).take max, false⟩

def onParse (pg : PgConn) (name query : String) (paramOids : List Nat) :
    PgConn × Except PgError (List Reply) :=
  match parsed env query paramOids with
  | .error e => (pg, .error e)
  | .ok stmt => (pg.setStmt name stmt, .ok [.parseComplete])

def onBind (pg : PgConn) (portal statement : String) (params : List BoundParam)
    (resultFormats : List Int) : PgConn × Except PgError (List Reply) :=
  match pg.stmts statement with
  | none => (pg, .error ("26000", "prepared statement \"" ++ statement ++ "\" does not exist"))
  | some stmt =>
    if params.length ≠ stmt.offsets.length then
      (pg, .error ("08P01", s!"bind supplies {params.length} parameters, prepared statement requires {stmt.offsets.length}"))
    else
      match (stmt.oids.zip params).mapM fun (oid, p) => decodeParam env.floats oid p with
      | .error e => (pg, .error e)
      | .ok params =>
        (pg.setPortal portal ⟨statement, params, resultFormats, false, none⟩, .ok [.bindComplete])

def stmtColumns (s : σ) (stmt : PgStmt) : List (String × ColumnType) :=
  match env.describe s (neutralize stmt.sql stmt.offsets) with
  | .ok cols => cols.map fun (n, t) => (simpleName n, t)
  | .error _ => []

/-- The answer to Describe of a statement's columns. -/
def columnsReply (cols : List (String × ColumnType)) : Reply :=
  if cols = [] then .noData else .rowDescription cols (cols.map fun _ => 0)

def onDescribe (pg : PgConn) (s : σ) (ofStmt : Bool) (name : String) :
    PgConn × Except PgError (List Reply) :=
  if ofStmt then
    match pg.stmts name with
    | none => (pg, .error ("26000", "prepared statement \"" ++ name ++ "\" does not exist"))
    | some stmt =>
      if stmt.empty then (pg, .ok [.parameterDescription stmt.oids, .noData])
      else
        ({ pg with portals := fun n => (pg.portals n).map fun p =>
            if p.stmt = name then { p with described := true } else p },
          .ok [.parameterDescription stmt.oids, columnsReply (stmtColumns env s stmt)])
  else
    match pg.portals name with
    | none => (pg, .error ("34000", "portal \"" ++ name ++ "\" does not exist"))
    | some portal =>
      match pg.stmts portal.stmt with
      | none =>
        (pg, .error ("26000", "prepared statement \"" ++ portal.stmt ++ "\" does not exist"))
      | some stmt => (pg, .ok [columnsReply (stmtColumns env s stmt)])

def paramLiteral (p : Option Datum) : List Char :=
  match p with
  | some d => datumLiteral env.floats.text d
  | none => "NULL".toList

/-- The text that runs a portal, none for an empty statement. -/
def portalText (pg : PgConn) (portal : PgPortal) : Except PgError (Option (PgStmt × List Char)) :=
  match pg.stmts portal.stmt with
  | none => .error ("26000", "prepared statement \"" ++ portal.stmt ++ "\" does not exist")
  | some stmt =>
    if stmt.empty then .ok none
    else
      match substitute stmt.sql stmt.offsets (portal.params.map (paramLiteral env)) with
      | .error m => .error ("08P01", m)
      | .ok text => .ok (some (stmt, text))

def resultColumns (s : σ) (stmt : PgStmt) (result : QueryResult) : List (String × ColumnType) :=
  let cols := stmtColumns env s stmt
  if cols.length = result.columns.length then result.columns.zip (cols.map Prod.snd)
  else result.columns.map fun c => (c, .text)

def rowCells (cols : List (String × ColumnType)) (formats : List Int) (row : List Datum) :
    Except String (List (Option Bytes)) :=
  if formats.all (· = 0) then .ok (row.map (datumText env.floats))
  else ((row.zip (cols.map Prod.snd)).zip formats).mapM fun ((d, ctype), fmt) =>
    if fmt = 0 then .ok (datumText env.floats d) else encodeBinaryCell env.floats d ctype

/-- The loop that sends rows: those it has sent, and the error that stopped it. -/
def sendRows (cols : List (String × ColumnType)) (formats : List Int) :
    List (List Datum) → List Reply × Option String
  | [] => ([], none)
  | row :: rows =>
    match rowCells env cols formats row with
    | .error m => ([], some m)
    | .ok cells =>
      let (sent, err) := sendRows cols formats rows
      (.dataRow cells :: sent, err)

def due (pending : Pending) (maxRows : Nat) : List (List Datum) :=
  let rest := pending.rows.drop pending.pos
  if maxRows = 0 then rest else rest.take maxRows

/-- The second half of `on_execute`: rows of the buffered run. -/
def emitRows (pg : PgConn) (name : String) (portal : PgPortal) (pending : Pending) (maxRows : Nat) :
    PgConn × Except PgError (List Reply) :=
  let description : List Reply :=
    if portal.described then [] else [.rowDescription pending.cols pending.formats]
  let (sent, err) := sendRows env pending.cols pending.formats (due pending maxRows)
  let pending := { pending with pos := pending.pos + sent.length }
  let portal := { portal with described := true }
  match err with
  | some m => (pg.setPortal name { portal with pending := some pending }, .error ("22003", m))
  | none =>
    if pending.pos < pending.rows.length then
      (pg.setPortal name { portal with pending := some pending },
        .ok (description ++ sent ++ [.portalSuspended]))
    else
      (pg.setPortal name { portal with pending := none },
        .ok (description ++ sent ++ [.commandComplete s!"SELECT {pending.total}"]))

/-- What `on_execute` of a portal without a buffered run does once the engine has answered. -/
def onResult (pg : PgConn) (s : σ) (name : String) (portal : PgPortal) (stmt : PgStmt)
    (maxRows : Nat) (result : Except Error QueryResult) : PgConn × Except PgError (List Reply) :=
  match result with
  | .error e => (pg, .error (env.pgError e))
  | .ok result =>
    if result.columns = [] then (pg, .ok [.commandComplete (commandTag env result.message)])
    else
      let cols := resultColumns env s stmt result
      match expandFormats portal.resultFormats cols.length with
      | .error m => (pg, .error ("08P01", m))
      | .ok formats =>
        emitRows env pg name portal ⟨cols, result.rows, 0, formats, result.rows.length⟩ maxRows

def onExecute (pg : PgConn) (s : σ) (name : String) (maxRows : Nat) :
    PgConn × σ × Except PgError (List Reply) :=
  match pg.portals name with
  | none => (pg, s, .error ("34000", "portal \"" ++ name ++ "\" does not exist"))
  | some portal =>
    match portal.pending with
    | some pending =>
      let (pg, out) := emitRows env pg name portal pending maxRows
      (pg, s, out)
    | none =>
      match portalText env pg portal with
      | .error e => (pg, s, .error e)
      | .ok none => (pg, s, .ok [.emptyQuery])
      | .ok (some (stmt, text)) =>
        let (s, result) := env.execute s text
        let (pg, out) := onResult env pg s name portal stmt maxRows result
        (pg, s, out)

def onClose (pg : PgConn) (ofStmt : Bool) (name : String) : PgConn × Except PgError (List Reply) :=
  if ofStmt then
    ({ pg with
        stmts := fun n => if n = name then none else pg.stmts n
        portals := fun n => (pg.portals n).filter fun p => p.stmt ≠ name },
      .ok [.closeComplete])
  else
    ({ pg with portals := fun n => if n = name then none else pg.portals n }, .ok [.closeComplete])

end PgConn

inductive PgMessage where
  | parse (name query : String) (paramOids : List Nat)
  | bind (portal statement : String) (params : List BoundParam) (resultFormats : List Int)
  | describe (ofStmt : Bool) (name : String)
  | execute (portal : String) (maxRows : Nat)
  | close (ofStmt : Bool) (name : String)
  | sync
deriving DecidableEq

/-- The answer to a message; an error is sent, and everything up to the next Sync is
skipped. -/
def PgConn.answer (pg : PgConn) (out : Except PgError (List Reply)) : PgConn × List Reply :=
  match out with
  | .ok replies => (pg, replies)
  | .error (code, message) => ({ pg with failed := true }, [.error code message])

/-- `pg_step` on a message of the extended protocol. -/
def PgConn.step {σ : Type} (env : PgEnv σ) (pg : PgConn) (s : σ) (m : PgMessage) :
    PgConn × σ × List Reply :=
  if pg.failed ∧ m ≠ .sync then (pg, s, [])
  else match m with
    | .parse name query paramOids =>
      let (pg, out) := pg.onParse env name query paramOids
      let (pg, replies) := pg.answer out
      (pg, s, replies)
    | .bind portal statement params resultFormats =>
      let (pg, out) := pg.onBind env portal statement params resultFormats
      let (pg, replies) := pg.answer out
      (pg, s, replies)
    | .describe ofStmt name =>
      let (pg, out) := pg.onDescribe env s ofStmt name
      let (pg, replies) := pg.answer out
      (pg, s, replies)
    | .execute portal maxRows =>
      let (pg, s, out) := pg.onExecute env s portal maxRows
      let (pg, replies) := pg.answer out
      (pg, s, replies)
    | .close ofStmt name =>
      let (pg, out) := pg.onClose ofStmt name
      let (pg, replies) := pg.answer out
      (pg, s, replies)
    | .sync => ({ pg with failed := false }, s, [.readyForQuery (env.inTransaction s)])

end HenchDB
