import HenchDB.Mvcc.Reads
import HenchDB.Query.Visible
import HenchDB.Session.Statement

/-!
# Access paths

The planner reads bounds for the primary key, or for an indexed column, off a
conjunction (`collectColBounds`), and makes an access path of them (`accessPath`).
`visible_rows` reads the rows along the path and filters them with the whole
condition, so what it returns are rows the session sees and the condition holds of.
It returns those of them that the path reaches (`mem_visibleRows`): the rows whose
keys the path covers, those that the transaction has staged, and in a scan those that
only the history of the session's snapshot knows.

The cost of a path is a parameter; it turns a path over an index into a scan.
-/

namespace HenchDB.Query

open Std (ExtTreeMap)
open Mvcc (VersionState SnapshotPin)
open Outcome

/-! ## Bounds -/

def coerceForCol : ColumnType → Datum → Option Datum
  | .int, .int v | .bigInt, .int v => some (.int v)
  | .float, .int v | .double, .int v => some (.float (F64.ofInt v))
  | .float, .float v | .double, .float v => some (.float v)
  | .text, .text v | .varChar, .text v => some (.text v)
  | .bool, .bool v => some (.bool v)
  | .bool, .int v => some (.bool (v ≠ 0))
  | .int, .bool v | .bigInt, .bool v => some (.int (if v then 1 else 0))
  | .int, .float v | .bigInt, .float v => if F64.isIntegral v then some (.int (F64.toInt v)) else none
  | _, _ => none

def orEqList (col : String) (ctype : ColumnType) : Expr → Option (List Datum)
  | .or a b => do return (← orEqList col ctype a) ++ (← orEqList col ctype b)
  | .cmp (.column name) op (.literal lit) =>
    if name ≠ col ∨ op ≠ .eq ∨ lit = .null then none
    else (coerceForCol ctype lit).map fun v => [v]
  | _ => none

/-- The last character is raised by one; one that cannot be is dropped.  The last
character stands first. -/
def raiseLast : List Char → Option (List Char)
  | [] => none
  | c :: cs =>
    if c.toNat = 0x10FFFF then raiseLast cs
    else if (c.toNat + 1).isValidChar then some (Char.ofNat (c.toNat + 1) :: cs)
    else none

def prefixUpper (text : String) : Option String :=
  (raiseLast text.toList.reverse).map fun cs => String.ofList cs.reverse

/-- What the planner has read of a column. -/
structure Bounds where
  eq : Option Datum
  lo : Bound
  hi : Bound
  inVals : List Datum
  sawIn : Bool
  hasPred : Bool

namespace Bounds

/-- Nothing yet. -/
def empty : Bounds := ⟨none, none, none, [], false, false⟩

/-- `update_bound` of the lower bound. -/
def raiseLo (b : Bounds) (lit : Datum) (inclusive : Bool) : Bounds :=
  let better := match b.lo with
    | none => true
    | some (cur, curIncl) => (lit.cmp cur).isGT || lit.eqv cur && inclusive && !curIncl
  if better then { b with lo := some (lit, inclusive) } else b

/-- `update_bound` of the upper bound. -/
def lowerHi (b : Bounds) (lit : Datum) (inclusive : Bool) : Bounds :=
  let better := match b.hi with
    | none => true
    | some (cur, curIncl) => (lit.cmp cur).isLT || lit.eqv cur && inclusive && !curIncl
  if better then { b with hi := some (lit, inclusive) } else b

/-- A comparison with a value of the column. -/
def compare (b : Bounds) (op : CmpOp) (lit : Datum) : Bounds :=
  let b := { b with hasPred := true }
  match op with
  | .eq => { b with eq := some lit }
  | .ge => b.raiseLo lit true
  | .gt => b.raiseLo lit false
  | .le => b.lowerHi lit true
  | .lt => b.lowerHi lit false
  | .ne => b

/-- Values of a list, unless the column is pinned to one. -/
def oneOf (b : Bounds) (vals : List Datum) : Bounds :=
  if b.eq.isSome then b
  else { b with hasPred := true, sawIn := true, inVals := b.inVals ++ vals }

end Bounds

def likeBounds (b : Bounds) (pattern : String) : Bounds :=
  let head := String.ofList (pattern.toList.takeWhile fun c => c ≠ '%' ∧ c ≠ '_')
  if head = pattern then { b with hasPred := true, eq := some (.text head) }
  else if head = "" then b
  else
    let b := ({ b with hasPred := true } : Bounds).raiseLo (.text head) true
    match prefixUpper head with
    | some upper => b.lowerHi (.text upper) false
    | none => b

/-- `collect_col_bounds`, with whether the bounds may be used. -/
def collectColBounds (col : String) (ctype : ColumnType) : Expr → Bounds → Bool × Bounds
  | .and l r, b =>
    let (okL, b) := collectColBounds col ctype l b
    let (okR, b) := collectColBounds col ctype r b
    (okL && okR, b)
  | .or l r, b =>
    match orEqList col ctype (.or l r) with
    | some vals => (true, b.oneOf vals)
    | none => (true, b)
  | .cmp (.column name) op (.literal lit), b =>
    if name ≠ col ∨ lit = .null then (true, b)
    else
      match coerceForCol ctype lit with
      | none => (false, b)
      | some lit => (true, b.compare op lit)
  | .inList (.column name) values false, b =>
    if name ≠ col then (true, b)
    else (true, b.oneOf ((values.filter (· ≠ .null)).filterMap (coerceForCol ctype)))
  | .between (.column name) lo hi false, b =>
    if name ≠ col then (true, b)
    else
      match coerceForCol ctype lo, coerceForCol ctype hi with
      | some lo, some hi => (true, (({ b with hasPred := true } : Bounds).raiseLo lo true).lowerHi hi true)
      | _, _ => (false, b)
  | .like (.column name) pattern false, b =>
    if name = col ∧ (ctype = .text ∨ ctype = .varChar) then (true, likeBounds b pattern) else (true, b)
  | _, b => (true, b)

/-! ## The planner -/

def pkPath (pk : ColumnDef) (sel : Expr) : Option AccessPath :=
  let (usable, b) := collectColBounds pk.name pk.ctype sel .empty
  if !usable then none
  else
    match b.eq with
    | some v => some (.point v)
    | none =>
      if b.sawIn then some (.pkIn b.inVals)
      else if b.hasPred then some (.range b.lo b.hi)
      else none

def indexPath (schema : Schema) (sel : Expr) (idx : IndexDef) : Option AccessPath := do
  let colIdx ← schema.indexOf idx.column
  let col ← schema.columns[colIdx]?
  let (usable, b) := collectColBounds idx.column col.ctype sel .empty
  if !usable then none
  else
    match b.eq with
    | some v => some (.secondaryIndex colIdx (some (v, true)) (some (v, true)))
    | none =>
      if b.sawIn then some (.secIn colIdx b.inVals)
      else if b.hasPred then some (.secondaryIndex colIdx b.lo b.hi)
      else none

/-- `access_path` of a stored table. -/
def accessPath (t : Table) (selection : Option Expr) : AccessPath :=
  match selection with
  | none => .fullScan
  | some sel =>
    ((t.schema.columns[t.schema.pkIdx]?.bind fun pk => pkPath pk sel).or
      (t.indexes.findSome? fun i => indexPath t.schema sel i.info)).getD .fullScan

/-- `choose_access_path`, given which paths over an index cost more than a scan. -/
def chooseAccessPath (dear : Table → Option Expr → AccessPath → Bool) (t : Table)
    (selection : Option Expr) : Except Error AccessPath :=
  match accessPath t selection with
  | .secondaryIndex colIdx lo hi =>
    let path := .secondaryIndex colIdx lo hi
    .ok (if dear t selection path then .fullScan else path)
  | .secIn colIdx values =>
    let path := .secIn colIdx values
    .ok (if dear t selection path then .fullScan else path)
  | path => .ok path

/-- A loop that returns what a function makes of each element. -/
theorem mapM_eq_map {ε α β : Type} {f : α → Except ε β} {g : α → β} {l : List α} {bs : List β}
    (h : ∀ a ∈ l, ∀ b, f a = .ok b → b = g a) (hrun : l.mapM f = .ok bs) : bs = l.map g := by
  rw [mapM_ok_iff] at hrun
  induction hrun with
  | nil => rfl
  | cons hhead _ ih =>
    rw [List.map_cons, h _ List.mem_cons_self _ hhead, ih fun a ha => h a (List.mem_cons_of_mem _ ha)]

/-! ## What a path covers -/

/-- The index lists a row with the key between the bounds. -/
def Lists (t : Table) (colIdx : Nat) (lo hi : Bound) (key : Bytes) : Prop :=
  ∃ pks, scanSecondary t colIdx lo hi = .ok (some pks) ∧ ∃ pk ∈ pks, encodeKey pk = .ok key

/-- The key lies between bounds of the primary key. -/
def Within (lo hi : Bound) (key : Bytes) : Prop :=
  ∃ loKey hiKey, lo.mapM (fun b => encodeKey b.1) = .ok loKey ∧ hi.mapM (fun b => encodeKey b.1) = .ok hiKey ∧
    keyWithin loKey ((lo.map Prod.snd).getD true) hiKey ((hi.map Prod.snd).getD true) key = true

def AccessPath.Covers (t : Table) (key : Bytes) : AccessPath → Prop
  | .point lit => encodeKey lit = .ok key
  | .pkIn lits => ∃ lit ∈ lits, encodeKey lit = .ok key
  | .range lo hi => Within lo hi key
  | .secondaryIndex colIdx lo hi => Lists t colIdx lo hi key
  | .secIn colIdx values => ∃ v ∈ values, Lists t colIdx (some (v, true)) (some (v, true)) key
  | .fullScan => True

def stored (t : Table) (key : Bytes) : Option Row :=
  t.tree[key]?.bind fun raw => (t.decodeStored raw).toOption

def Stages (session : Session) (t : Table) (key : Bytes) : Prop :=
  ∃ staged row, session.staged = some staged ∧ staged.lookup (t.info.name, key) = some row

/-- The history of the session's snapshot has a row of the key. -/
def Restores (db : Database) (session : Session) (t : Table) (key : Bytes) : Prop :=
  ∃ pin row, session.snapshot = some pin ∧
    db.versions.chainAt (t.info.name, key) pin.readEpoch = some (some row)

/-- `visible_rows` comes upon the key along the path. -/
def Reaches (db : Database) (session : Session) (t : Table) (path : AccessPath) (key : Bytes) : Prop :=
  path.Covers t key ∨ Stages session t key ∨ path.isScan = true ∧ Restores db session t key

def Sees (db : Database) (session : Session) (t : Table) (key : Bytes) (row : Row) : Prop :=
  visibleRow db session t key = .ok (some row)

structure KeptRow (t : Table) (key : Bytes) (row : Row) : Prop where
  normal : t.schema.Normal row
  key : encodeKey (Table.column row t.schema.pkIdx) = .ok key

/-- What the table and its session hold is in order: the rows of the tree, of the history
and of the transaction stand under their own keys, no entry of a chain is newer than the last
commit of its key, and the staged writes are a map. -/
structure WellKept (db : Database) (session : Session) (t : Table) : Prop where
  tree : ∀ key raw, t.tree[key]? = some raw → ∃ row, t.decodeStored raw = .ok row ∧ KeptRow t key row
  history : ∀ key chain, db.versions.chains[(t.info.name, key)]? = some chain → ∀ e ∈ chain,
    e.1 ≤ db.versions.committedEpoch (t.info.name, key) ∧ ∀ row, e.2 = some row → KeptRow t key row
  staged : ∀ staged, session.staged = some staged → (staged.map Prod.fst).Nodup ∧
    ∀ key row, ((t.info.name, key), some row) ∈ staged → KeptRow t key row

/-! ## The rows along a path -/

section
variable {db : Database} {session : Session} {t : Table} {key : Bytes} {row : Row}

theorem decode_stored (h : WellKept db session t) {raw : Bytes} (hraw : t.tree[key]? = some raw) :
    ∃ row, t.decodeStored raw = .ok row ∧ stored t key = some row := by
  obtain ⟨row, hrow, -⟩ := h.tree key raw hraw
  exact ⟨row, hrow, by rw [stored, hraw, Option.bind_some, hrow]; rfl⟩

theorem kept_stored (h : WellKept db session t) (hrow : stored t key = some row) : KeptRow t key row := by
  obtain ⟨raw, hraw, hdecode⟩ := Option.bind_eq_some_iff.mp hrow
  obtain ⟨row', hrow', hkept⟩ := h.tree key raw hraw
  rw [hrow'] at hdecode
  cases hdecode
  exact hkept

variable {w : Option Row} {rows : List (Bytes × Row)}
  {found found' : List Bytes × List (Bytes × Row)}

theorem visibleRow_staged {staged : List (TKey × Option Row)}
    (hstaged : session.staged = some staged) (hlookup : staged.lookup (t.info.name, key) = some w) :
    visibleRow db session t key = .ok w := by
  rw [visibleRow, hstaged, Option.bind_some, hlookup]

/-- Elsewhere it sees the tree through its snapshot. -/
theorem visibleRow_unstaged (h : WellKept db session t) (hstages : ¬ Stages session t key) :
    visibleRow db session t key = lookupVersion db session t key (stored t key) := by
  have hnone : (session.staged.bind fun staged => staged.lookup (t.info.name, key)) = none := by
    by_contra hsome
    obtain ⟨w, hw⟩ := Option.ne_none_iff_exists'.mp hsome
    obtain ⟨staged, hstaged, hlookup⟩ := Option.bind_eq_some_iff.mp hw
    exact hstages ⟨staged, w, hstaged, hlookup⟩
  rw [visibleRow, hnone]
  cases hraw : t.tree[key]? with
  | none => simp [stored, hraw, bind, Except.bind, pure, Except.pure]
  | some raw =>
    obtain ⟨row, hrow, hstored⟩ := decode_stored h hraw
    simp [hrow, hstored, bind, Except.bind, Except.mapError, Functor.map, Except.map]

/-- The answer of a chain contradicts the tree only above the snapshot. -/
theorem lookupVersion_restored (h : WellKept db session t) {pin : SnapshotPin}
    (hpin : session.snapshot = some pin)
    (hchain : db.versions.chainAt (t.info.name, key) pin.readEpoch = some w) (current : Option Row) :
    lookupVersion db session t key current = .ok w := by
  have hepoch : ¬ db.versions.committedEpoch (t.info.name, key) ≤ pin.readEpoch := by
    intro hle
    obtain ⟨chain, hget, hwalk⟩ := Option.bind_eq_some_iff.mp hchain
    rw [Chain.walk_of_forall_le fun e he => ((h.history key chain hget e he).1).trans hle] at hwalk
    cases hwalk
  rw [lookupVersion, hpin, VersionState.snapshotLookup]
  simp [hepoch, hchain, Except.mapError]

theorem pointRow_ok {pk : Datum} {found : Option (Bytes × Row)} (h : pointRow db session t pk = .ok found) :
    ∃ key, encodeKey pk = .ok key ∧ ∀ key' row, found = some (key', row) ↔ key' = key ∧
        Sees db session t key' row := by
  obtain ⟨key, hkey, h⟩ := bind_ok h
  obtain ⟨seen, hseen, h⟩ := bind_ok h
  cases h
  refine ⟨key, Session.mapError_ok hkey, fun key' row => ?_⟩
  rw [Sees]
  constructor
  · intro hfound
    obtain ⟨row', rfl, hpair⟩ := Option.map_eq_some_iff.mp hfound
    cases hpair
    exact ⟨rfl, hseen⟩
  · rintro ⟨rfl, hsees⟩
    cases hseen.symm.trans hsees
    rfl

theorem mem_pointRows {pks : List Datum} (h : pointRows db session t pks = .ok rows) :
    (key, row) ∈ rows ↔ (∃ pk ∈ pks, encodeKey pk = .ok key) ∧ Sees db session t key row := by
  obtain ⟨found, hfound, h⟩ := bind_ok h
  cases h
  rw [mapM_ok_iff] at hfound
  simp only [List.mem_filterMap, id_eq, exists_eq_right]
  constructor
  · intro hmem
    obtain ⟨pk, hpk, hpoint⟩ := exists_of_forall₂_right hfound _ hmem
    obtain ⟨key', hkey', hseen⟩ := pointRow_ok hpoint
    obtain ⟨rfl, hsees⟩ := (hseen key row).mp rfl
    exact ⟨⟨pk, hpk, hkey'⟩, hsees⟩
  · rintro ⟨⟨pk, hpk, hkey⟩, hsees⟩
    obtain ⟨found', hmem, hpoint⟩ := exists_of_forall₂_left hfound _ hpk
    obtain ⟨key', hkey', hseen⟩ := pointRow_ok hpoint
    cases hkey.symm.trans hkey'
    rw [← (hseen key row).mpr ⟨rfl, hsees⟩]
    exact hmem

/-- What a multi-point seek has found: the keys it has come upon, and those of their rows
that the session sees. -/
structure Found (db : Database) (session : Session) (t : Table) (met : Bytes → Prop)
    (found : List Bytes × List (Bytes × Row)) : Prop where
  keys : ∀ key, key ∈ found.1 ↔ met key
  rows : ∀ key row, (key, row) ∈ found.2 ↔ key ∈ found.1 ∧ Sees db session t key row

theorem seekPk_found {met : Bytes → Prop} {pk : Datum} (hfound : Found db session t met found)
    (h : seekPk db session t found pk = .ok found') :
    Found db session t (fun key => met key ∨ encodeKey pk = .ok key) found' := by
  obtain ⟨key, hkey, h⟩ := bind_ok h
  have hpk : ∀ key', encodeKey pk = .ok key' ↔ key' = key := by
    intro key'
    rw [Session.mapError_ok hkey, Except.ok.injEq]
    exact eq_comm
  split at h
  · next hin =>
    cases h
    refine ⟨fun key' => ?_, hfound.rows⟩
    rw [hfound.keys, hpk]
    refine ⟨.inl, fun hor => hor.elim id ?_⟩
    rintro rfl
    exact (hfound.keys key').mp (List.contains_iff_mem.mp hin)
  · next hnew =>
    obtain ⟨seen, hseen, h⟩ := bind_ok h
    cases h
    refine ⟨fun key' => ?_, fun key' row => ?_⟩
    · rw [List.mem_cons, hfound.keys, hpk]
      exact or_comm
    · rw [List.mem_append, hfound.rows, Option.mem_toList, List.mem_cons]
      constructor
      · rintro (⟨hmem, hsees⟩ | hrow)
        · exact ⟨.inr hmem, hsees⟩
        · obtain ⟨row', rfl, hpair⟩ := Option.map_eq_some_iff.mp hrow
          cases hpair
          exact ⟨.inl rfl, hseen⟩
      · rintro ⟨rfl | hmem, hsees⟩
        · cases hseen.symm.trans hsees
          exact .inr rfl
        · exact .inl ⟨hmem, hsees⟩

theorem seekPks_found : ∀ {pks : List Datum} {met : Bytes → Prop} {found found' :
    List Bytes × List (Bytes × Row)},
    Found db session t met found → pks.foldlM (seekPk db session t) found = .ok found' →
      Found db session t (fun key => met key ∨ ∃ pk ∈ pks, encodeKey pk = .ok key) found'
  | [], met, found, found', hfound, h => by
    cases h
    simpa using hfound
  | pk :: pks, met, found, found', hfound, h => by
    rw [List.foldlM_cons] at h
    obtain ⟨found₁, hstep, h⟩ := bind_ok h
    have hrest := seekPks_found (seekPk_found hfound hstep) h
    simpa [or_assoc] using hrest

theorem seekValue_found {met : Bytes → Prop} {colIdx : Nat} {v : Datum}
    (hfound : Found db session t met found) (h : seekValue db session t colIdx found v = .ok found') :
    Found db session t (fun key => met key ∨
      Lists t colIdx (some (v, true)) (some (v, true)) key) found' := by
  obtain ⟨pks, hpks, h⟩ := bind_ok h
  have hlists : ∀ key, Lists t colIdx (some (v, true)) (some (v, true)) key ↔
      ∃ pk ∈ pks.getD [], encodeKey pk = .ok key := by
    intro key
    rw [Lists, hpks]
    cases pks <;> simp
  simp only [hlists]
  exact seekPks_found hfound h

theorem seekValues_found {colIdx : Nat} : ∀ {values : List Datum} {met : Bytes → Prop}
    {found found' : List Bytes × List (Bytes × Row)}, Found db session t met found →
      values.foldlM (seekValue db session t colIdx) found = .ok found' →
        Found db session t
          (fun key => met key ∨ ∃ v ∈ values, Lists t colIdx (some (v, true)) (some (v, true)) key) found'
  | [], met, found, found', hfound, h => by
    cases h
    simpa using hfound
  | v :: values, met, found, found', hfound, h => by
    rw [List.foldlM_cons] at h
    obtain ⟨found₁, hstep, h⟩ := bind_ok h
    have hrest := seekValues_found (seekValue_found hfound hstep) h
    simpa [or_assoc] using hrest

/-- The rows along a path that asks for one key after the other. -/
theorem mem_pathRows_points {path : AccessPath} (hscan : path.isScan = false)
    (h : pathRows db session t path = .ok rows) :
    (key, row) ∈ rows ↔ path.Covers t key ∧ Sees db session t key row := by
  cases path with
  | point lit =>
    rw [mem_pointRows h]
    simp [AccessPath.Covers]
  | pkIn lits => exact mem_pointRows h
  | range lo hi => cases hscan
  | secondaryIndex colIdx lo hi =>
    obtain ⟨pks, hpks, h⟩ := bind_ok h
    rw [mem_pointRows h, AccessPath.Covers, Lists, hpks]
    cases pks <;> simp
  | secIn colIdx values =>
    obtain ⟨found, hfound, h⟩ := bind_ok h
    cases h
    have hempty : Found db session t (fun _ => False) ([], []) := ⟨by simp, by simp⟩
    have hall := seekValues_found hempty hfound
    rw [hall.rows, hall.keys, false_or, AccessPath.Covers]
  | fullScan => cases hscan

theorem mem_treeRows (h : WellKept db session t) {test : Bytes → Bool} {β : Type} {f : Bytes × Bytes →
    Except Fault β}
    {g : Bytes → Row → β} (hf : ∀ key raw row b, t.tree[key]? = some raw → stored t key = some row →
      f (key, raw) = .ok b → b = g key row) {out : List β}
    (hout : (t.tree.toList.filter fun e => test e.1).mapM f = .ok out) :
    ∃ found : List (Bytes × Row), out = found.map (fun p => g p.1 p.2) ∧ (found.map Prod.fst).Nodup ∧
      ∀ key row, (key, row) ∈ found ↔ test key = true ∧ stored t key = some row := by
  have hentry : ∀ e ∈ t.tree.toList, ∃ row, stored t e.1 = some row := by
    intro e he
    obtain ⟨row, -, hstored⟩ := decode_stored h (ExtTreeMap.mem_toList_iff_getElem?_eq_some.mp he)
    exact ⟨row, hstored⟩
  refine ⟨(t.tree.toList.filter fun e => test e.1).map fun e => (e.1, (stored t e.1).getD []), ?_, ?_, ?_⟩
  · rw [List.map_map]
    refine mapM_eq_map (fun e he b hb => ?_) hout
    have hmem := List.mem_of_mem_filter he
    obtain ⟨row, hstored⟩ := hentry e hmem
    rw [Function.comp_apply, hstored]
    exact hf e.1 e.2 row b (ExtTreeMap.mem_toList_iff_getElem?_eq_some.mp hmem) hstored hb
  · rw [List.map_map]
    have hdistinct : (t.tree.toList.map Prod.fst).Nodup := by
      rw [List.Nodup, List.pairwise_map]
      exact ExtTreeMap.distinct_keys_toList.imp fun hne heq => hne (Std.compare_eq_iff_eq.mpr heq)
    exact hdistinct.sublist (List.filter_sublist.map Prod.fst)
  · intro key row
    rw [List.mem_map]
    constructor
    · rintro ⟨e, he, hpair⟩
      cases hpair
      obtain ⟨row, hstored⟩ := hentry e (List.mem_of_mem_filter he)
      exact ⟨(List.mem_filter.mp he).2, by rw [hstored]; rfl⟩
    · rintro ⟨htest, hstored⟩
      obtain ⟨raw, hraw, -⟩ := Option.bind_eq_some_iff.mp hstored
      exact ⟨(key, raw), List.mem_filter.mpr ⟨ExtTreeMap.mem_toList_iff_getElem?_eq_some.mpr hraw, htest⟩,
        by rw [hstored]; rfl⟩

theorem mem_pathRows_scan (h : WellKept db session t) {path : AccessPath}
    (hscan : path.isScan = true) (hrows : pathRows db session t path = .ok rows) :
    (rows.map Prod.fst).Nodup ∧
      ∀ key row, (key, row) ∈ rows ↔ path.Covers t key ∧ stored t key = some row := by
  cases path with
  | range lo hi =>
    obtain ⟨scanned, hscanned, hkeys⟩ := bind_ok hrows
    obtain ⟨loKey, hlo, hscanned⟩ := bind_ok hscanned
    obtain ⟨hiKey, hhi, hscanned⟩ := bind_ok hscanned
    obtain ⟨found, rfl, hdistinct, hfound⟩ := mem_treeRows (β := Datum × Row) h
      (g := fun key row => ((decodeKey key).toOption.getD .null, row))
      (fun key raw row b hraw hstored hb => by
        obtain ⟨row', hdecode, hstored'⟩ := decode_stored h hraw
        cases hstored.symm.trans hstored'
        obtain ⟨pk, hpk, hb⟩ := bind_ok hb
        obtain ⟨row', hrow', hb⟩ := bind_ok hb
        cases hb
        cases hdecode.symm.trans (Session.mapError_ok hrow')
        rw [hpk]
        rfl) hscanned
    have hsame : rows = found := by
      rw [List.mapM_map] at hkeys
      refine (mapM_eq_map (fun p hp r hr => ?_) hkeys).trans (List.map_id found)
      obtain ⟨key, hkey, hr⟩ := bind_ok hr
      cases hr
      have hkept := kept_stored h ((hfound p.1 p.2).mp hp).2
      cases hkept.key.symm.trans (Session.mapError_ok hkey)
      rfl
    have hbounds : ∀ {b : Bound} {k : Option Bytes},
        b.mapM (fun b => (encodeKey b.1).mapError Fault.err) = .ok k ↔
          b.mapM (fun b => encodeKey b.1) = .ok k := by
      intro b k
      cases b with
      | none => simp [pure, Except.pure]
      | some b => cases hb : encodeKey b.1 <;> simp [hb, Except.mapError, Functor.map, Except.map]
    rw [hsame]
    refine ⟨hdistinct, fun key row => (hfound key row).trans (and_congr_left fun _ => ?_)⟩
    rw [AccessPath.Covers, Within, hbounds.mp hlo, hbounds.mp hhi]
    simp
  | fullScan =>
    have hall : (t.tree.toList.filter fun _ => true) = t.tree.toList := List.filter_eq_self.mpr fun _ _ => rfl
    rw [pathRows, ← hall] at hrows
    obtain ⟨found, rfl, hdistinct, hfound⟩ := @mem_treeRows _ _ _ h (fun _ => true) (Bytes × Row) _
      (fun key row => (key, row)) (fun key raw row b hraw hstored hb => by
        obtain ⟨row', hdecode, hstored'⟩ := decode_stored h hraw
        cases hstored.symm.trans hstored'
        obtain ⟨row', hrow', hb⟩ := bind_ok hb
        cases hb
        cases hdecode.symm.trans (Session.mapError_ok hrow')
        rfl) _ hrows
    rw [List.map_id' found]
    refine ⟨hdistinct, fun key row => (hfound key row).trans ?_⟩
    simp [AccessPath.Covers]
  | point _ | pkIn _ | secondaryIndex _ _ _ | secIn _ _ => cases hscan

theorem mem_substituteSnapshot (h : WellKept db session t) {covers : Bytes → Prop}
    {pin : SnapshotPin} (hpin : session.snapshot = some pin) {rows' : List (Bytes × Row)}
    (hdistinct : (rows.map Prod.fst).Nodup)
    (hmem : ∀ key row, (key, row) ∈ rows ↔ covers key ∧ stored t key = some row)
    (hrows : substituteSnapshot db session t rows = .ok rows') :
    (rows'.map Prod.fst).Nodup ∧ ∀ key row, ¬ Stages session t key →
      ((key, row) ∈ rows' ↔ Sees db session t key row ∧ (covers key ∨ Restores db session t key)) := by
  obtain ⟨found, hfound, hrows⟩ := bind_ok hrows
  obtain ⟨extra, hextra, hrows⟩ := bind_ok hrows
  cases hrows
  rw [hpin] at hextra
  obtain ⟨hextras, hrestored⟩ := Mvcc.Engine.mem_snapshotScanExtra (Session.mapError_ok hextra)
  have hperm : ∀ kept : List (Bytes × Row), (Mvcc.Engine.mergeExtra kept extra).Perm (kept ++ extra) := by
    intro kept
    unfold Mvcc.Engine.mergeExtra
    split
    · next hnil => simp [List.isEmpty_iff.mp hnil]
    · exact List.mergeSort_perm _ _
  rw [mapM_ok_iff] at hfound
  have hlooked : ∀ (r : Bytes × Row) (b : Bytes × Option Row),
      (do return (r.1, ← lookupVersion db session t r.1 (some r.2)) : Except Fault _) = .ok b →
      b.1 = r.1 ∧ lookupVersion db session t r.1 (some r.2) = .ok b.2 := by
    intro r b hb
    obtain ⟨seen, hseen, hb⟩ := bind_ok hb
    cases hb
    exact ⟨rfl, hseen⟩
  have hkeys : found.map Prod.fst = rows.map Prod.fst := by
    refine List.forall₂_eq_eq_eq ▸ List.forall₂_map_left_iff.mpr (List.forall₂_map_right_iff.mpr ?_)
    exact hfound.flip.imp fun _ _ hstep => (hlooked _ _ hstep).1
  have hkept : ∀ key row, (key, row) ∈ (found.filterMap fun r => r.2.map fun row => (r.1, row)) ↔
      ∃ old, (key, old) ∈ rows ∧ lookupVersion db session t key (some old) = .ok (some row) := by
    intro key row
    rw [List.mem_filterMap]
    constructor
    · rintro ⟨⟨key', seen⟩, hin, hpair⟩
      obtain ⟨row', hseen, hpair⟩ := Option.map_eq_some_iff.mp hpair
      cases hpair
      obtain ⟨⟨key'', old⟩, hold, hlook⟩ := exists_of_forall₂_right hfound _ hin
      obtain ⟨hkey, hlook⟩ := hlooked _ _ hlook
      obtain rfl : key' = key'' := hkey
      exact ⟨old, hold, hlook.trans (congrArg Except.ok hseen)⟩
    · rintro ⟨old, hold, hlook⟩
      obtain ⟨⟨key', seen⟩, hin, hlook'⟩ := exists_of_forall₂_left hfound _ hold
      obtain ⟨hkey, hlook'⟩ := hlooked _ _ hlook'
      obtain rfl : key' = key := hkey
      obtain rfl : some row = seen := Except.ok.inj (hlook.symm.trans hlook')
      exact ⟨(key', some row), hin, rfl⟩
  generalize hkeptRows : (found.filterMap fun r => r.2.map fun row => (r.1, row)) = kept at hkept hrestored
  have hkeptDistinct : (kept.map Prod.fst).Nodup := by
    rw [← hkeptRows, List.Nodup, List.pairwise_map, List.pairwise_filterMap]
    rw [← hkeys, List.Nodup, List.pairwise_map] at hdistinct
    refine hdistinct.imp fun {a b} hne x hx y hy heq => hne ?_
    obtain ⟨_, -, rfl⟩ := Option.map_eq_some_iff.mp hx
    obtain ⟨_, -, rfl⟩ := Option.map_eq_some_iff.mp hy
    exact heq
  constructor
  · rw [((hperm kept).map Prod.fst).nodup_iff, List.map_append, List.nodup_append]
    refine ⟨hkeptDistinct, hextras, fun a ha b hb heq => ?_⟩
    obtain ⟨e, he, rfl⟩ := List.mem_map.mp hb
    exact ((hrestored e.1 e.2).mp he).1 (heq ▸ ha)
  · intro key row hstages
    rw [Sees, visibleRow_unstaged h hstages, (hperm kept).mem_iff, List.mem_append, hkept, hrestored]
    constructor
    · rintro (⟨old, hold, hlook⟩ | ⟨-, hchain⟩)
      · obtain ⟨hcovers, hstored⟩ := (hmem key old).mp hold
        exact ⟨by rw [hstored, hlook], .inl hcovers⟩
      · exact ⟨lookupVersion_restored h hpin hchain _, .inr ⟨pin, row, hpin, hchain⟩⟩
    · rintro ⟨hlook, hreached⟩
      by_cases hin : ∃ old, (key, old) ∈ rows
      · obtain ⟨old, hold⟩ := hin
        rw [((hmem key old).mp hold).2] at hlook
        exact .inl ⟨old, hold, hlook⟩
      · refine .inr ⟨fun hmemKept => ?_, ?_⟩
        · obtain ⟨⟨key', row'⟩, he, rfl⟩ := List.mem_map.mp hmemKept
          obtain ⟨old, hold, -⟩ := (hkept key' row').mp he
          exact hin ⟨old, hold⟩
        · rcases hreached with hcovers | ⟨pin', row', hpin', hchain⟩
          · have hnone : stored t key = none := by
              cases hstored : stored t key with
              | none => rfl
              | some old => exact absurd ⟨old, (hmem key old).mpr ⟨hcovers, hstored⟩⟩ hin
            rw [hnone, lookupVersion, hpin, VersionState.snapshotLookup] at hlook
            simp only [Bool.false_eq_true, if_false] at hlook
            split at hlook
            · cases hlook
            · split at hlook
              · next hchain => exact hchain.trans (congrArg some (Except.ok.inj hlook))
              · cases hlook
          · cases hpin.symm.trans hpin'
            rw [lookupVersion_restored h hpin hchain] at hlook
            exact hchain.trans (congrArg some (Except.ok.inj hlook))

/-! ## Staged writes and the condition -/

theorem replaceRow_spec (key : Bytes) (row : Row) : ∀ rows : List (Bytes × Row),
    (replaceRow key row rows = none ∧ key ∉ rows.map Prod.fst) ∨
    ∃ before old after, rows = before ++ (key, old) :: after ∧ key ∉ before.map Prod.fst ∧
      replaceRow key row rows = some (before ++ (key, row) :: after)
  | [] => .inl ⟨rfl, by simp⟩
  | (k, r) :: rows => by
    rw [replaceRow]
    by_cases hk : k = key
    · subst hk
      rw [if_pos rfl]
      exact .inr ⟨[], r, rows, rfl, by simp, rfl⟩
    · rw [if_neg hk]
      rcases replaceRow_spec key row rows with ⟨hnone, hnew⟩ | ⟨before, old, after, rfl, hbefore, hsome⟩
      · rw [hnone]
        exact .inl ⟨rfl, by simpa [Ne.symm hk] using hnew⟩
      · rw [hsome]
        exact .inr ⟨(k, r) :: before, old, after, rfl, by simpa [Ne.symm hk] using hbefore, rfl⟩

theorem mem_overlayWrite_ne {key' : Bytes} (hne : key' ≠ key) (rows : List (Bytes × Row)) (w : Option Row) :
    (key', row) ∈ overlayWrite rows key w ↔ (key', row) ∈ rows := by
  cases w with
  | none => simp [overlayWrite, hne]
  | some new =>
    rw [overlayWrite]
    rcases replaceRow_spec key new rows with ⟨hnone, -⟩ | ⟨before, old, after, rfl, -, hsome⟩
    · rw [hnone, Option.getD_none, (List.mergeSort_perm _ _).mem_iff]
      simp [hne]
    · rw [hsome, Option.getD_some]
      simp [hne]

def Fits (rows : List (Bytes × Row)) (key : Bytes) (w : Option Row) : Prop :=
  (rows.map Prod.fst).Nodup ∨ ∀ row, (key, row) ∈ rows → w = some row

theorem mem_overlayWrite_self (hfits : Fits rows key w) :
    (key, row) ∈ overlayWrite rows key w ↔ w = some row := by
  cases w with
  | none => simp [overlayWrite]
  | some new =>
    rw [overlayWrite, Option.some.injEq]
    rcases replaceRow_spec key new rows with ⟨hnone, hnew⟩ | ⟨before, old, after, rfl, hbefore, hsome⟩
    · have hrow : (key, row) ∉ rows := fun hin => hnew (List.mem_map_of_mem hin)
      rw [hnone, Option.getD_none, (List.mergeSort_perm _ _).mem_iff]
      simp [hrow, eq_comm]
    · have hrest : (key, row) ∈ before ∨ (key, row) ∈ after → new = row := by
        rcases hfits with hdistinct | hsame
        · rw [List.map_append, List.map_cons, List.nodup_append, List.nodup_cons] at hdistinct
          rintro (hin | hin)
          · exact absurd (List.mem_map_of_mem hin) hbefore
          · exact absurd (List.mem_map_of_mem hin) hdistinct.2.1.1
        · intro hin
          refine Option.some.inj (hsame row ?_)
          rcases hin with hin | hin <;> simp [hin]
      rw [hsome, Option.getD_some, List.mem_append, List.mem_cons, Prod.mk.injEq]
      constructor
      · rintro (hin | ⟨-, rfl⟩ | hin)
        · exact hrest (.inl hin)
        · rfl
        · exact hrest (.inr hin)
      · rintro rfl
        exact .inr (.inl ⟨rfl, rfl⟩)

theorem nodup_overlayWrite (w : Option Row) (h : (rows.map Prod.fst).Nodup) :
    ((overlayWrite rows key w).map Prod.fst).Nodup := by
  cases w with
  | none => exact h.sublist (List.filter_sublist.map Prod.fst)
  | some new =>
    rw [overlayWrite]
    rcases replaceRow_spec key new rows with ⟨hnone, hnew⟩ | ⟨before, old, after, rfl, -, hsome⟩
    · rw [hnone, Option.getD_none, ((List.mergeSort_perm _ _).map Prod.fst).nodup_iff, List.map_append,
        List.nodup_append]
      refine ⟨h, by simp, fun a ha b hb heq => ?_⟩
      obtain rfl : b = key := by simpa using hb
      exact hnew (heq ▸ ha)
    · rw [hsome, Option.getD_some]
      simpa using h

theorem mem_overlay : ∀ {writes : List (Bytes × Option Row)} {rows : List (Bytes × Row)},
    (writes.map Prod.fst).Nodup → (∀ key w, (key, w) ∈ writes → Fits rows key w) →
      ((key, row) ∈ writes.foldl (fun rows w => overlayWrite rows w.1 w.2) rows ↔
        match writes.lookup key with
        | some w => w = some row
        | none => (key, row) ∈ rows)
  | [], rows, _, _ => Iff.rfl
  | (k, w) :: writes, rows, hdistinct, hfits => by
    obtain ⟨hk, hdistinct⟩ := List.nodup_cons.mp hdistinct
    have hfits' : ∀ key w', (key, w') ∈ writes → Fits (overlayWrite rows k w) key w' := by
      intro key' w' hin
      have hne : key' ≠ k := by
        rintro rfl
        exact hk (List.mem_map.mpr ⟨(key', w'), hin, rfl⟩)
      rcases hfits key' w' (List.mem_cons_of_mem _ hin) with hnodup | hsame
      · exact .inl (nodup_overlayWrite w hnodup)
      · exact .inr fun row hrow => hsame row ((mem_overlayWrite_ne hne rows w).mp hrow)
    rw [List.foldl_cons, mem_overlay hdistinct hfits', List.lookup_cons]
    by_cases hkey : key = k
    · subst hkey
      have hnone : writes.lookup key = none := by
        rw [List.lookup_eq_none_iff]
        intro p hp
        have hne : key ≠ p.1 := fun heq => hk (List.mem_map.mpr ⟨p, hp, heq.symm⟩)
        simpa using hne
      simp only [hnone, beq_self_eq_true]
      exact mem_overlayWrite_self (hfits key w List.mem_cons_self)
    · have hbeq : (key == k) = false := by simpa using hkey
      simp only [hbeq]
      cases writes.lookup key with
      | none => exact mem_overlayWrite_ne hkey rows w
      | some w' => exact Iff.rfl

theorem lookup_of_mem {κ α : Type} [BEq κ] [LawfulBEq κ] {k : κ} {a : α} : ∀ {l : List (κ × α)},
    (l.map Prod.fst).Nodup → (k, a) ∈ l → l.lookup k = some a
  | (k', a') :: l, hdistinct, hin => by
    obtain ⟨hnew, hdistinct⟩ := List.nodup_cons.mp hdistinct
    rcases List.mem_cons.mp hin with heq | hin
    · cases heq
      exact List.lookup_cons_self
    · have hne : k ≠ k' := fun heq => hnew (heq ▸ List.mem_map.mpr ⟨(k, a), hin, rfl⟩)
      rw [List.lookup_cons, beq_eq_false_iff_ne.mpr hne]
      exact lookup_of_mem hdistinct hin

theorem lookup_filter_table {name : String} (key : Bytes) : ∀ staged : List (TKey × Option Row),
    ((staged.filter fun w => w.1.1 = name).map fun w => (w.1.2, w.2)).lookup key = staged.lookup (name, key)
  | [] => rfl
  | ((name', key'), w) :: staged => by
    have ih := @lookup_filter_table name key staged
    by_cases hname : name' = name
    · subst hname
      by_cases hkey : key = key'
      · simp [hkey]
      · have hpair : ((name', key) == (name', key')) = false := by simpa using hkey
        rw [List.filter_cons_of_pos (by simp), List.map_cons, List.lookup_cons, List.lookup_cons, hpair, ih,
          beq_eq_false_iff_ne.mpr hkey]
    · have hpair : ((name, key) == (name', key')) = false := by simp [Ne.symm hname]
      rw [List.filter_cons_of_neg (by simpa using hname), List.lookup_cons, hpair, ih]

/-- The rows with the staged writes of the table over them. -/
theorem mem_overlayStaged (h : WellKept db session t) {reached : Bytes → Prop}
    (hfits : (rows.map Prod.fst).Nodup ∨ ∀ key row, (key, row) ∈ rows → Sees db session t key row)
    (hrows : ∀ key row, ¬ Stages session t key →
      ((key, row) ∈ rows ↔ Sees db session t key row ∧ reached key)) :
    (key, row) ∈ overlayStaged session t rows ↔
      Sees db session t key row ∧ (reached key ∨ Stages session t key) := by
  have hsees : ∀ {staged key w}, session.staged = some staged → staged.lookup (t.info.name, key) = some w →
      ∀ row, w = some row ↔ Sees db session t key row := by
    intro staged key w hstaged hlookup row
    rw [Sees, visibleRow_staged hstaged hlookup, Except.ok.injEq]
  unfold overlayStaged
  split
  · next hnone =>
    have hidle : ¬ Stages session t key := by
      rintro ⟨staged, _, hstaged, -⟩
      rw [hnone] at hstaged
      cases hstaged
    rw [hrows key row hidle, or_iff_left hidle]
  · next staged hstaged =>
    have hdistinct := (h.staged staged hstaged).1
    let writes := (staged.filter fun w => w.1.1 = t.info.name).map fun w => (w.1.2, w.2)
    have hlookup : ∀ key, writes.lookup key = staged.lookup (t.info.name, key) := fun key =>
      lookup_filter_table key staged
    have hwrites : (writes.map Prod.fst).Nodup := by
      rw [List.Nodup, List.pairwise_map] at hdistinct
      rw [List.map_map, List.Nodup, List.pairwise_map, List.pairwise_filter]
      refine hdistinct.imp fun {a b} hne ha hb heq => hne (Prod.ext ?_ heq)
      simp only [decide_eq_true_eq] at ha hb
      rw [ha, hb]
    have hwritten : ∀ key w, (key, w) ∈ writes → staged.lookup (t.info.name, key) = some w := by
      intro key w hin
      rw [← hlookup]
      exact lookup_of_mem hwrites hin
    have hfold : (staged.filter fun w => w.1.1 = t.info.name).foldl
        (fun rows w => overlayWrite rows w.1.2 w.2) rows =
          writes.foldl (fun rows w => overlayWrite rows w.1 w.2) rows := by
      rw [List.foldl_map]
    rw [hfold, mem_overlay hwrites fun key w hin => ?_, hlookup]
    · cases hstagedKey : staged.lookup (t.info.name, key) with
      | some w =>
        have hstages : Stages session t key := ⟨staged, w, hstaged, hstagedKey⟩
        simp only [hsees hstaged hstagedKey row, hstages, or_true, and_true]
      | none =>
        have hidle : ¬ Stages session t key := by
          rintro ⟨staged', w, hstaged', hlookup'⟩
          cases hstaged.symm.trans hstaged'
          rw [hstagedKey] at hlookup'
          cases hlookup'
        simp only [hrows key row hidle, or_iff_left hidle]
    · rcases hfits with hnodup | hseen
      · exact .inl hnodup
      · exact .inr fun row hrow => (hsees hstaged (hwritten key w hin) row).mpr (hseen key row hrow)

theorem mem_keptRows {test : Row → Except Error Bool} : ∀ {rows kept : List Row},
    keptRows test rows = .ok kept → (row ∈ kept ↔ row ∈ rows ∧ test row = .ok true)
  | [], kept, h => by
    cases h
    simp
  | r :: rows, kept, h => by
    obtain ⟨keep, hkeep, h⟩ := bind_ok h
    cases keep with
    | false =>
      rw [mem_keptRows h, List.mem_cons]
      constructor
      · exact fun hin => ⟨.inr hin.1, hin.2⟩
      · rintro ⟨rfl | hin, htest⟩
        · rw [hkeep] at htest
          cases htest
        · exact ⟨hin, htest⟩
    | true =>
      obtain ⟨rest, hrest, h⟩ := bind_ok h
      cases h
      rw [List.mem_cons, List.mem_cons, mem_keptRows hrest]
      constructor
      · rintro (rfl | hin)
        · exact ⟨.inl rfl, hkeep⟩
        · exact ⟨.inr hin.1, hin.2⟩
      · rintro ⟨rfl | hin, htest⟩
        · exact .inl rfl
        · exact .inr ⟨hin, htest⟩

end

/-! ## What a statement selects -/

section
variable (fmt : Printing) (planner : Table → Option Expr → Except Error AccessPath)
  {db : Database} {session : Session} {t : Table}

def Holds (t : Table) : Option Expr → Row → Prop
  | none, _ => True
  | some sel, row => keepsRow fmt [] t.schema sel row = .ok true

def filtered (t : Table) (selection : Option Expr) (rows : List Row) : Except Fault (List Row) :=
  match selection with
  | none => pure rows
  | some sel => (keptRows (keepsRow fmt [] t.schema sel) rows).mapError Fault.err

theorem mem_scanned (h : WellKept db session t) {path : AccessPath} {found rows : List (Bytes × Row)}
    (hfound : pathRows db session t path = .ok found)
    (hrows : (if path.isScan && session.snapshot.isSome then substituteSnapshot db session t found
      else pure found) = .ok rows) :
    ((rows.map Prod.fst).Nodup ∨ ∀ key row, (key, row) ∈ rows → Sees db session t key row) ∧
      ∀ key row, ¬ Stages session t key → ((key, row) ∈ rows ↔
        Sees db session t key row ∧
          (path.Covers t key ∨ path.isScan = true ∧ Restores db session t key)) := by
  cases hscan : path.isScan with
  | false =>
    rw [hscan, Bool.false_and, if_neg (by simp)] at hrows
    cases hrows
    refine ⟨.inr fun key row hin => ((mem_pathRows_points hscan hfound).mp hin).2, fun key row _ => ?_⟩
    rw [mem_pathRows_points hscan hfound, and_comm]
    simp
  | true =>
    obtain ⟨hdistinct, hmem⟩ := mem_pathRows_scan h hscan hfound
    cases hpin : session.snapshot with
    | none =>
      rw [hscan, hpin, if_neg (by simp)] at hrows
      cases hrows
      refine ⟨.inl hdistinct, fun key row hstages => ?_⟩
      have hidle : ¬ Restores db session t key := by
        rintro ⟨pin, _, hpin', -⟩
        rw [hpin] at hpin'
        cases hpin'
      rw [hmem, Sees, visibleRow_unstaged h hstages, lookupVersion, hpin,
        VersionState.snapshotLookup, and_comm]
      simp [hidle, Except.mapError]
    | some pin =>
      rw [hscan, hpin, if_pos (by simp)] at hrows
      obtain ⟨hdistinct', hmem'⟩ := mem_substituteSnapshot h hpin hdistinct hmem hrows
      refine ⟨.inl hdistinct', fun key row hstages => ?_⟩
      simp [hmem' key row hstages]

/-- `visible_rows` returns those rows that the session sees, the path reaches and the
condition holds of. -/
theorem mem_visibleRows (h : WellKept db session t) {selection : Option Expr} {path : AccessPath} {rows :
    List Row}
    (hpath : planner t selection = .ok path) (hrows :
      visibleRows fmt planner db session [] t selection = .ok rows)
    (row : Row) :
    row ∈ rows ↔ ∃ key, Sees db session t key row ∧ Reaches db session t path key ∧
        Holds fmt t selection row := by
  obtain ⟨path', hpath', hrows⟩ := bind_ok hrows
  cases hpath.symm.trans (Session.mapError_ok hpath')
  obtain ⟨found, hfound, hrows⟩ := bind_ok hrows
  obtain ⟨scanned, hscanned, hrows⟩ : ∃ scanned,
      (if path.isScan && session.snapshot.isSome then substituteSnapshot db session t found
        else pure found) = .ok scanned ∧
      filtered fmt t selection ((overlayStaged session t scanned).map Prod.snd) = .ok rows := by
    by_cases hscan : (path.isScan && session.snapshot.isSome) = true
    · rw [if_pos hscan] at hrows ⊢
      exact bind_ok hrows
    · rw [if_neg hscan] at hrows ⊢
      exact bind_ok hrows
  obtain ⟨hfits, hmem⟩ := mem_scanned h hfound hscanned
  have hall : row ∈ (overlayStaged session t scanned).map Prod.snd ↔
      ∃ key, Sees db session t key row ∧ Reaches db session t path key := by
    rw [List.mem_map]
    constructor
    · rintro ⟨⟨key, row⟩, hin, rfl⟩
      obtain ⟨hsees, hreached⟩ := (mem_overlayStaged h hfits hmem).mp hin
      exact ⟨key, hsees, by rw [Reaches]; tauto⟩
    · rintro ⟨key, hsees, hreached⟩
      exact ⟨(key, row), (mem_overlayStaged h hfits hmem).mpr
        ⟨hsees, by rw [Reaches] at hreached; tauto⟩, rfl⟩
  cases selection with
  | none =>
    cases hrows
    rw [hall]
    simp [Holds]
  | some sel =>
    rw [mem_keptRows (Session.mapError_ok hrows), hall, Holds]
    constructor
    · rintro ⟨⟨key, hsees, hreached⟩, htest⟩
      exact ⟨key, hsees, hreached, htest⟩
    · rintro ⟨key, hsees, hreached, htest⟩
      exact ⟨⟨key, hsees, hreached⟩, htest⟩

/-- A full scan returns the rows that the session sees and the condition holds of, and no
path returns another row. -/
theorem paths_within_full_scan (h : WellKept db session t) {selection : Option Expr}
    {rows all : List Row} (hrows : visibleRows fmt planner db session [] t selection = .ok rows)
    (hall : visibleRows fmt (fun _ _ => .ok .fullScan) db session [] t selection = .ok all) :
    (∀ row, row ∈ all ↔ ∃ key, Sees db session t key row ∧ Holds fmt t selection row) ∧
      rows ⊆ all := by
  have hmem : ∀ row, row ∈ all ↔ ∃ key, Sees db session t key row ∧ Holds fmt t selection row := by
    intro row
    rw [mem_visibleRows fmt _ h rfl hall]
    simp [Reaches, AccessPath.Covers]
  obtain ⟨path, hpath, -⟩ := bind_ok hrows
  refine ⟨hmem, fun row hrow => (hmem row).mpr ?_⟩
  obtain ⟨key, hsees, -, hholds⟩ :=
    (mem_visibleRows fmt planner h (Session.mapError_ok hpath) hrows row).mp hrow
  exact ⟨key, hsees, hholds⟩

end

end HenchDB.Query
