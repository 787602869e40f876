import HenchDB.Ddl.Dictionary

/-!
# The catalog stays consistent

Every statement but one keeps the catalog consistent by its own checks: a new
foreign key finds its table and column, a table that is referred to is not
dropped, an index that a foreign key needs stays, and a foreign key never leaves
its database, so that `DROP DATABASE` takes children and parents together.  The
exception is `CREATE TABLE`: it neither looks whether the database of the session
is still there nor whether two columns have one name.

A restart reads what the statements logged.  What it finds is the catalog that
was there (`Mirror`), unless a crash left the record of a statement without its
`Commit` record: the transaction ids begin again, and a later statement of the
same id commits the record after all.
-/

namespace HenchDB

open Std (ExtTreeMap ExtTreeSet)

/-! ## Names -/

namespace Catalog

theorem prefix_dot_iff {l k : List Char} (hl : '.' ∉ l) :
    (l ++ ['.']) <+: k ↔ '.' ∈ k ∧ k.takeWhile (· ≠ '.') = l := by
  have hall : ∀ a ∈ l, decide (a ≠ '.') = true := by
    intro a ha
    rw [decide_eq_true_eq]
    rintro rfl
    exact hl ha
  constructor
  · rintro ⟨rest, rfl⟩
    refine ⟨by simp, ?_⟩
    rw [List.append_assoc, List.takeWhile_append_of_pos hall]
    simp
  · rintro ⟨hdot, rfl⟩
    have hrest := List.takeWhile_append_dropWhile (p := (· ≠ '.')) (l := k)
    cases hd : k.dropWhile (· ≠ '.') with
    | nil =>
      rw [hd, List.append_nil] at hrest
      rw [← hrest] at hdot
      exact absurd hdot hl
    | cons d rest =>
      have hd' : d = '.' := by
        have := List.head?_dropWhile_not (· ≠ '.') k
        rw [hd] at this
        simpa using this
      refine ⟨rest, ?_⟩
      rw [List.append_assoc]
      rw [hd, hd'] at hrest
      exact hrest

theorem inDatabase_iff (db : Ident) (key : String) :
    inDatabase db.1 key = true ↔ databasePart key = some db.1 := by
  rw [inDatabase, dbPrefix, List.isPrefixOf_iff_prefix, prefix_dot_iff db.2, databasePart]
  constructor
  · rintro ⟨hdot, htake⟩
    rw [if_pos hdot, htake, String.ofList_toList]
  · intro h
    split at h
    · next hdot =>
      refine ⟨hdot, ?_⟩
      rw [← Option.some.inj h, String.toList_ofList]
    · cases h

theorem qualify_eq (db name : Ident) : qualify db name = db.1 ++ "." ++ name.1 := by
  rw [qualify, if_neg]
  simpa using name.2

@[simp]
theorem databasePart_qualify (db name : Ident) : databasePart (qualify db name) = some db.1 := by
  rw [← inDatabase_iff, inDatabase, dbPrefix, List.isPrefixOf_iff_prefix, qualify_eq]
  refine ⟨name.1.toList, ?_⟩
  rw [String.toList_append, String.toList_append]
  rfl

end Catalog

/-! ## Tables -/

namespace Table

variable {t t' : Table} {name column : String} {fk : ForeignKeyDef}

theorem addIndex_column (h : t.addIndex name column = .ok t') :
    t'.secondaryIndexes = t.secondaryIndexes ++ [{ name := name, column := column }] := by
  unfold Table.addIndex at h
  split at h
  · cases h
  · next i _ =>
    split at h
    · cases h
    · split at h
      · cases h
      · cases hkeys : t.indexKeys i with
        | error e =>
          rw [hkeys] at h
          cases h
        | ok keys =>
          rw [hkeys] at h
          cases h
          simp [secondaryIndexes]

/-- An index of a table without rows is empty. -/
theorem addIndex_indexes (hempty : t.tree = ∅) (h : t.addIndex name column = .ok t') :
    ∃ i, t.schema.indexOf column = some i ∧
      t'.indexes = t.indexes ++
        [{ info := { name := name, column := column }, colIdx := i, tree := ∅ }] := by
  unfold Table.addIndex at h
  split at h
  · cases h
  · next i hi =>
    split at h
    · cases h
    · split at h
      · cases h
      · have hkeys : t.indexKeys i = .ok [] := by
          rw [Table.indexKeys, Table.scan, hempty]
          rfl
        rw [hkeys] at h
        cases h
        exact ⟨i, hi, rfl⟩

theorem covers_of_append {ds : List IndexDef} (hinfo : t'.info = t.info)
    (hidx : t'.secondaryIndexes = t.secondaryIndexes ++ ds) (h : t.covers fk = true) :
    t'.covers fk = true := by
  rw [covers, Bool.or_eq_true] at h ⊢
  rw [schema, hinfo, hidx, List.any_append]
  rcases h with h | h
  · exact .inl h
  · exact .inr (by rw [h, Bool.true_or])

theorem ensureIndex_spec (h : t.ensureIndex fk = .ok t') :
    t'.info = t.info ∧ t'.covers fk = true ∧ ∀ fk', t.covers fk' = true → t'.covers fk' = true := by
  unfold ensureIndex at h
  split at h
  · next hcovers =>
    cases h
    exact ⟨rfl, hcovers, fun _ h => h⟩
  · have hinfo := Ddl.Engine.addIndex_info h
    have hidx := addIndex_column h
    refine ⟨hinfo, ?_, fun fk' => covers_of_append hinfo hidx⟩
    rw [covers, hidx, List.any_append]
    simp

theorem ensure_covers : ∀ {fks : List ForeignKeyDef} {t t' : Table},
    fks.foldlM ensureIndex t = .ok t' →
      (∀ fk ∈ fks, t'.covers fk = true) ∧ ∀ fk, t.covers fk = true → t'.covers fk = true
  | [], t, t', h => by
    cases h
    exact ⟨fun _ hfk => (nomatch hfk), fun _ h => h⟩
  | fk :: fks, t, t', h => by
    rw [List.foldlM_cons] at h
    cases hone : ensureIndex t fk with
    | error e =>
      rw [hone] at h
      cases h
    | ok t₁ =>
      rw [hone] at h
      obtain ⟨-, hfk, hkeep⟩ := ensureIndex_spec hone
      have hih : (∀ fk' ∈ fks, t'.covers fk' = true) ∧
          ∀ fk', t₁.covers fk' = true → t'.covers fk' = true := ensure_covers h
      obtain ⟨hrest, hkeep'⟩ := hih
      refine ⟨fun fk' hfk' => ?_, fun fk' h => hkeep' fk' (hkeep fk' h)⟩
      rcases List.mem_cons.mp hfk' with rfl | hfk'
      · exact hkeep' _ hfk
      · exact hrest fk' hfk'

theorem ensure_unfilled {bare : TableDef} : ∀ {fks : List ForeignKeyDef} {t t' : Table},
    Ddl.Engine.Unfilled bare t → fks.foldlM ensureIndex t = .ok t' → Ddl.Engine.Unfilled bare t'
  | [], t, t', hfill, h => by
    cases h
    exact hfill
  | fk :: fks, t, t', hfill, h => by
    rw [List.foldlM_cons] at h
    cases hone : ensureIndex t fk with
    | error e =>
      rw [hone] at h
      cases h
    | ok t₁ =>
      rw [hone] at h
      refine ensure_unfilled ?_ h
      unfold ensureIndex at hone
      split at hone
      · cases hone
        exact hfill
      · exact hfill.addIndex hone

/-- `fk_check_drop_index` refuses exactly the last index of a foreign key. -/
theorem lastIndexOf_eq_none (h : t.lastIndexOf name = none) : t.fkCheckDropIndex name = true := by
  unfold lastIndexOf at h
  unfold fkCheckDropIndex
  split
  · rfl
  · next d hd =>
    rw [hd] at h
    rw [List.all_eq_true]
    intro fk hfk
    have := List.find?_eq_none.mp h fk hfk
    simpa [imp_iff_not_or] using this

/-- What every table keeps that DDL made. -/
structure Kept (key : String) (t : Table) : Prop where
  named : t.info.name = key
  distinct : (t.schema.columns.map ColumnDef.name).Nodup
  covered : ∀ fk ∈ t.info.foreignKeys, t.covers fk = true
  nearby : ∀ fk ∈ t.info.foreignKeys, Catalog.databasePart fk.refTable = Catalog.databasePart key
  empty : t.tree = ∅
  indexes : ∀ i ∈ t.indexes, t.schema.indexOf i.info.column = some i.colIdx ∧ i.tree = ∅

namespace Kept

variable {key : String}

theorem sound (h : t.Kept key) : t.Sound where
  keys k raw hk := by
    rw [h.empty] at hk
    simp at hk
  covered := h.covered

/-- The table is unfilled, up to its statistics. -/
theorem unfilled (h : t.Kept key) :
    Ddl.Engine.Unfilled { t.info with stats := t.stats }
      { t with info := { t.info with stats := t.stats } } where
  info := rfl
  tree := h.empty
  stats := rfl
  indexes := h.indexes

theorem same_new (h : t.Kept key) : t.Same (Table.new t.tableDef) :=
  have hsame := h.unfilled.same
  ⟨hsame.tableDef, hsame.tree, hsame.indexes⟩

theorem congr (h : t.Kept key) (hsame : t.Same t') : t'.Kept key := by
  have hschema : t'.schema = t.schema := hsame.schema.symm
  have hdef := hsame.tableDef.symm
  have hfks : t'.info.foreignKeys = t.info.foreignKeys := by
    show t'.tableDef.foreignKeys = t.tableDef.foreignKeys
    rw [hdef]
  have hidx : t'.secondaryIndexes = t.secondaryIndexes := congrArg TableDef.indexes hdef
  constructor
  · show t'.tableDef.name = key
    rw [hdef]
    exact h.named
  · rw [hschema]
    exact h.distinct
  · rw [hfks]
    intro fk hfk
    rw [covers, hschema, hidx]
    exact h.covered fk hfk
  · rw [hfks]
    exact h.nearby
  · rw [← hsame.tree]
    exact h.empty
  · rw [← hsame.indexes, hschema]
    exact h.indexes

theorem addIndex (h : t.Kept key) (ht : t.addIndex name column = .ok t') : t'.Kept key := by
  have hinfo := Ddl.Engine.addIndex_info ht
  obtain ⟨i, hi, hindexes⟩ := addIndex_indexes h.empty ht
  constructor
  · rw [hinfo]
    exact h.named
  · rw [schema, hinfo]
    exact h.distinct
  · exact (h.sound.addIndex ht).covered
  · rw [hinfo]
    exact h.nearby
  · rw [(addIndex_spec ht).1]
    exact h.empty
  · intro j hj
    rw [schema, hinfo]
    rw [hindexes] at hj
    rcases List.mem_append.mp hj with hj | hj
    · exact h.indexes j hj
    · rw [List.mem_singleton.mp hj]
      exact ⟨hi, rfl⟩

theorem dropIndex (h : t.Kept key) (hlast : t.lastIndexOf name = none)
    (ht : t.dropIndex name = .ok t') : t'.Kept key := by
  have hinfo := Ddl.Engine.dropIndex_info ht
  have hsound := h.sound.dropIndex (lastIndexOf_eq_none hlast) ht
  unfold Table.dropIndex at ht
  split at ht
  · cases ht
  · next pos hpos =>
    cases ht
    exact
      { named := h.named
        distinct := h.distinct
        covered := hsound.covered
        nearby := h.nearby
        empty := h.empty
        indexes := fun i hi => h.indexes i (List.mem_of_mem_eraseIdx hi) }

end Kept

end Table

/-! ## What a new table is checked for -/

section NewTable

variable {c : Catalog} {db name : Ident} {columns : List ColumnSpec} {specs : List ForeignKeySpec}
  {t : Table}

/-- What a traversal returns comes from its list, in order. -/
theorem forall₂_of_mapM {α β ε : Type} {f : α → Except ε β} : ∀ {l : List α} {bs : List β},
    l.mapM f = .ok bs → List.Forall₂ (fun a b => f a = .ok b) l bs
  | [], bs, h => by
    cases h
    exact .nil
  | a :: l, bs, h => by
    rw [List.mapM_cons] at h
    cases hb : f a with
    | error e =>
      rw [hb] at h
      cases h
    | ok b =>
      cases hbs : l.mapM f with
      | error e =>
        rw [hb, hbs] at h
        cases h
      | ok bs' =>
        rw [hb, hbs] at h
        cases h
        exact .cons hb (forall₂_of_mapM hbs)

theorem exists_of_mem_mapM {α β ε : Type} {f : α → Except ε β} {l : List α} {bs : List β} {b : β}
    (h : l.mapM f = .ok bs) (hb : b ∈ bs) : ∃ a, f a = .ok b := by
  have hall := forall₂_of_mapM h
  clear h
  induction hall with
  | nil => cases hb
  | cons hab _ ih =>
    rcases List.mem_cons.mp hb with rfl | hb
    · exact ⟨_, hab⟩
    · exact ih hb

theorem toDef_name {spec : ColumnSpec} {col : ColumnDef} (h : spec.toDef = .ok col) :
    col.name = spec.name := by
  unfold ColumnSpec.toDef at h
  cases hp : ColumnType.parse spec.ctype with
  | error e =>
    rw [hp] at h
    cases h
  | ok ctype =>
    simp only [hp, bind, Except.bind] at h
    split at h
    · cases h
    · cases h
      rfl

theorem newSchema_names {schema : Schema} (h : newSchema columns = .ok schema) :
    schema.columns.map ColumnDef.name = columns.map ColumnSpec.name := by
  unfold newSchema at h
  cases hdefs : columns.mapM ColumnSpec.toDef with
  | error e =>
    rw [hdefs] at h
    cases h
  | ok defs =>
    have hnames : defs.map ColumnDef.name = columns.map ColumnSpec.name := by
      have hall := forall₂_of_mapM hdefs
      clear hdefs h
      induction hall with
      | nil => rfl
      | cons hab _ ih => rw [List.map_cons, List.map_cons, toDef_name hab, ih]
    simp only [hdefs, bind, Except.bind] at h
    split at h
    · cases h
    · split at h
      · cases h
      · split at h
        · cases h
        · split at h
          · cases h
          · cases h
            exact hnames

/-- A foreign key refers to its own table or to one that is there, and to a column
of it; both are of the database of the session. -/
theorem fkBuildDef_spec {schema : Schema} {spec : ForeignKeySpec} {fk : ForeignKeyDef}
    (h : c.fkBuildDef db (qualify db name) name schema spec = .ok fk) :
    Catalog.databasePart fk.refTable = some db.1 ∧
      ((fk.refTable = qualify db name ∧ schema.indexOf fk.refColumn ≠ none) ∨
        ∃ p, c.tables[fk.refTable]? = some p ∧ p.schema.indexOf fk.refColumn ≠ none) := by
  unfold Catalog.fkBuildDef at h
  dsimp only at h
  split at h
  · cases h
  · split at h
    · next hself =>
      split at h
      · cases h
      · next hcol =>
        cases h
        exact ⟨Catalog.databasePart_qualify db name, .inl ⟨rfl, hcol⟩⟩
    · next hself =>
      split at h
      · cases h
      · next parent hparent =>
        split at h
        · cases h
        · next hcol =>
          cases h
          exact ⟨Catalog.databasePart_qualify db spec.refTable, .inr ⟨parent, hparent, hcol⟩⟩

/-- What `exec_create_table` has in hand before it inserts. -/
theorem newTable_spec (h : c.newTable db name columns specs = .ok t) :
    ∃ schema fks, schema.columns.map ColumnDef.name = columns.map ColumnSpec.name ∧
      (∀ fk ∈ fks, ∃ spec, c.fkBuildDef db (qualify db name) name schema spec = .ok fk) ∧
      Ddl.Engine.Unfilled
        { name := qualify db name, schema := schema, indexes := [], foreignKeys := fks, stats := none } t ∧
      ∀ fk ∈ fks, t.covers fk = true := by
  unfold Catalog.newTable at h
  cases hschema : newSchema columns with
  | error e =>
    rw [hschema] at h
    cases h
  | ok schema =>
    cases hfks : c.fkBuildDefs db (qualify db name) name schema specs with
    | error e =>
      simp only [hschema, bind, Except.bind, Except.mapError, hfks] at h
      cases h
    | ok fks =>
      simp only [hschema, bind, Except.bind, Except.mapError, hfks] at h
      refine ⟨schema, fks, newSchema_names hschema, fun fk hfk => exists_of_mem_mapM hfks hfk, ?_,
        (Table.ensure_covers h).1⟩
      exact Table.ensure_unfilled ⟨rfl, rfl, rfl, fun i hi => by simp [Table.new] at hi⟩ h

theorem newTable_kept (h : c.newTable db name columns specs = .ok t)
    (hdistinct : (columns.map ColumnSpec.name).Nodup) : t.Kept (qualify db name) := by
  obtain ⟨schema, fks, hnames, hbuilt, hfill, hcovers⟩ := newTable_spec h
  constructor
  · rw [hfill.info]
  · rw [Table.schema, hfill.info, hnames]
    exact hdistinct
  · rw [hfill.info]
    exact hcovers
  · rw [hfill.info]
    intro fk hfk
    obtain ⟨spec, hspec⟩ := hbuilt fk hfk
    rw [(fkBuildDef_spec hspec).1, Catalog.databasePart_qualify]
  · exact hfill.tree
  · rw [Table.schema, hfill.info]
    exact hfill.indexes

theorem newTable_parents (h : c.newTable db name columns specs = .ok t) :
    ∀ fk ∈ t.info.foreignKeys,
      (fk.refTable = qualify db name ∧ t.schema.indexOf fk.refColumn ≠ none) ∨
        ∃ p, c.tables[fk.refTable]? = some p ∧ p.schema.indexOf fk.refColumn ≠ none := by
  obtain ⟨schema, fks, -, hbuilt, hfill, -⟩ := newTable_spec h
  rw [Table.schema, hfill.info]
  intro fk hfk
  obtain ⟨spec, hspec⟩ := hbuilt fk hfk
  exact (fkBuildDef_spec hspec).2

theorem newTable_same (h : c.newTable db name columns specs = .ok t) :
    t.info.name = qualify db name ∧
      t.Same (Table.new { t.info with indexes := t.secondaryIndexes }) := by
  obtain ⟨schema, fks, -, -, hfill, -⟩ := newTable_spec h
  have hinfo := hfill.info
  refine ⟨by rw [hinfo], ?_⟩
  rw [hinfo]
  exact hfill.same

end NewTable

/-! ## Consistency -/

namespace Catalog

/-- The database of every table exists, columns have distinct names, foreign keys
refer to a table and a column that exist, and their columns have indexes. -/
structure Consistent (c : Catalog) : Prop where
  qualified : ∀ (key : String) t, c.tables[key]? = some t →
    ∃ db, databasePart key = some db ∧ db ∈ c.databases
  distinct : ∀ (key : String) t, c.tables[key]? = some t →
    (t.schema.columns.map ColumnDef.name).Nodup
  parents : ∀ (key : String) t, c.tables[key]? = some t → ∀ fk ∈ t.info.foreignKeys,
    ∃ p, c.tables[fk.refTable]? = some p ∧ p.schema.indexOf fk.refColumn ≠ none
  indexed : ∀ (key : String) t, c.tables[key]? = some t → ∀ fk ∈ t.info.foreignKeys,
    t.schema.indexOf fk.column ≠ some t.schema.pkIdx → ∃ d ∈ t.secondaryIndexes, d.column = fk.column

/-- What DDL keeps. -/
structure Kept (c : Catalog) : Prop where
  tables : ∀ (key : String) t, c.tables[key]? = some t → t.Kept key
  qualified : ∀ (key : String) t, c.tables[key]? = some t →
    ∃ db, databasePart key = some db ∧ db ∈ c.databases
  parents : ∀ (key : String) t, c.tables[key]? = some t → ∀ fk ∈ t.info.foreignKeys,
    ∃ p, c.tables[fk.refTable]? = some p ∧ p.schema.indexOf fk.refColumn ≠ none

/-- The same tables, and at least the databases. -/
structure Mirror (c c' : Catalog) : Prop where
  databases : ∀ db, db ∈ c.databases → db ∈ c'.databases
  tables : ∀ n : String, Option.Rel Table.Same c.tables[n]? c'.tables[n]?

variable {c c' rc : Catalog} {db name : Ident} {d : DdlResult}

theorem Kept.consistent (h : c.Kept) : c.Consistent where
  qualified := h.qualified
  distinct key t ht := (h.tables key t ht).distinct
  parents := h.parents
  indexed key t ht fk hfk hpk := by
    have hcovers := (h.tables key t ht).covered fk hfk
    rw [Table.covers, Bool.or_eq_true, decide_eq_true_eq] at hcovers
    rcases hcovers with hcovers | hcovers
    · exact absurd hcovers hpk
    · obtain ⟨d, hd, hcol⟩ := List.any_eq_true.mp hcovers
      exact ⟨d, hd, of_decide_eq_true hcol⟩

theorem kept_empty : Kept empty where
  tables key t ht := by simp [empty] at ht
  qualified key t ht := by simp [empty] at ht
  parents key t ht := by simp [empty] at ht

namespace Mirror

theorem some_of_some (h : Mirror c rc) {n : String} {t : Table} (ht : c.tables[n]? = some t) :
    ∃ t', rc.tables[n]? = some t' ∧ t.Same t' := by
  have hn := h.tables n
  rw [ht] at hn
  cases hn' : rc.tables[n]? with
  | none =>
    rw [hn'] at hn
    cases hn
  | some t' =>
    rw [hn'] at hn
    cases hn with
    | some hsame => exact ⟨t', rfl, hsame⟩

theorem of_some (h : Mirror c rc) {n : String} {t' : Table} (ht : rc.tables[n]? = some t') :
    ∃ t, c.tables[n]? = some t ∧ t.Same t' := by
  have hn := h.tables n
  rw [ht] at hn
  cases hn' : c.tables[n]? with
  | none =>
    rw [hn'] at hn
    cases hn
  | some t =>
    rw [hn'] at hn
    cases hn with
    | some hsame => exact ⟨t, rfl, hsame⟩

theorem none_iff (h : Mirror c rc) (n : String) : c.tables[n]? = none ↔ rc.tables[n]? = none := by
  constructor
  · intro hnone
    by_contra hsome
    obtain ⟨t', ht'⟩ := Option.ne_none_iff_exists'.mp hsome
    obtain ⟨t, ht, -⟩ := h.of_some ht'
    rw [hnone] at ht
    cases ht
  · intro hnone
    by_contra hsome
    obtain ⟨t, ht⟩ := Option.ne_none_iff_exists'.mp hsome
    obtain ⟨t', ht', -⟩ := h.some_of_some ht
    rw [hnone] at ht'
    cases ht'

theorem insert (h : Mirror c rc) {t t' : Table} (hsame : t.Same t') (key : String) :
    Mirror { c with tables := c.tables.insert key t } { rc with tables := rc.tables.insert key t' } where
  databases := h.databases
  tables n := by
    show Option.Rel Table.Same (c.tables.insert key t)[n]? (rc.tables.insert key t')[n]?
    rw [ExtTreeMap.getElem?_insert, ExtTreeMap.getElem?_insert]
    split
    · exact .some hsame
    · exact h.tables n

end Mirror

/-- A catalog that shows the same is kept as well. -/
theorem Kept.mirror (h : c.Kept) (hm : Mirror c rc) : rc.Kept where
  tables key t' ht' := by
    obtain ⟨t, ht, hsame⟩ := hm.of_some ht'
    exact (h.tables key t ht).congr hsame
  qualified key t' ht' := by
    obtain ⟨t, ht, -⟩ := hm.of_some ht'
    exact (h.qualified key t ht).imp fun db hdb => ⟨hdb.1, hm.databases db hdb.2⟩
  parents key t' ht' fk hfk := by
    obtain ⟨t, ht, hsame⟩ := hm.of_some ht'
    have hfks : t'.tableDef.foreignKeys = t.tableDef.foreignKeys := by rw [hsame.tableDef]
    obtain ⟨p, hp, hcol⟩ := h.parents key t ht fk (hfks ▸ hfk)
    obtain ⟨p', hp', hsame'⟩ := hm.some_of_some hp
    exact ⟨p', hp', by rw [← hsame'.schema]; exact hcol⟩

/-! ## Statements -/

structure Redoes (c c' : Catalog) (logs : Nat → Record) : Prop where
  record : ∀ txn, (logs txn).txnOf = txn ∧ (logs txn).isCommit = false
  redo : ∀ txn rc, Mirror c rc →
    ∃ rc', rc.applyRecord (logs txn) = .ok rc' ∧ Mirror c' rc'

/-- A statement either does nothing, or logs what it does. -/
def Faithful (c : Catalog) (d : DdlResult) : Prop :=
  (d.logs = none → d.catalog = c) ∧ ∀ logs, d.logs = some logs → Redoes c d.catalog logs

theorem faithful_noop {message : String} (h : c.noop db message = .ok d) :
    d.catalog = c ∧ Faithful c d := by
  cases h
  exact ⟨rfl, fun _ => rfl, fun _ h => nomatch h⟩

theorem createDatabase_kept {ifNotExists : Bool} (h : c.Kept)
    (hd : c.createDatabase db name ifNotExists = .ok d) : d.catalog.Kept ∧ Faithful c d := by
  unfold createDatabase at hd
  split at hd
  · split at hd
    · obtain ⟨hsame, hfaithful⟩ := faithful_noop hd
      exact ⟨hsame ▸ h, hfaithful⟩
    · cases hd
  · cases hd
    refine ⟨⟨h.tables, fun key t ht => ?_, h.parents⟩, fun hnone => (nomatch hnone), fun logs hlogs => ?_⟩
    · obtain ⟨db', hpart, hdb'⟩ := h.qualified key t ht
      exact ⟨db', hpart, ExtTreeSet.mem_insert.mpr (.inr hdb')⟩
    · cases hlogs
      refine ⟨fun txn => ⟨rfl, rfl⟩, fun txn rc hm => ⟨_, rfl, fun db' hdb' => ?_, hm.tables⟩⟩
      rw [ExtTreeSet.mem_insert] at hdb' ⊢
      exact hdb'.imp_right (hm.databases db')

/-- `DROP DATABASE` takes the tables of the database, and nothing outside refers
to them. -/
theorem dropDatabase_kept {ifExists : Bool} (h : c.Kept)
    (hd : c.dropDatabase db name ifExists = .ok d) : d.catalog.Kept ∧ Faithful c d := by
  have hget : ∀ (tables : ExtTreeMap String Table) (key : String) t,
      (tables.filter fun k _ => !inDatabase name.1 k)[key]? = some t ↔
        tables[key]? = some t ∧ databasePart key ≠ some name.1 := by
    intro tables key t
    rw [ExtTreeMap.getElem?_filter', Option.filter_eq_some_iff, ne_eq, ← inDatabase_iff]
    simp
  unfold dropDatabase at hd
  split at hd
  · cases hd
    refine ⟨⟨fun key t ht => ?_, fun key t ht => ?_, fun key t ht fk hfk => ?_⟩,
      fun hnone => (nomatch hnone), fun logs hlogs => ?_⟩
    · exact h.tables key t ((hget _ _ _).mp ht).1
    · obtain ⟨ht, hpart⟩ := (hget _ _ _).mp ht
      obtain ⟨db', hdb', hmem⟩ := h.qualified key t ht
      refine ⟨db', hdb', ExtTreeSet.mem_erase.mpr ⟨?_, hmem⟩⟩
      rw [ne_eq, Std.compare_eq_iff_eq]
      rintro rfl
      exact hpart hdb'
    · obtain ⟨ht, hpart⟩ := (hget _ _ _).mp ht
      obtain ⟨p, hp, hcol⟩ := h.parents key t ht fk hfk
      refine ⟨p, (hget _ _ _).mpr ⟨hp, ?_⟩, hcol⟩
      rw [(h.tables key t ht).nearby fk hfk]
      exact hpart
    · cases hlogs
      refine ⟨fun txn => ⟨rfl, rfl⟩, fun txn rc hm => ⟨_, rfl, fun db' hdb' => ?_, fun n => ?_⟩⟩
      · rw [ExtTreeSet.mem_erase] at hdb' ⊢
        exact hdb'.imp_right (hm.databases db')
      · show Option.Rel _ (c.tables.filter _)[n]? (rc.tables.filter _)[n]?
        rw [ExtTreeMap.getElem?_filter', ExtTreeMap.getElem?_filter']
        have hall : ∀ x : Option Table, x.filter (fun _ => true) = x := fun x => by cases x <;> rfl
        cases inDatabase name.1 n with
        | true => simp
        | false => simpa [hall] using hm.tables n
  · split at hd
    · obtain ⟨hsame, hfaithful⟩ := faithful_noop hd
      exact ⟨hsame ▸ h, hfaithful⟩
    · cases hd

theorem useDatabase_kept (h : c.Kept) (hd : c.useDatabase name = .ok d) :
    d.catalog.Kept ∧ Faithful c d := by
  unfold useDatabase at hd
  split at hd
  · obtain ⟨hsame, hfaithful⟩ := faithful_noop hd
    exact ⟨hsame ▸ h, hfaithful⟩
  · cases hd

theorem getElem?_insert_table (tables : ExtTreeMap String Table) (key n : String) (t : Table) :
    (tables.insert key t)[n]? = if key = n then some t else tables[n]? := by
  rw [ExtTreeMap.getElem?_insert]
  simp only [Std.compare_eq_iff_eq]

/-- `CREATE TABLE` creates a table: the name is free and the checks pass. -/
def Creates (c : Catalog) (db name : Ident) (columns : List ColumnSpec)
    (foreignKeys : List ForeignKeySpec) : Prop :=
  c.tables.contains (qualify db name) = false ∧ ∃ t, c.newTable db name columns foreignKeys = .ok t

/-- A `CREATE TABLE` that creates a table does so in a database that is there, with
distinct column names. -/
def Clean (c : Catalog) (db : Ident) : DdlStatement → Prop
  | .createTable name columns foreignKeys _ => c.Creates db name columns foreignKeys →
      db.1 ∈ c.databases ∧ (columns.map ColumnSpec.name).Nodup
  | _ => True

section CreateTable

variable {columns : List ColumnSpec} {foreignKeys : List ForeignKeySpec} {ifNotExists : Bool}

/-- `CREATE TABLE` does nothing or creates its table. -/
theorem createTable_cases (hd : c.createTable db name columns foreignKeys ifNotExists = .ok d) :
    (c.tables.contains (qualify db name) = true ∧ d.catalog = c ∧ Faithful c d) ∨
    ∃ t, c.tables[qualify db name]? = none ∧ c.newTable db name columns foreignKeys = .ok t ∧
      d.catalog = { c with tables := c.tables.insert (qualify db name) t } ∧
      d.logs = some fun txn => .createTable txn { t.info with indexes := t.secondaryIndexes } := by
  unfold createTable at hd
  dsimp only at hd
  split at hd
  · next hnoop => exact .inl ⟨(Bool.and_eq_true_iff.mp hnoop).2, faithful_noop hd⟩
  · split at hd
    · cases hd
    · next t ht =>
      split at hd
      · cases hd
      · next hfree =>
        cases hd
        refine .inr ⟨t, ?_, ht, rfl, rfl⟩
        rwa [ExtTreeMap.contains_eq_isSome_getElem?, Bool.not_eq_true, Option.isSome_eq_false_iff,
          Option.isNone_iff_eq_none] at hfree

theorem creates_of_none {t : Table} (hfree : c.tables[qualify db name]? = none)
    (ht : c.newTable db name columns foreignKeys = .ok t) : c.Creates db name columns foreignKeys := by
  refine ⟨?_, t, ht⟩
  rw [ExtTreeMap.contains_eq_isSome_getElem?, hfree]
  rfl

theorem createTable_kept (h : c.Kept)
    (hd : c.createTable db name columns foreignKeys ifNotExists = .ok d)
    (hclean : c.Clean db (.createTable name columns foreignKeys ifNotExists)) :
    d.catalog.Kept ∧ Faithful c d := by
  obtain ⟨-, hsame, hfaithful⟩ | ⟨t, hfree, ht, hcatalog, hlogs⟩ := createTable_cases hd
  · exact ⟨hsame ▸ h, hfaithful⟩
  · obtain ⟨hdb, hdistinct⟩ := hclean (creates_of_none hfree ht)
    -- tables that were there are found as before
    have hold : ∀ (key : String) t', c.tables[key]? = some t' →
        (c.tables.insert (qualify db name) t)[key]? = some t' := by
      intro key t' ht'
      rw [getElem?_insert_table, if_neg, ht']
      rintro rfl
      rw [hfree] at ht'
      cases ht'
    have hself : (c.tables.insert (qualify db name) t)[qualify db name]? = some t := by
      rw [getElem?_insert_table, if_pos rfl]
    have hcases : ∀ {P : String → Table → Prop}, P (qualify db name) t →
        (∀ (key : String) t', c.tables[key]? = some t' → P key t') →
        ∀ (key : String) t', (c.tables.insert (qualify db name) t)[key]? = some t' → P key t' := by
      intro P hnew hrest key t' ht'
      rw [getElem?_insert_table] at ht'
      split at ht'
      · next hkey =>
        cases ht'
        rw [← hkey]
        exact hnew
      · exact hrest key t' ht'
    refine ⟨?_, fun hnone => by simp [hlogs] at hnone, fun logs hlogs' => ?_⟩
    · rw [hcatalog]
      refine ⟨hcases (newTable_kept ht hdistinct) h.tables,
        hcases ⟨db.1, databasePart_qualify db name, hdb⟩ h.qualified,
        hcases (fun fk hfk => ?_) fun key t' ht' fk hfk => ?_⟩
      · rcases newTable_parents ht fk hfk with ⟨hkey, hcol⟩ | ⟨p, hp, hcol⟩
        · rw [hkey]
          exact ⟨t, hself, hcol⟩
        · exact ⟨p, hold _ p hp, hcol⟩
      · obtain ⟨p, hp, hcol⟩ := h.parents key t' ht' fk hfk
        exact ⟨p, hold _ p hp, hcol⟩
    · rw [hlogs] at hlogs'
      cases hlogs'
      refine ⟨fun txn => ⟨rfl, rfl⟩, fun txn rc hm => ⟨_, rfl, ?_⟩⟩
      obtain ⟨hnamed, hsame⟩ := newTable_same ht
      have hfree' : rc.tables.contains t.info.name = false := by
        rw [ExtTreeMap.contains_eq_isSome_getElem?, hnamed, (hm.none_iff _).mp hfree]
        rfl
      rw [hcatalog, if_neg (by rw [hfree']; exact Bool.false_ne_true), hnamed]
      exact hm.insert hsame _

end CreateTable

theorem dropTable_kept {ifExists : Bool} (h : c.Kept) (hd : c.dropTable db name ifExists = .ok d) :
    d.catalog.Kept ∧ Faithful c d := by
  unfold dropTable at hd
  dsimp only at hd
  split at hd
  · split at hd
    · cases hd
    · next hcheck =>
      cases hd
      -- nothing refers to the table
      have hfree : ∀ (key : String) t, c.tables[key]? = some t → ∀ fk ∈ t.info.foreignKeys,
          fk.refTable ≠ c.resolveTableKey db name := by
        intro key t ht fk hfk href
        unfold fkCheckDrop at hcheck
        split at hcheck
        · next hnone =>
          have hmem : (key, fk) ∈ c.referrers (c.resolveTableKey db name) := by
            refine List.mem_flatMap.mpr ⟨(key, t), ExtTreeMap.mem_toList_iff_getElem?_eq_some.mpr ht, ?_⟩
            exact List.mem_map.mpr ⟨fk, List.mem_filter.mpr ⟨hfk, decide_eq_true href⟩, rfl⟩
          rw [hnone] at hmem
          cases hmem
        · cases hcheck
      have hget : ∀ (tables : ExtTreeMap String Table) (key : String),
          (tables.erase (c.resolveTableKey db name))[key]? =
            if c.resolveTableKey db name = key then none else tables[key]? := by
        intro tables key
        rw [ExtTreeMap.getElem?_erase]
        simp only [Std.compare_eq_iff_eq]
      have hold : ∀ (key : String) t, (c.tables.erase (c.resolveTableKey db name))[key]? = some t →
          c.tables[key]? = some t := by
        intro key t ht
        rw [hget] at ht
        split at ht
        · cases ht
        · exact ht
      refine ⟨⟨fun key t ht => h.tables key t (hold key t ht),
        fun key t ht => h.qualified key t (hold key t ht), fun key t ht fk hfk => ?_⟩,
        fun hnone => (nomatch hnone), fun logs hlogs => ?_⟩
      · obtain ⟨p, hp, hcol⟩ := h.parents key t (hold key t ht) fk hfk
        refine ⟨p, ?_, hcol⟩
        show (c.tables.erase (c.resolveTableKey db name))[fk.refTable]? = some p
        rw [hget, if_neg (hfree key t (hold key t ht) fk hfk).symm, hp]
      · cases hlogs
        refine ⟨fun txn => ⟨rfl, rfl⟩, fun txn rc hm => ⟨_, rfl, hm.databases, fun n => ?_⟩⟩
        show Option.Rel _ (c.tables.erase (c.resolveTableKey db name))[n]?
          (rc.tables.erase (c.resolveTableKey db name))[n]?
        rw [hget, hget]
        split
        · exact .none
        · exact hm.tables n
  · split at hd
    · obtain ⟨hsame, hfaithful⟩ := faithful_noop hd
      exact ⟨hsame ▸ h, hfaithful⟩
    · cases hd

section Indexes

variable {index column key : String} {t t' : Table}

theorem Kept.replace (h : c.Kept) (ht : c.tables[key]? = some t) (hinfo : t'.info = t.info)
    (ht' : t'.Kept key) : Kept { c with tables := c.tables.insert key t' } := by
  have hcases : ∀ {P : String → Table → Prop}, P key t' →
      (∀ (n : String) u, c.tables[n]? = some u → P n u) →
      ∀ (n : String) u, (c.tables.insert key t')[n]? = some u → P n u := by
    intro P hnew hrest n u hu
    rw [getElem?_insert_table] at hu
    split at hu
    · next hkey =>
      cases hu
      rw [← hkey]
      exact hnew
    · exact hrest n u hu
  have hparent : ∀ n col : String, (∃ p, c.tables[n]? = some p ∧ p.schema.indexOf col ≠ none) →
      ∃ p, (c.tables.insert key t')[n]? = some p ∧ p.schema.indexOf col ≠ none := by
    rintro n col ⟨p, hp, hcol⟩
    rw [getElem?_insert_table]
    split
    · next hkey =>
      rw [← hkey, ht] at hp
      cases hp
      exact ⟨t', rfl, by rw [Table.schema, hinfo]; exact hcol⟩
    · exact ⟨p, hp, hcol⟩
  refine ⟨hcases ht' h.tables, hcases (h.qualified key t ht) h.qualified,
    hcases (fun fk hfk => ?_) fun n u hu fk hfk => hparent _ _ (h.parents n u hu fk hfk)⟩
  rw [hinfo] at hfk
  exact hparent _ _ (h.parents key t ht fk hfk)

variable {table : Ident}

theorem table_ok (h : c.table db table = .ok t) :
    c.tables[c.resolveTableKey db table]? = some t := by
  unfold Catalog.table at h
  split at h
  · next ht =>
    cases h
    exact ht
  · cases h

theorem Mirror.onTable {rt rt' : Table} {f : Table → Except Fault Table} (hm : Mirror c rc)
    (hrt : rc.tables[key]? = some rt) (hf : f rt = .ok rt') (hsame : t'.Same rt') :
    ∃ rc', rc.onTable key f = .ok rc' ∧ Mirror { c with tables := c.tables.insert key t' } rc' := by
  refine ⟨{ rc with tables := rc.tables.insert key rt' }, ?_, hm.insert hsame key⟩
  rw [Catalog.onTable, hrt]
  show (f rt >>= _) = _
  rw [hf]
  rfl

theorem createIndex_kept {ifNotExists : Bool} (h : c.Kept)
    (hd : c.createIndex db index table column ifNotExists = .ok d) :
    d.catalog.Kept ∧ Faithful c d := by
  unfold createIndex at hd
  cases htable : c.table db table with
  | error e =>
    rw [htable] at hd
    cases hd
  | ok t =>
    simp only [htable, bind, Except.bind] at hd
    split at hd
    · obtain ⟨hsame, hfaithful⟩ := faithful_noop hd
      exact ⟨hsame ▸ h, hfaithful⟩
    · cases hadd : t.addIndex index column with
      | error e =>
        rw [hadd] at hd
        cases hd
      | ok t' =>
        rw [hadd] at hd
        cases hd
        have ht := table_ok htable
        refine ⟨h.replace ht (Ddl.Engine.addIndex_info hadd) ((h.tables _ t ht).addIndex hadd),
          fun hnone => (nomatch hnone), fun logs hlogs => ?_⟩
        cases hlogs
        refine ⟨fun txn => ⟨rfl, rfl⟩, fun txn rc hm => ?_⟩
        obtain ⟨rt, hrt, hsame⟩ := hm.some_of_some ht
        obtain ⟨rt', hrt', hsame'⟩ := hsame.addIndex hadd
        exact hm.onTable hrt (by rw [hrt']; rfl) hsame'

theorem dropIndex_kept {ifExists : Bool} (h : c.Kept)
    (hd : c.dropIndex db index table ifExists = .ok d) : d.catalog.Kept ∧ Faithful c d := by
  have hnoop : ∀ {message : String}, c.noop db message = .ok d → d.catalog.Kept ∧ Faithful c d := by
    intro message hd
    obtain ⟨hsame, hfaithful⟩ := faithful_noop hd
    exact ⟨hsame ▸ h, hfaithful⟩
  unfold dropIndex at hd
  split at hd
  · split at hd
    · exact hnoop hd
    · cases hd
  · next t htable =>
    dsimp only at hd
    split at hd
    · exact hnoop hd
    · split at hd
      · cases hd
      · next hlast =>
        split at hd
        · cases hd
        · next t' hdrop =>
          cases hd
          have ht := table_ok htable
          refine ⟨h.replace ht (Ddl.Engine.dropIndex_info hdrop) ((h.tables _ t ht).dropIndex hlast hdrop),
            fun hnone => (nomatch hnone), fun logs hlogs => ?_⟩
          cases hlogs
          refine ⟨fun txn => ⟨rfl, rfl⟩, fun txn rc hm => ?_⟩
          obtain ⟨rt, hrt, hsame⟩ := hm.some_of_some ht
          obtain ⟨rt', hrt', hsame'⟩ := hsame.dropIndex hdrop
          exact hm.onTable hrt (by rw [hrt']; rfl) hsame'

end Indexes

variable {stmt : DdlStatement}

/-- A clean statement keeps the catalog, and its record redoes it. -/
theorem exec_kept (h : c.Kept) (hd : c.exec db stmt = .ok d) (hclean : c.Clean db stmt) :
    d.catalog.Kept ∧ Faithful c d := by
  cases stmt with
  | createDatabase name ifNotExists => exact createDatabase_kept h hd
  | dropDatabase name ifExists => exact dropDatabase_kept h hd
  | useDatabase name => exact useDatabase_kept h hd
  | createTable name columns foreignKeys ifNotExists => exact createTable_kept h hd hclean
  | dropTable name ifExists => exact dropTable_kept h hd
  | createIndex name table column ifNotExists => exact createIndex_kept h hd
  | dropIndex name table ifExists => exact dropIndex_kept h hd

/-- A statement logs under the transaction id that it is given. -/
theorem exec_record {logs : Nat → Record} (hd : c.exec db stmt = .ok d) (hlogs : d.logs = some logs)
    (txn : Nat) : (logs txn).txnOf = txn ∧ (logs txn).isCommit = false := by
  have hnoop : ∀ {message : String}, c.noop db message = .ok d →
      (logs txn).txnOf = txn ∧ (logs txn).isCommit = false := by
    intro message hd
    cases hd
    cases hlogs
  cases stmt with
  | createDatabase name ifNotExists =>
    dsimp only [exec] at hd
    unfold createDatabase at hd
    split at hd
    · split at hd
      · exact hnoop hd
      · cases hd
    · cases hd
      cases hlogs
      exact ⟨rfl, rfl⟩
  | dropDatabase name ifExists =>
    dsimp only [exec] at hd
    unfold dropDatabase at hd
    split at hd
    · cases hd
      cases hlogs
      exact ⟨rfl, rfl⟩
    · split at hd
      · exact hnoop hd
      · cases hd
  | useDatabase name =>
    dsimp only [exec] at hd
    unfold useDatabase at hd
    split at hd
    · cases hd
      cases hlogs
    · cases hd
  | createTable name columns foreignKeys ifNotExists =>
    obtain ⟨-, -, -, hfaithful⟩ | ⟨t, -, -, -, hlogs'⟩ := createTable_cases hd
    · exact (hfaithful logs hlogs).record txn
    · rw [hlogs] at hlogs'
      cases hlogs'
      exact ⟨rfl, rfl⟩
  | dropTable name ifExists =>
    dsimp only [exec] at hd
    unfold dropTable at hd
    dsimp only at hd
    split at hd
    · split at hd
      · cases hd
      · cases hd
        cases hlogs
        exact ⟨rfl, rfl⟩
    · split at hd
      · exact hnoop hd
      · cases hd
  | createIndex name table column ifNotExists =>
    dsimp only [exec] at hd
    unfold createIndex at hd
    cases htable : c.table db table with
    | error e =>
      rw [htable] at hd
      cases hd
    | ok t =>
      simp only [htable, bind, Except.bind] at hd
      split at hd
      · exact hnoop hd
      · split at hd
        · cases hd
        · cases hd
          cases hlogs
          exact ⟨rfl, rfl⟩
  | dropIndex name table ifExists =>
    dsimp only [exec] at hd
    unfold dropIndex at hd
    split at hd
    · split at hd
      · exact hnoop hd
      · cases hd
    · dsimp only at hd
      split at hd
      · exact hnoop hd
      · split at hd
        · cases hd
        · split at hd
          · cases hd
          · cases hd
            cases hlogs
            exact ⟨rfl, rfl⟩

/-- A `CREATE TABLE` that is not clean makes the catalog inconsistent. -/
theorem exec_consistent_iff (h : c.Kept) (hd : c.exec db stmt = .ok d) :
    d.catalog.Consistent ↔ c.Clean db stmt := by
  refine ⟨fun hcons => ?_, fun hclean => (exec_kept h hd hclean).1.consistent⟩
  cases stmt with
  | createTable name columns foreignKeys ifNotExists =>
    rintro ⟨hfree, t, ht⟩
    obtain ⟨htaken, -⟩ | ⟨t', -, ht', hcatalog, -⟩ := createTable_cases hd
    · rw [hfree] at htaken
      cases htaken
    · rw [ht] at ht'
      cases ht'
      have hself : d.catalog.tables[qualify db name]? = some t := by
        rw [hcatalog]
        show (c.tables.insert _ t)[_]? = _
        rw [getElem?_insert_table, if_pos rfl]
      obtain ⟨db', hpart, hdb'⟩ := hcons.qualified _ t hself
      rw [databasePart_qualify] at hpart
      cases hpart
      rw [hcatalog] at hdb'
      refine ⟨hdb', ?_⟩
      obtain ⟨schema, fks, hnames, -, hfill, -⟩ := newTable_spec ht
      have hdistinct := hcons.distinct _ t hself
      rw [Table.schema, hfill.info, hnames] at hdistinct
      exact hdistinct
  | _ => trivial

end Catalog

end HenchDB
