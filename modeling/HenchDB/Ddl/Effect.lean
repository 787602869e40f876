import HenchDB.Catalog
import Mathlib.Data.List.InsertIdx

/-!
# What records do to one table

Redo works name by name: the effect of a record on the table of a name depends
on that table only (`Record.effect`), and a record about another name has none.
So the table that redo leaves under a name is found by folding the effects of
the records, and records about different names may change places.

Two tables are the same when their definitions, their rows and their indexes
are; the sequence of an `AUTO_INCREMENT` column is not redone.
-/

namespace HenchDB

open Std (ExtTreeMap ExtTreeSet)

/-! ## The same table -/

namespace Table

def tableDef (t : Table) : TableDef :=
  { t.info with indexes := t.secondaryIndexes, stats := t.stats }

/-- Same definition, same rows and same indexes. -/
structure Same (t t' : Table) : Prop where
  tableDef : t.tableDef = t'.tableDef
  tree : t.tree = t'.tree
  indexes : t.indexes = t'.indexes

namespace Same

variable {t t' t₁ : Table} {key full : Bytes} {name column : String}

theorem refl (t : Table) : Same t t := ⟨rfl, rfl, rfl⟩

theorem schema (h : Same t t') : t.schema = t'.schema := by
  have hschema : t.tableDef.schema = t'.tableDef.schema := by rw [h.tableDef]
  exact hschema

theorem update (h : Same t t') (tree : ExtTreeMap Bytes Bytes) (indexes : List SecondaryIndex) :
    Same { t with tree := tree, indexes := indexes } { t' with tree := tree, indexes := indexes } where
  tableDef := congrArg (fun d => { d with indexes := indexes.map SecondaryIndex.info }) h.tableDef
  tree := rfl
  indexes := rfl

theorem setIndexes (h : Same t t') (indexes : List SecondaryIndex) :
    Same { t with indexes := indexes } { t' with indexes := indexes } := by
  have hsame := h.update t.tree indexes
  exact ⟨hsame.tableDef, h.tree, rfl⟩

theorem indexesPut (h : Same t t') (key full : Bytes) (pk : Option Datum) :
    t'.indexesPut key full pk = t.indexesPut key full pk := by
  unfold Table.indexesPut Table.decodeStored
  rw [h.schema, h.tree, h.indexes]

theorem indexesRemoved (h : Same t t') (prev : Bytes) (pk : Option Datum) :
    t'.indexesRemoved prev pk = t.indexesRemoved prev pk := by
  unfold Table.indexesRemoved Table.decodeStored
  rw [h.schema, h.indexes]

theorem applyRaw (h : Same t t') (ht : t.applyRaw key full = .ok t₁) :
    ∃ t₁', t'.applyRaw key full = .ok t₁' ∧ Same t₁ t₁' := by
  unfold Table.applyRaw at ht ⊢
  rw [← h.indexes, ← h.tree]
  split at ht
  · next hempty =>
    cases ht
    rw [if_pos hempty]
    exact ⟨_, rfl, h.update _ t.indexes⟩
  · next hempty =>
    rw [if_neg hempty]
    cases hkey : attemptKey key with
    | error e =>
      rw [hkey] at ht
      cases ht
    | ok pk =>
      rw [hkey] at ht
      cases ht
      refine ⟨_, rfl, ?_⟩
      dsimp only
      rw [h.indexesPut]
      exact h.update _ _

theorem removeRaw (h : Same t t') (ht : t.removeRaw key = .ok t₁) :
    ∃ t₁', t'.removeRaw key = .ok t₁' ∧ Same t₁ t₁' := by
  unfold Table.removeRaw at ht ⊢
  rw [← h.tree, ← h.indexes]
  split at ht
  · next hnone =>
    cases ht
    exact ⟨t', rfl, h⟩
  · next prev hprev =>
    split at ht
    · next hempty =>
      cases ht
      rw [if_pos hempty]
      exact ⟨_, rfl, h.update _ t.indexes⟩
    · next hempty =>
      rw [if_neg hempty]
      cases hkey : attemptKey key with
      | error e =>
        rw [hkey] at ht
        cases ht
      | ok pk =>
        rw [hkey] at ht
        cases ht
        refine ⟨_, rfl, ?_⟩
        dsimp only
        rw [h.indexesRemoved]
        exact h.update _ _

theorem indexKeys (h : Same t t') (i : Nat) : t'.indexKeys i = t.indexKeys i := by
  unfold Table.indexKeys Table.scan Table.decodeStored
  rw [h.schema, h.tree]

theorem addIndex (h : Same t t') (ht : t.addIndex name column = .ok t₁) :
    ∃ t₁', t'.addIndex name column = .ok t₁' ∧ Same t₁ t₁' := by
  unfold Table.addIndex at ht ⊢
  rw [← h.schema, ← h.indexes]
  split at ht
  · cases ht
  · next i hi =>
    split at ht
    · cases ht
    · next hpk =>
      rw [if_neg hpk]
      split at ht
      · cases ht
      · next htaken =>
        rw [if_neg htaken, h.indexKeys]
        cases hkeys : t.indexKeys i with
        | error e =>
          rw [hkeys] at ht
          cases ht
        | ok keys =>
          rw [hkeys] at ht
          cases ht
          exact ⟨_, rfl, h.setIndexes _⟩

theorem dropIndex (h : Same t t') (ht : t.dropIndex name = .ok t₁) :
    ∃ t₁', t'.dropIndex name = .ok t₁' ∧ Same t₁ t₁' := by
  unfold Table.dropIndex at ht ⊢
  rw [← h.indexes]
  split at ht
  · cases ht
  · next pos hpos =>
    cases ht
    exact ⟨_, rfl, h.setIndexes _⟩

end Same

end Table

/-! ## Effects -/

namespace Record

def onRow (x : Option Table) (f : Table → Except Fault Table) : Except Fault (Option Table) :=
  match x with
  | none => .ok none
  | some t => (f t).map some

def effect (n : String) (x : Option Table) : Record → Except Fault (Option Table)
  | .createTable _ info => .ok (if info.name = n then x.or (some (Table.new info)) else x)
  | .dropTable _ name => .ok (if name = n then none else x)
  | .dropDatabase _ db => .ok (if Catalog.inDatabase db n then none else x)
  | .put _ table key row => if table = n then onRow x fun t => t.applyRaw key row else .ok x
  | .delete _ table key => if table = n then onRow x fun t => t.removeRaw key else .ok x
  | .createIndex _ table name column =>
    if table = n then onRow x fun t => Catalog.ignoreError t (t.addIndex name column) else .ok x
  | .dropIndex _ table name =>
    if table = n then
      onRow x fun t => Catalog.ignoreError t ((t.dropIndex name).mapError Fault.err)
    else .ok x
  | .createDatabase _ _ => .ok x
  | .commit _ _ => .ok x

/-- What a record does to the existence of a database. -/
def dbEffect (db : String) (b : Bool) : Record → Bool
  | .createDatabase _ name => name = db || b
  | .dropDatabase _ name => name ≠ db && b
  | _ => b

def concerns (n : String) : Record → Bool
  | .createTable _ info => info.name = n
  | .dropTable _ name => name = n
  | .dropDatabase _ db => Catalog.inDatabase db n
  | .put _ table _ _ => table = n
  | .delete _ table _ => table = n
  | .createIndex _ table _ _ => table = n
  | .dropIndex _ table _ => table = n
  | .createDatabase _ _ => false
  | .commit _ _ => false

def concernsDb (db : String) : Record → Bool
  | .createDatabase _ name => name = db
  | .dropDatabase _ name => name = db
  | _ => false

variable {r : Record} {n db : String} {x : Option Table} {b : Bool}

theorem effect_of_not_concerns (h : r.concerns n = false) : effect n x r = .ok x := by
  cases r <;> simp_all [concerns, effect]

theorem dbEffect_of_not_concerns (h : r.concernsDb db = false) : dbEffect db b r = b := by
  cases r <;> simp_all [concernsDb, dbEffect]

end Record

namespace Catalog

variable {c c' : Catalog} {r : Record} {rs : List Record}

theorem onTable_ok {name : String} {f : Table → Except Fault Table} :
    (∀ x, Record.onRow c.tables[name]? f = .ok x → ∃ c', c.onTable name f = .ok c' ∧
      c'.databases = c.databases ∧ ∀ n : String, c'.tables[n]? = if name = n then x else c.tables[n]?) := by
  intro x hx
  unfold onTable
  rcases Option.eq_none_or_eq_some c.tables[name]? with hnone | ⟨t, ht⟩
  · rw [hnone] at hx ⊢
    cases hx
    refine ⟨c, rfl, rfl, fun n => ?_⟩
    split
    · next heq => rw [← heq, hnone]
    · rfl
  · rw [ht] at hx ⊢
    cases hf : f t with
    | error e =>
      simp only [Record.onRow, hf, Except.map] at hx
      cases hx
    | ok t' =>
      simp only [Record.onRow, hf, Except.map] at hx
      cases hx
      refine ⟨{ c with tables := c.tables.insert name t' }, ?_, rfl, fun n => ?_⟩
      · simp only [hf]
        rfl
      · rw [ExtTreeMap.getElem?_insert]
        simp only [Std.compare_eq_iff_eq]

theorem compare_beq_eq (a b : String) : (compare a b == .eq) = decide (a = b) := by
  rw [Bool.eq_iff_iff, beq_iff_eq, decide_eq_true_eq, Std.compare_eq_iff_eq]

theorem applyRecord_effect {x : String → Option Table}
    (h : ∀ n : String, r.effect n c.tables[n]? = .ok (x n)) :
    ∃ c', c.applyRecord r = .ok c' ∧ (∀ n : String, c'.tables[n]? = x n) ∧
      ∀ db : String, c'.databases.contains db = r.dbEffect db (c.databases.contains db) := by
  -- A record about the rows or the indexes of one table.
  have hrow : ∀ (name : String) (f : Table → Except Fault Table),
      (∀ n : String, (if name = n then Record.onRow c.tables[n]? f else .ok c.tables[n]?) = .ok (x n)) →
        ∃ c', c.onTable name f = .ok c' ∧ (∀ n : String, c'.tables[n]? = x n) ∧
          c'.databases = c.databases := by
    intro name f hx
    have hname := hx name
    rw [if_pos rfl] at hname
    obtain ⟨c', hc', hdatabases, htables⟩ := onTable_ok (x name) hname
    refine ⟨c', hc', fun n => ?_, hdatabases⟩
    rw [htables n]
    split
    · next heq => rw [heq]
    · next hne =>
      have hn := hx n
      rw [if_neg hne] at hn
      exact Except.ok.inj hn
  cases r with
  | put txn table key row =>
    obtain ⟨c', hc', htables, hdatabases⟩ := hrow table _ h
    exact ⟨c', hc', htables, fun db => by rw [hdatabases]; rfl⟩
  | delete txn table key =>
    obtain ⟨c', hc', htables, hdatabases⟩ := hrow table _ h
    exact ⟨c', hc', htables, fun db => by rw [hdatabases]; rfl⟩
  | createIndex txn table name column =>
    obtain ⟨c', hc', htables, hdatabases⟩ := hrow table _ h
    exact ⟨c', hc', htables, fun db => by rw [hdatabases]; rfl⟩
  | dropIndex txn table name =>
    obtain ⟨c', hc', htables, hdatabases⟩ := hrow table _ h
    exact ⟨c', hc', htables, fun db => by rw [hdatabases]; rfl⟩
  | commit txn ts => exact ⟨c, rfl, fun n => Except.ok.inj (h n), fun _ => rfl⟩
  | createDatabase txn name =>
    refine ⟨_, rfl, fun n => Except.ok.inj (h n), fun db => ?_⟩
    rw [ExtTreeSet.contains_insert, compare_beq_eq]
    rfl
  | dropDatabase txn db =>
    refine ⟨_, rfl, fun n => ?_, fun db' => ?_⟩
    · have hn := Except.ok.inj (h n)
      rw [ExtTreeMap.getElem?_filter', ← hn]
      cases hin : inDatabase db n <;> cases hget : c.tables[n]? <;> simp
    · rw [ExtTreeSet.contains_erase, bne, compare_beq_eq, Record.dbEffect, decide_not]
  | dropTable txn name =>
    refine ⟨_, rfl, fun n => ?_, fun _ => rfl⟩
    rw [ExtTreeMap.getElem?_erase, ← Except.ok.inj (h n)]
    simp only [Std.compare_eq_iff_eq]
  | createTable txn info =>
    refine ⟨_, rfl, fun n => ?_, fun _ => ?_⟩
    · rw [← Except.ok.inj (h n)]
      split
      · next hcontains =>
        rw [ExtTreeMap.contains_eq_isSome_getElem?] at hcontains
        obtain ⟨t, ht⟩ := Option.isSome_iff_exists.mp hcontains
        split
        · next heq => rw [← heq, ht, Option.some_or]
        · rfl
      · next hfree =>
        rw [ExtTreeMap.contains_eq_isSome_getElem?, Bool.not_eq_true, Option.isSome_eq_false_iff,
          Option.isNone_iff_eq_none] at hfree
        rw [ExtTreeMap.getElem?_insert]
        simp only [Std.compare_eq_iff_eq]
        split
        · next heq => rw [← heq, hfree, Option.none_or]
        · rfl
    · split <;> rfl

/-- Redo of a log, name by name. -/
theorem applyRecords_effect : ∀ {rs : List Record} {c : Catalog} {x : String → Option Table},
    (∀ n : String, rs.foldlM (Record.effect n) c.tables[n]? = .ok (x n)) →
      ∃ c', c.applyRecords rs = .ok c' ∧ (∀ n : String, c'.tables[n]? = x n) ∧
        ∀ db : String, c'.databases.contains db =
          rs.foldl (Record.dbEffect db) (c.databases.contains db)
  | [], c, x, h => ⟨c, rfl, fun n => Except.ok.inj (h n), fun _ => rfl⟩
  | r :: rs, c, x, h => by
    have hfirst : ∀ n : String, ∃ y, r.effect n c.tables[n]? = .ok y ∧
        rs.foldlM (Record.effect n) y = .ok (x n) := by
      intro n
      have hn := h n
      rw [List.foldlM_cons] at hn
      cases hy : r.effect n c.tables[n]? with
      | error e =>
        rw [hy] at hn
        cases hn
      | ok y =>
        rw [hy] at hn
        exact ⟨y, rfl, hn⟩
    choose y hy hrest using hfirst
    obtain ⟨c₁, hc₁, htables, hdatabases⟩ := applyRecord_effect hy
    have hrest' : ∀ n : String, rs.foldlM (Record.effect n) c₁.tables[n]? = .ok (x n) := by
      intro n
      rw [htables n]
      exact hrest n
    obtain ⟨c', hc', htables', hdatabases'⟩ := applyRecords_effect hrest'
    refine ⟨c', ?_, htables', fun db => ?_⟩
    · rw [applyRecords, List.foldlM_cons, hc₁]
      exact hc'
    · rw [hdatabases' db, hdatabases db]
      rfl

end Catalog

/-! ## Rows and drops may change places -/

namespace Table

variable {t d p : Table} {key full : Bytes} {name : String} {e : Error}

theorem findIdx?_map_info {g : SecondaryIndex → SecondaryIndex} (hg : ∀ i, (g i).info = i.info)
    (l : List SecondaryIndex) :
    (l.map g).findIdx? (fun i => i.info.name = name) = l.findIdx? fun i => i.info.name = name := by
  rw [List.findIdx?_map]
  congr 1
  funext i
  simp [hg]

/-- A row may be put before or after an index is dropped. -/
theorem applyRaw_dropIndex (hkey : KeyOk key) (hdrop : t.dropIndex name = .ok d)
    (hput : t.applyRaw key full = .ok p) : ∃ q, d.applyRaw key full = .ok q ∧ p.dropIndex name = .ok q := by
  obtain ⟨pk, hpk⟩ := attemptKey_of_keyOk hkey
  obtain ⟨g, hinfo, hmap⟩ := t.indexesPut_map key full pk
  unfold dropIndex at hdrop
  split at hdrop
  · cases hdrop
  · next pos hpos =>
    cases hdrop
    have hne : t.indexes.isEmpty = false := by
      cases hindexes : t.indexes with
      | nil => simp [hindexes] at hpos
      | cons i l => rfl
    rw [applyRaw, hne, if_neg (by simp), hpk] at hput
    cases hput
    have hput : t.indexesPut key full pk = t.indexes.map g := hmap t.indexes
    refine ⟨{ t with
      tree := t.tree.insert key full, indexes := (t.indexes.eraseIdx pos).map g }, ?_, ?_⟩
    · unfold applyRaw
      split
      · next hempty =>
        have hnil : t.indexes.eraseIdx pos = [] := List.isEmpty_iff.mp hempty
        simp [hnil]
      · rw [hpk, ← hmap]
        rfl
    · unfold dropIndex
      dsimp only
      rw [hput, findIdx?_map_info hinfo, hpos]
      simp only [List.eraseIdx_map]

/-- A row may be removed before or after an index is dropped. -/
theorem removeRaw_dropIndex (hkey : KeyOk key) (hdrop : t.dropIndex name = .ok d)
    (hput : t.removeRaw key = .ok p) : ∃ q, d.removeRaw key = .ok q ∧ p.dropIndex name = .ok q := by
  obtain ⟨pk, hpk⟩ := attemptKey_of_keyOk hkey
  have hdrop' := hdrop
  unfold dropIndex at hdrop
  split at hdrop
  · cases hdrop
  · next pos hpos =>
    cases hdrop
    unfold removeRaw at hput ⊢
    dsimp only at hput ⊢
    split at hput
    · next hnone =>
      cases hput
      exact ⟨_, rfl, hdrop'⟩
    · next prev hprev =>
      obtain ⟨g, hinfo, hmap⟩ := t.indexesRemoved_map prev pk
      have hne : t.indexes.isEmpty = false := by
        cases hindexes : t.indexes with
        | nil => simp [hindexes] at hpos
        | cons i l => rfl
      rw [hne, if_neg (by simp), hpk] at hput
      cases hput
      have hput : t.indexesRemoved prev pk = t.indexes.map g := hmap t.indexes
      refine ⟨{ t with
        tree := t.tree.erase key, indexes := (t.indexes.eraseIdx pos).map g }, ?_, ?_⟩
      · split
        · next hempty =>
          have hnil : t.indexes.eraseIdx pos = [] := List.isEmpty_iff.mp hempty
          simp [hnil]
        · rw [hpk, ← hmap]
          rfl
      · unfold dropIndex
        dsimp only
        rw [hput, findIdx?_map_info hinfo, hpos]
        simp only [List.eraseIdx_map]

theorem dropIndex_error (hdrop : t.dropIndex name = .error e)
    (hnames : p.secondaryIndexes = t.secondaryIndexes) :
    p.dropIndex name = .error e := by
  have hfind : p.indexes.findIdx? (fun i => i.info.name = name) =
      t.indexes.findIdx? fun i => i.info.name = name := by
    have hmap : ∀ l : List SecondaryIndex, l.findIdx? (fun i => i.info.name = name) =
        (l.map SecondaryIndex.info).findIdx? fun d => d.name = name := by
      intro l
      rw [List.findIdx?_map]
      rfl
    rw [hmap, hmap]
    exact congrArg _ hnames
  unfold dropIndex at hdrop ⊢
  rw [hfind]
  split at hdrop
  · exact hdrop
  · cases hdrop

end Table

namespace Record

/-- A record of a row under a key that does not make `decode_key` panic, or a
`Commit` record. -/
def IsRow : Record → Prop
  | .put _ _ key _ => KeyOk key
  | .delete _ _ key => KeyOk key
  | .commit _ _ => True
  | _ => False

def isDrop : Record → Bool
  | .dropTable _ _ => true
  | .dropDatabase _ _ => true
  | .dropIndex _ _ _ => true
  | _ => false

variable {r d : Record} {n : String}

/-- Two records in either order do the same to the table of a name. -/
def Swaps (n : String) (r d : Record) : Prop :=
  ∀ x, (effect n x r >>= fun y => effect n y d) = (effect n x d >>= fun y => effect n y r)

theorem Swaps.of_not_concerns (h : r.concerns n = false) : Swaps n r d := by
  intro x
  rw [effect_of_not_concerns h]
  cases hd : effect n x d with
  | error e => exact hd
  | ok y => exact hd.trans (effect_of_not_concerns h).symm

theorem Swaps.symm (h : Swaps n r d) : Swaps n d r := fun x => (h x).symm

/-- A record of a row neither fails nor creates or removes the table. -/
theorem effect_row (h : r.IsRow) (x : Option Table) :
    ∃ y, effect n x r = .ok y ∧ y.isSome = x.isSome := by
  have hrow : ∀ (table : String) (f : Table → Except Fault Table), (∀ t, ∃ t', f t = .ok t') →
      ∃ y, (if table = n then onRow x f else .ok x) = .ok y ∧ y.isSome = x.isSome := by
    intro table f hf
    split
    · cases x with
      | none => exact ⟨none, rfl, rfl⟩
      | some t =>
        obtain ⟨t', ht'⟩ := hf t
        refine ⟨some t', ?_, rfl⟩
        rw [onRow, ht']
        rfl
    · exact ⟨x, rfl, rfl⟩
  cases r with
  | put txn table key row =>
    refine hrow table _ fun t => ?_
    obtain ⟨t', ht', -⟩ := Table.applyRaw_ok h row
    exact ⟨t', ht'⟩
  | delete txn table key =>
    refine hrow table _ fun t => ?_
    obtain ⟨t', ht', -⟩ := Table.removeRaw_ok h
    exact ⟨t', ht'⟩
  | commit txn ts => exact ⟨x, rfl, rfl⟩
  | _ => exact h.elim

theorem effect_row_none (h : r.IsRow) : effect n none r = .ok none := by
  obtain ⟨y, hy, hsome⟩ := effect_row (n := n) h none
  rw [hy]
  simpa using hsome

/-- An operation on a row that may change places with the drop of an index. -/
theorem swaps_dropIndex {f : Table → Except Fault Table} {name : String}
    (hok : ∀ t, ∃ t', f t = .ok t' ∧ t'.secondaryIndexes = t.secondaryIndexes)
    (hswap : ∀ t d p, t.dropIndex name = .ok d → f t = .ok p →
      ∃ q, f d = .ok q ∧ p.dropIndex name = .ok q) (x : Option Table) :
    (onRow x f >>= fun y => onRow y fun t =>
        Catalog.ignoreError t ((t.dropIndex name).mapError Fault.err)) =
      (onRow x fun t => Catalog.ignoreError t ((t.dropIndex name).mapError Fault.err)) >>=
        fun y => onRow y f := by
  cases x with
  | none => rfl
  | some t =>
    obtain ⟨p, hp, hnames⟩ := hok t
    cases hdrop : t.dropIndex name with
    | error e =>
      have hdrop' := Table.dropIndex_error hdrop hnames
      simp [onRow, hp, hdrop, hdrop', Except.map, Except.mapError, Catalog.ignoreError, bind, Except.bind]
    | ok d =>
      obtain ⟨q, hq, hq'⟩ := hswap t d p hdrop hp
      simp [onRow, hp, hdrop, hq, hq', Except.map, Except.mapError, Catalog.ignoreError, bind, Except.bind]

theorem swaps_row_drop (hr : r.IsRow) (hd : d.isDrop = true) : Swaps n r d := by
  by_cases hconcerns : r.concerns n = true ∧ d.concerns n = true
  · intro x
    obtain ⟨y, hy, -⟩ := effect_row (n := n) hr x
    cases d with
    | dropTable txn name =>
      rw [hy]
      have hname : name = n := by simpa [concerns] using hconcerns.2
      simp only [effect, hname, if_pos, bind, Except.bind]
      exact (effect_row_none hr).symm
    | dropDatabase txn db =>
      rw [hy]
      have hin : Catalog.inDatabase db n = true := hconcerns.2
      simp only [effect, hin, if_pos, bind, Except.bind]
      exact (effect_row_none hr).symm
    | dropIndex txn table name =>
      have htable : table = n := by simpa [concerns] using hconcerns.2
      cases r with
      | put txn' table' key row =>
        have htable' : table' = n := by simpa [concerns] using hconcerns.1
        simp only [effect, htable, htable', if_pos]
        refine swaps_dropIndex (fun t => ?_) (fun t d p => Table.applyRaw_dropIndex hr) x
        obtain ⟨t', ht', -, -, hnames, -⟩ := Table.applyRaw_ok (t := t) hr row
        exact ⟨t', ht', hnames⟩
      | delete txn' table' key =>
        have htable' : table' = n := by simpa [concerns] using hconcerns.1
        simp only [effect, htable, htable', if_pos]
        refine swaps_dropIndex (fun t => ?_) (fun t d p => Table.removeRaw_dropIndex hr) x
        obtain ⟨t', ht', -, -, hnames, -⟩ := Table.removeRaw_ok (t := t) hr
        exact ⟨t', ht', hnames⟩
      | commit txn' ts => cases hconcerns.1
      | _ => exact hr.elim
    | _ => cases hd
  · rw [not_and_or, Bool.not_eq_true, Bool.not_eq_true] at hconcerns
    rcases hconcerns with h | h
    · exact Swaps.of_not_concerns h
    · exact (Swaps.of_not_concerns h).symm

/-- Records that may change places one by one may do so as lists. -/
theorem foldlM_swap : ∀ {rs ds : List Record} (x : Option Table),
    (∀ r ∈ rs, ∀ d ∈ ds, Swaps n r d) →
      (rs ++ ds).foldlM (effect n) x = (ds ++ rs).foldlM (effect n) x
  | [], ds, x, _ => by rw [List.nil_append, List.append_nil]
  | r :: rs, ds, x, h => by
    have hone : ∀ {ds : List Record} (x : Option Table), (∀ d ∈ ds, Swaps n r d) →
        (r :: ds).foldlM (effect n) x = (ds ++ [r]).foldlM (effect n) x := by
      intro ds
      induction ds with
      | nil => exact fun _ _ => rfl
      | cons d ds ih =>
        intro x hds
        rw [List.cons_append, List.foldlM_cons, List.foldlM_cons]
        have hswap := hds d (by simp) x
        calc (effect n x r >>= fun y => (d :: ds).foldlM (effect n) y)
            = ((effect n x r >>= fun y => effect n y d) >>= fun z => ds.foldlM (effect n) z) := by
              rw [bind_assoc]
              rfl
          _ = (effect n x d >>= fun y => (r :: ds).foldlM (effect n) y) := by
              rw [hswap, bind_assoc]
              rfl
          _ = (effect n x d >>= fun y => (ds ++ [r]).foldlM (effect n) y) := by
              congr 1
              funext y
              exact ih y fun d' hd' => hds d' (by simp [hd'])
    calc (r :: rs ++ ds).foldlM (effect n) x
        = (effect n x r >>= fun y => (rs ++ ds).foldlM (effect n) y) := rfl
      _ = (effect n x r >>= fun y => (ds ++ rs).foldlM (effect n) y) := by
          congr 1
          funext y
          exact foldlM_swap y fun r' hr' => h r' (by simp [hr'])
      _ = ((r :: ds) ++ rs).foldlM (effect n) x := rfl
      _ = ((ds ++ [r]) ++ rs).foldlM (effect n) x := by
          rw [List.foldlM_append, List.foldlM_append, hone x (h r (by simp))]
      _ = (ds ++ r :: rs).foldlM (effect n) x := by rw [List.append_assoc]; rfl

end Record

end HenchDB
