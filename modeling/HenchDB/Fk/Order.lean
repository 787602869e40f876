import HenchDB.Fk.Walk

/-!
# The order of the tables

What a `DELETE` under foreign keys does depends on the order in which the tables
are listed when a row meets constraints that treat it in two ways: it is deleted
with one row and restricts the delete of another (`clash_depends_on_order`), or it
loses two references and only the first that is met becomes `NULL`.  Where no row
does (`Peaceful`), any two runs both fail or both stage the same rows
(`delete_independent_of_order`).
-/

namespace HenchDB.Fk

open Std (ExtTreeMap)
open Session (Staged StagedWrite)

/-- Both runs fail, or both report and stage the same. -/
def SameOutcome (r r' : Except Halt (Nat × Staged)) : Prop :=
  (∃ f f', r = .error (.fault f) ∧ r' = .error (.fault f')) ∨ ∃ a, r = .ok a ∧ r' = .ok a

section
variable {db : Db} {D : Set TKey}

/-- What is staged for a row is decided. -/
theorem Right.unique (hp : Peaceful db D) {k : TKey} (hk : k ∉ D) {x x' : StagedWrite}
    (h : Right db D k x) (h' : Right db D k x') : x = x' := by
  have hclash : ∀ {res}, k ∈ db.doomed D → ¬ Nulled db D k res := by
    rintro res hdoomed ⟨x, hx, c, col, r, hfinds, rfl, hc, -⟩
    exact hfinds.not_doomed hp hx hk hc hdoomed
  rcases h with ⟨hdoomed, rfl⟩ | ⟨row, hnulled, rfl⟩ <;>
    rcases h' with ⟨hdoomed', rfl⟩ | ⟨row', hnulled', rfl⟩
  · rfl
  · exact absurd hnulled' (hclash hdoomed)
  · exact absurd hnulled (hclash hdoomed')
  · rw [Except.ok.inj (hp.nulled k hk _ _ hnulled hnulled')]

theorem Stages.unique (hp : Peaceful db D) {s s' : Staged} (h : Stages db D s) (h' : Stages db D s') :
    s = s' := by
  refine ExtTreeMap.ext_getElem? fun k => ?_
  by_cases hk : k ∈ Reach.closure (Touches db D) D
  · obtain ⟨x, hx⟩ := Option.isSome_iff_exists.mp
      (ExtTreeMap.isSome_getElem?_iff_mem.mpr ((h.1 k).mpr hk))
    obtain ⟨x', hx'⟩ := Option.isSome_iff_exists.mp
      (ExtTreeMap.isSome_getElem?_iff_mem.mpr ((h'.1 k).mpr hk))
    rw [hx, hx']
    by_cases hin : k ∈ D
    · rw [(h.2 k x hx).1 hin, (h'.2 k x' hx').1 hin]
    · rw [((h.2 k x hx).2 hin).unique hp hin ((h'.2 k x' hx').2 hin)]
  · rw [ExtTreeMap.getElem?_eq_none (mt (h.1 k).mp hk),
      ExtTreeMap.getElem?_eq_none (mt (h'.1 k).mp hk)]

theorem peaceful_of_cascade
    (h : ∀ (name : String) (t : Table), db.tables[name]? = some t →
      ∀ fk ∈ t.info.foreignKeys, fk.onDelete = .cascade) : Peaceful db D where
  deleted _ _ c _ _ hfinds _ _ := h c.1 c.2.1 hfinds.on.1 c.2.2 hfinds.on.2.1
  nulled _ _ _ _ := by
    rintro ⟨x, -, c, col, r, hfinds, -, hc, -⟩
    simp [h c.1 c.2.1 hfinds.on.1 c.2.2 hfinds.on.2.1] at hc
  strict _ _ _ hnulled := by
    obtain ⟨x, -, c, col, r, hfinds, -, hc, -⟩ := hnulled
    simp [h c.1 c.2.1 hfinds.on.1 c.2.2 hfinds.on.2.1] at hc

end

/-- Two runs of a `DELETE` that list their maps in different orders have the same
outcome, if no row meets constraints that treat it in two ways. -/
theorem delete_independent_of_order (o o' : Orders) (db : Db) (table : Table) (rows : List Session.Row)
    (hdb : Keyed db) (hrows : Selects db table rows) (hp : Peaceful db (selected table rows))
    (fuel fuel' : Nat) (hfuel : db.visible.size < fuel) (hfuel' : db.visible.size < fuel') :
    SameOutcome (execDelete o db fuel table rows) (execDelete o' db fuel' table rows) := by
  rcases execDelete_ends o hdb hrows hp hfuel with ⟨hbad, f, hf⟩ | ⟨hsafe, s, staged, hs, hrun, hstages⟩ <;>
    rcases execDelete_ends o' hdb hrows hp hfuel' with
      ⟨hbad', f', hf'⟩ | ⟨hsafe', s', staged', hs', hrun', hstages'⟩
  · exact .inl ⟨f, f', hf, hf'⟩
  · exact absurd hsafe' hbad
  · exact absurd hsafe hbad'
  · obtain rfl : s = s' := Except.ok.inj (hs.symm.trans hs')
    obtain rfl := hstages.unique hp hstages'
    exact .inr ⟨_, hrun, hrun'⟩

/-! ## Small databases -/

def intTable (name : String) (columns : List String) (foreignKeys : List ForeignKeyDef) : Table :=
  Table.new
    { name, schema := ⟨columns.map fun c => ⟨c, .int, true, false, none⟩, 0⟩, indexes := [],
      foreignKeys, stats := none }

/-- Values that are integers or missing are those of a table of integers. -/
theorem normal_intTable {name : String} {columns : List String} {foreignKeys : List ForeignKeyDef}
    {row : Session.Row} (hwidth : row.length = columns.length)
    (hrow : ∀ d ∈ row, d = .null ∨ ∃ v, d = .int v) :
    (intTable name columns foreignKeys).schema.Normal row where
  width := by simpa [intTable, Table.new] using hwidth
  column i c d hc hd := by
    obtain ⟨col, -, rfl⟩ : ∃ col, columns[i]? = some col ∧
        (⟨col, .int, true, false, none⟩ : ColumnDef) = c := by
      simpa [intTable, Table.new] using hc
    rcases hrow d (List.mem_of_getElem? hd) with rfl | ⟨v, rfl⟩ <;> rfl

/-- Tables under their names and rows under their keys. -/
def intDb (tables : List Table) (rows : List (String × List Int64)) : Db where
  tables := tables.foldl (fun m t => m.insert t.info.name t) ∅
  visible := rows.foldl (fun m r => m.insert (r.1, 1 :: keyInt (r.2.headD 0)) (r.2.map Datum.int)) ∅

/-- The tables in the order of their names, or the other way round. -/
def Orders.ofTables (tables : List String → List String) (h : ∀ l, (tables l).Perm l) : Orders where
  tables := tables
  tables_perm := h
  staged l := l
  staged_perm l := .refl l
  overlay _ l := l
  overlay_perm _ l := .refl l

def Orders.forward : Orders := .ofTables id fun l => .refl l

def Orders.backward : Orders := .ofTables List.reverse List.reverse_perm

def parents : Table := intTable "p" ["id"] []

def cascadeTo (table column : String) : ForeignKeyDef := ⟨"fk_" ++ table, column, table, "id", .cascade⟩

theorem mem_of_foldl_insert {α β γ : Type} [Ord α] [Std.TransOrd α] [Std.LawfulEqOrd α]
    {f : β → α} {g : β → γ} {k : α} {v : γ} : ∀ {l : List β} {m : ExtTreeMap α γ},
    (l.foldl (fun m b => m.insert (f b) (g b)) m)[k]? = some v →
      (∃ b ∈ l, f b = k ∧ g b = v) ∨ m[k]? = some v
  | [], _, h => .inr h
  | b :: l, m, h => by
    rcases mem_of_foldl_insert (l := l) h with ⟨b', hb', heq⟩ | hm
    · exact .inl ⟨b', List.mem_cons_of_mem _ hb', heq⟩
    · rw [ExtTreeMap.getElem?_insert] at hm
      split at hm
      · next heq =>
        exact .inl ⟨b, List.mem_cons_self .., Std.compare_eq_iff_eq.mp heq, Option.some.inj hm⟩
      · exact .inr hm

section
variable {tables : List Table} {rows : List (String × List Int64)}

theorem mem_of_intDb_tables {name : String} {t : Table}
    (ht : (intDb tables rows).tables[name]? = some t) : t ∈ tables ∧ t.info.name = name := by
  rcases mem_of_foldl_insert ht with ⟨t', ht', rfl, rfl⟩ | hnone
  · exact ⟨ht', rfl⟩
  · simp at hnone

theorem mem_of_intDb_visible {k : TKey} {row : Session.Row}
    (hrow : (intDb tables rows).visible[k]? = some row) :
    ∃ r ∈ rows, (r.1, 1 :: keyInt (r.2.headD 0)) = k ∧ r.2.map Datum.int = row := by
  rcases mem_of_foldl_insert hrow with hr | hnone
  · exact hr
  · simp at hnone

theorem keyed_intDb (hpk : ∀ t ∈ tables, t.schema.pkIdx = 0) (hrows : ∀ r ∈ rows, r.2 ≠ []) :
    Keyed (intDb tables rows) where
  named _ _ ht := (mem_of_intDb_tables ht).2
  keyed name t ht k row hrow := by
    obtain ⟨r, hr, hk, rfl⟩ := mem_of_intDb_visible hrow
    obtain ⟨v, vs, hvs⟩ := List.exists_cons_of_ne_nil (hrows r hr)
    obtain ⟨-, rfl⟩ := Prod.ext_iff.mp hk
    rw [hpk t (mem_of_intDb_tables ht).1, hvs]
    rfl

end

/-- A row of `c` is deleted with the row of `p` that it references. -/
def chainDb : Db := intDb [parents, intTable "c" ["id", "pid"] [cascadeTo "p" "pid"]]
  [("p", [1]), ("c", [1, 1])]

theorem chain_parents : chainDb.tables["p"]? = some parents := by
  show (((∅ : ExtTreeMap String Table).insert "p" parents).insert "c" _)["p"]? = some parents
  rw [ExtTreeMap.getElem?_insert, if_neg (by decide), ExtTreeMap.getElem?_insert_self]

theorem chain_cascades :
    ∀ t ∈ [parents, intTable "c" ["id", "pid"] [cascadeTo "p" "pid"]],
      ∀ fk ∈ t.info.foreignKeys, fk.onDelete = .cascade := by decide

theorem chain_independent_of_order :
    SameOutcome (execDelete .forward chainDb 9 parents [[.int 1]])
      (execDelete .backward chainDb 9 parents [[.int 1]]) :=
  delete_independent_of_order .forward .backward chainDb parents [[.int 1]]
    (keyed_intDb (by decide +kernel) (by decide))
    ⟨chain_parents, fun row hrow => ⟨1 :: keyInt 1, by
      cases List.mem_singleton.mp hrow
      decide +kernel⟩⟩
    (peaceful_of_cascade fun _ t ht => chain_cascades t (mem_of_intDb_tables ht).1) 9 9
    (by decide +kernel) (by decide +kernel)

/-- A row of `b` is deleted with the row of `p`, and restricts the delete of the row of `a`. -/
def clashDb : Db := intDb
  [parents, intTable "a" ["id", "pid"] [cascadeTo "p" "pid"],
    intTable "b" ["id", "pid", "aid"] [cascadeTo "p" "pid", ⟨"fk_a", "aid", "a", "id", .restrict⟩]]
  [("p", [1]), ("a", [1, 1]), ("b", [1, 1, 1])]

/-- The delete of the row of `p` fails if `a` comes first, and succeeds if `b` does. -/
theorem clash_depends_on_order :
    ¬ SameOutcome (execDelete .forward clashDb 9 parents [[.int 1]])
      (execDelete .backward clashDb 9 parents [[.int 1]]) := by
  have hfails : (execDelete .forward clashDb 9 parents [[.int 1]]).toBool = false := by decide +kernel
  have hworks : (execDelete .backward clashDb 9 parents [[.int 1]]).toBool = true := by decide +kernel
  rintro (⟨f, f', -, hf'⟩ | ⟨a, ha, -⟩)
  · rw [hf'] at hworks
    cases hworks
  · rw [ha] at hfails
    cases hfails

end HenchDB.Fk
