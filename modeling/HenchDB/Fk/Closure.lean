import HenchDB.Fk.Order

/-!
# Cascading deletes

Where all foreign keys cascade, are on columns of integers and reference primary
keys, a `DELETE` ends and stages deletions only: of the rows that it selects and of
those that they reach by references that are known (`Knows`).  The index of a column
knows what is stored; a reference that the session has written since is not found
through it (`pending_child_is_kept`).  So the rows that are deleted are the least set
with the selected rows and all that reference one of its rows just if references
that no index knows lead to no others (`delete_closes_iff`), as they do while the
session sees what is stored (`knows_of_stored`).
-/

namespace HenchDB.Fk

open Std (ExtTreeMap)
open Session (StagedWrite)
open Reach (Closed closure)

/-- All constraints cascade, from columns of integers to primary keys, and the tables
and what the session sees of them are in order. -/
structure Cascading (db : Db) : Prop where
  named : ∀ (name : String) (t : Table), db.tables[name]? = some t → t.info.name = name
  kept : ∀ (name : String) (t : Table), db.tables[name]? = some t → Kept t ∧ Seen db t
  constraint : ∀ (name : String) (t : Table), db.tables[name]? = some t →
    ∀ fk ∈ t.info.foreignKeys, fk.onDelete = .cascade ∧
      (∃ col, t.schema.indexOf fk.column = some col ∧ IntColumn t.schema col) ∧
      ∃ p, db.tables[fk.refTable]? = some p ∧ p.schema.indexOf fk.refColumn = some p.schema.pkIdx ∧
        IntColumn p.schema p.schema.pkIdx

/-- The second row references the first, in the column of a constraint. -/
def RefersBy (db : Db) (x y : TKey) (c : Child) (col : Nat) (v : Int64) : Prop :=
  c.On db x.1 ∧ c.1 = y.1 ∧ c.2.1.schema.indexOf c.2.2.column = some col ∧
    db.pkOf x = some (.int v) ∧ Has db c.2.1 col v (y.2, (db.visible[y]?).getD [])

/-- The second row references the first. -/
def Refers (db : Db) (x y : TKey) : Prop := ∃ c col v, RefersBy db x y c col v

/-- It does so where the index of the column, if there is one, finds it. -/
def Knows (db : Db) (x y : TKey) : Prop :=
  ∃ c col v, RefersBy db x y c col v ∧ (indexed c.2.1 col = true → Stores c.2.1 y.2 col v)

theorem Knows.refers {db : Db} {x y : TKey} (h : Knows db x y) : Refers db x y :=
  h.imp fun _ h => h.imp fun _ h => h.imp fun _ h => h.1

section
variable {db : Db} {x y : TKey} {c : Child} {D : Set TKey}

theorem Cascading.keyed (h : Cascading db) : Keyed db where
  named := h.named
  keyed name t ht k row hrow := by
    obtain rfl := h.named name t ht
    exact ((h.kept _ t ht).2 k row hrow).2

theorem Cascading.cascade (h : Cascading db) (hon : c.On db x.1) : c.2.2.onDelete = .cascade :=
  (h.constraint c.1 c.2.1 hon.1 c.2.2 hon.2.1).1

theorem Cascading.column (h : Cascading db) (hon : c.On db x.1) :
    ∃ col, c.2.1.schema.indexOf c.2.2.column = some col ∧ IntColumn c.2.1.schema col :=
  (h.constraint c.1 c.2.1 hon.1 c.2.2 hon.2.1).2.1

/-- The key of a row that is referenced is an integer. -/
theorem Cascading.int_pk (h : Cascading db) (hon : c.On db x.1) {d : Datum}
    (hd : db.pkOf x = some d) : ∃ v, d = .int v := by
  obtain ⟨-, -, p, hp, -, hcol⟩ := h.constraint c.1 c.2.1 hon.1 c.2.2 hon.2.1
  rw [hon.2.2] at hp
  obtain ⟨t, ht, hd⟩ := Option.bind_eq_some_iff.mp hd
  obtain ⟨row, hrow, hd⟩ := Option.bind_eq_some_iff.mp hd
  cases hd
  obtain rfl : p = t := Option.some.inj (hp.symm.trans ht)
  have hname := h.named _ p hp
  obtain ⟨hnormal, hkey⟩ := (h.kept _ p hp).2 x.2 row (by rw [hname]; exact hrow)
  rcases int_or_null hcol hnormal with hnull | hint
  · rw [hnull] at hkey
    cases hkey
  · exact hint

theorem Cascading.refs (h : Cascading db) (hon : c.On db x.1) {col : Nat}
    (hcol : c.2.1.schema.indexOf c.2.2.column = some col) (v : Int64) :
    ∃ found, refsOf db c.2.1 col (.int v) = .ok found ∧ ∀ r, r ∈ found ↔
      Has db c.2.1 col v r ∧ (indexed c.2.1 col = true → Stores c.2.1 r.1 col v) := by
  obtain ⟨hkept, hseen⟩ := h.kept c.1 c.2.1 hon.1
  obtain ⟨col', hcol', hint⟩ := h.column hon
  obtain rfl : col' = col := Option.some.inj (hcol'.symm.trans hcol)
  exact refsOf_int hkept hseen hint v

theorem Cascading.cascades_iff (h : Cascading db) : Cascades db x y ↔ Knows db x y := by
  constructor
  · rintro ⟨c, col, r, hfinds, rfl, -⟩
    obtain ⟨d, rows, hd, hrows, hr⟩ := hfinds.found
    obtain ⟨v, rfl⟩ := h.int_pk hfinds.on hd
    obtain ⟨found, hfound, hmem⟩ := h.refs hfinds.on hfinds.column v
    obtain rfl : rows = found := Except.ok.inj (hrows.symm.trans hfound)
    obtain ⟨hhas, hstores⟩ := (hmem r).mp hr
    have hseen := hfinds.visible h.keyed
    refine ⟨c, col, v, ⟨hfinds.on, rfl, hfinds.column, hd, ?_⟩, hstores⟩
    rw [hseen]
    exact hhas
  · rintro ⟨c, col, v, ⟨hon, hc, hcol, hd, hhas⟩, hstores⟩
    obtain ⟨found, hfound, hmem⟩ := h.refs hon hcol v
    have hr := (hmem (y.2, (db.visible[y]?).getD [])).mpr ⟨hhas, hstores⟩
    refine ⟨c, col, _, ⟨hon, hcol, _, found, hd, hfound, hr⟩, ?_, h.cascade hon⟩
    rw [hc]

theorem Cascading.peaceful (h : Cascading db) (D : Set TKey) : Peaceful db D :=
  peaceful_of_cascade fun name t ht fk hfk => (h.constraint name t ht fk hfk).1

theorem Cascading.safe (h : Cascading db) (D : Set TKey) : Safe db D := by
  intro x _ d hd c hon hfails
  obtain ⟨v, rfl⟩ := h.int_pk hon hd
  obtain ⟨col, hcol, -⟩ := h.column hon
  obtain ⟨found, hfound, -⟩ := h.refs hon hcol v
  obtain ⟨r, -, -, hrejects⟩ := hfails col found hcol hfound
  have hcascade := h.cascade hon
  rcases hrejects with (hc | ⟨hc, -⟩) | ⟨hc, -⟩ <;> simp [hcascade] at hc

/-- What is found is deleted. -/
theorem Cascading.closure_touches (h : Cascading db) (D : Set TKey) :
    closure (Touches db D) D = closure (Knows db) D := by
  have hdoomed : db.doomed D = closure (Knows db) D :=
    congrArg (closure · D) (funext fun x => funext fun y => propext h.cascades_iff)
  rw [← hdoomed]
  refine Set.Subset.antisymm ?_ (doomed_subset D)
  refine (Reach.isLeast_closure _ D).2 ⟨subset_closure D, fun x hx y hy => ?_⟩
  obtain ⟨c, col, r, hfinds, rfl⟩ := hy.2
  exact hfinds.doomed hx (h.cascade hfinds.on)

/-- A `DELETE` stages the deletions of the rows that it selects and of those that they
reach by known references. -/
theorem Cascading.execDelete_deletes (h : Cascading db) (o : Orders) {table : Table}
    {rows : List Session.Row} (hrows : Selects db table rows) {fuel : Nat} (hfuel : db.visible.size < fuel) :
    ∃ n staged, execDelete o db fuel table rows = .ok (n, staged) ∧
      (∀ (k : TKey) (x : StagedWrite), staged[k]? = some x → x.row = none) ∧
      {k | k ∈ staged} = closure (Knows db) (selected table rows) := by
  rcases execDelete_ends o h.keyed hrows (h.peaceful _) hfuel with
    ⟨hbad, -⟩ | ⟨-, s, staged, -, hrun, hmem, hval⟩
  · exact absurd (h.safe _) hbad
  · refine ⟨_, staged, hrun, fun k x hx => ?_, ?_⟩
    · by_cases hk : k ∈ selected table rows
      · rw [(hval k x hx).1 hk]
      · rcases (hval k x hx).2 hk with ⟨-, rfl⟩ | ⟨row, ⟨z, -, c, col, r, hfinds, -, hc, -⟩, -⟩
        · rfl
        · simp [h.cascade hfinds.on] at hc
    · rw [← h.closure_touches]
      exact Set.ext hmem

end

/-- A cascading `DELETE` ends with the least set of rows that holds the selected rows
and every row that references one of its rows, just if the references that no index
knows lead from known rows to known rows. -/
theorem delete_closes_iff (o : Orders) (db : Db) (h : Cascading db) (table : Table)
    (rows : List Session.Row) (hrows : Selects db table rows) (fuel : Nat) (hfuel : db.visible.size < fuel) :
    (∃ n staged, execDelete o db fuel table rows = .ok (n, staged) ∧
      (∀ (k : TKey) (x : StagedWrite), staged[k]? = some x → x.row = none) ∧
      IsLeast {S | Closed (Refers db) (selected table rows) S} {k | k ∈ staged}) ↔
    ∀ x ∈ closure (Knows db) (selected table rows), ∀ y, Refers db x y → ¬ Knows db x y →
      y ∈ closure (Knows db) (selected table rows) := by
  obtain ⟨n, staged, hrun, hnone, hset⟩ := h.execDelete_deletes o hrows hfuel
  constructor
  · rintro ⟨n', staged', hrun', -, hleast⟩ x hx y hxy -
    obtain rfl : staged = staged' := congrArg Prod.snd (Except.ok.inj (hrun.symm.trans hrun'))
    rw [hset] at hleast
    exact hleast.1.2 x hx y hxy
  · intro hunknown
    refine ⟨n, staged, hrun, hnone, ?_⟩
    rw [hset]
    refine ⟨⟨(Reach.closed_closure _ _).1, fun x hx y hxy => ?_⟩, fun S hS => ?_⟩
    · by_cases hknows : Knows db x y
      · exact (Reach.closed_closure _ _).2 x hx y hknows
      · exact hunknown x hx y hxy hknows
    · exact (Reach.isLeast_closure _ _).2 ⟨hS.1, fun x hx y hxy => hS.2 x hx y hxy.refers⟩

/-- While the session sees what is stored, all references are known. -/
theorem knows_of_stored {db : Db} (hnamed : ∀ (name : String) (t : Table), db.tables[name]? = some t →
    t.info.name = name) (hstored : ∀ (name : String) (t : Table), db.tables[name]? = some t →
      ∀ (k : Bytes) (row : Session.Row), db.visible[(name, k)]? = some row →
        ∃ raw, t.tree[k]? = some raw ∧ decodeRow t.schema raw = .ok row)
    {x y : TKey} (h : Refers db x y) : Knows db x y := by
  obtain ⟨c, col, v, hby⟩ := h
  refine ⟨c, col, v, hby, fun _ => ?_⟩
  obtain ⟨hon, -, -, -, hseen, hval⟩ := hby
  rw [hnamed c.1 c.2.1 hon.1] at hseen
  obtain ⟨raw, hraw, hrow⟩ := hstored c.1 c.2.1 hon.1 y.2 _ hseen
  exact ⟨raw, _, hraw, hrow, hval⟩

/-- A table without rows or indexes, whatever the session has pending. -/
theorem kept_intTable (name : String) (columns : List String) (foreignKeys : List ForeignKeyDef) :
    Kept (intTable name columns foreignKeys) where
  exact _ hidx := nomatch hidx
  stored k raw hraw := by simp [intTable, Table.new] at hraw

theorem cascading_intDb {tables : List Table} {rows : List (String × List Int64)}
    (hkept : ∀ t ∈ tables, Kept t)
    (hnormal : ∀ t ∈ tables, ∀ r ∈ rows, r.1 = t.info.name → t.schema.Normal (r.2.map Datum.int))
    (hpk : ∀ t ∈ tables, t.schema.pkIdx = 0) (hrows : ∀ r ∈ rows, r.2 ≠ [])
    (hconstraint : ∀ t ∈ tables, ∀ fk ∈ t.info.foreignKeys, fk.onDelete = .cascade ∧
      (∃ col, t.schema.indexOf fk.column = some col ∧ IntColumn t.schema col) ∧
      ∃ p, (intDb tables rows).tables[fk.refTable]? = some p ∧
        p.schema.indexOf fk.refColumn = some p.schema.pkIdx ∧ IntColumn p.schema p.schema.pkIdx) :
    Cascading (intDb tables rows) where
  named _ _ ht := (mem_of_intDb_tables ht).2
  kept name t ht := by
    obtain ⟨hin, rfl⟩ := mem_of_intDb_tables ht
    refine ⟨hkept t hin, fun k row hrow => ⟨?_, (keyed_intDb hpk hrows).keyed _ t ht k row hrow⟩⟩
    obtain ⟨r, hr, hk, rfl⟩ := mem_of_intDb_visible hrow
    exact hnormal t hin r hr (Prod.ext_iff.mp hk).1
  constraint name t ht := hconstraint t (mem_of_intDb_tables ht).1

/-- The rows of `c` reference those of `p`. -/
def children (indexes : List SecondaryIndex) : Table :=
  { intTable "c" ["id", "pid"] [cascadeTo "p" "pid"] with indexes }

/-- The session has inserted a row of `p` and one of `c` that references it. -/
def childDb (indexes : List SecondaryIndex) : Db :=
  intDb [parents, children indexes] [("p", [1]), ("c", [1, 1])]

section
variable {indexes : List SecondaryIndex}

theorem childDb_parents : (childDb indexes).tables["p"]? = some parents := by
  show (((∅ : ExtTreeMap String Table).insert "p" parents).insert "c" _)["p"]? = some parents
  rw [ExtTreeMap.getElem?_insert, if_neg (by decide), ExtTreeMap.getElem?_insert_self]

theorem childDb_children : (childDb indexes).tables["c"]? = some (children indexes) :=
  ExtTreeMap.getElem?_insert_self

theorem childDb_selects : Selects (childDb indexes) parents [[.int 1]] where
  known := childDb_parents
  rows row hrow := by
    cases List.mem_singleton.mp hrow
    refine ⟨1 :: keyInt 1, ?_⟩
    show (intDb [] [("p", [1]), ("c", [1, 1])]).visible[("p", 1 :: keyInt 1)]? = some [Datum.int 1]
    decide +kernel

theorem childDb_cascading (h : Kept (children indexes)) : Cascading (childDb indexes) := by
  refine cascading_intDb ?_ ?_ ?_ ?_ ?_
  · rintro t (_ | ⟨_, _ | ⟨_, ⟨⟩⟩⟩)
    · exact kept_intTable _ _ _
    · exact h
  · rintro t (_ | ⟨_, _ | ⟨_, ⟨⟩⟩⟩) r (_ | ⟨_, _ | ⟨_, ⟨⟩⟩⟩) hname
    · exact normal_intTable rfl (by simp)
    · exact absurd hname (by decide)
    · simp [children, intTable, Table.new] at hname
    · have hnormal : (intTable "c" ["id", "pid"] [cascadeTo "p" "pid"]).schema.Normal
          [Datum.int 1, Datum.int 1] := normal_intTable rfl (by simp)
      exact hnormal
  · rintro t (_ | ⟨_, _ | ⟨_, ⟨⟩⟩⟩) <;> rfl
  · decide
  · rintro t (_ | ⟨_, _ | ⟨_, ⟨⟩⟩⟩) fk hfk
    · cases hfk
    · cases List.mem_singleton.mp hfk
      exact ⟨rfl, ⟨1, rfl, _, rfl, .inl rfl⟩, parents, childDb_parents, rfl, _, rfl, .inl rfl⟩

end

theorem child_closes :
    ∃ n staged, execDelete .forward (childDb []) 9 parents [[.int 1]] = .ok (n, staged) ∧
      (∀ (k : TKey) (x : StagedWrite), staged[k]? = some x → x.row = none) ∧
      IsLeast {S | Closed (Refers (childDb [])) (selected parents [[.int 1]]) S} {k | k ∈ staged} :=
  (delete_closes_iff .forward (childDb []) (childDb_cascading (kept_intTable _ _ _)) parents
    [[.int 1]] childDb_selects 9 (by decide +kernel)).mpr fun x _ y hxy hno => by
      refine absurd (hxy.imp fun c h => h.imp fun col h => h.imp fun v h => ⟨h, fun hindexed => ?_⟩) hno
      rcases List.mem_cons.mp (mem_of_intDb_tables h.1.1).1 with hparent | hchild
      · rw [hparent] at hindexed
        cases hindexed
      · rw [List.mem_singleton.mp hchild] at hindexed
        cases hindexed

/-- The index of the column of `c`, to which the session has not committed yet. -/
def freshIndex : SecondaryIndex := ⟨⟨"idx_pid", "pid"⟩, 1, ∅⟩

/-- The delete of the row of `p` leaves the row of `c`, which the session has inserted
itself and which no index knows. -/
theorem pending_child_is_kept :
    Cascading (childDb [freshIndex]) ∧ Selects (childDb [freshIndex]) parents [[.int 1]] ∧
    ¬ ∃ n staged, execDelete .forward (childDb [freshIndex]) 9 parents [[.int 1]] = .ok (n, staged) ∧
      (∀ (k : TKey) (x : StagedWrite), staged[k]? = some x → x.row = none) ∧
      IsLeast {S | Closed (Refers (childDb [freshIndex])) (selected parents [[.int 1]]) S}
        {k | k ∈ staged} := by
  have hkept : Kept (children [freshIndex]) := by
    refine ⟨fun idx hidx => ?_, fun k raw hraw => ?_⟩
    · cases List.mem_singleton.mp hidx
      refine ⟨rfl, fun e => ?_⟩
      simp [freshIndex, children, intTable, Table.new]
    · simp [children, intTable, Table.new] at hraw
  refine ⟨childDb_cascading hkept, childDb_selects, ?_⟩
  rintro ⟨n, staged, hrun, -, hleast⟩
  have hrefers : Refers (childDb [freshIndex]) ("p", 1 :: keyInt 1) ("c", 1 :: keyInt 1) := by
    refine ⟨("c", children [freshIndex], cascadeTo "p" "pid"), 1, 1,
      ⟨childDb_children, List.mem_singleton.mpr rfl, rfl⟩, rfl, rfl, ?_, ?_, ?_⟩
    · rw [Db.pkOf, childDb_parents]
      decide +kernel
    · decide +kernel
    · decide +kernel
  have hselected : ("p", 1 :: keyInt 1) ∈ selected parents [[.int 1]] :=
    ⟨rfl, [.int 1], List.mem_singleton.mpr rfl, rfl⟩
  have hin : ("c", 1 :: keyInt 1) ∈ staged := hleast.1.2 _ (hleast.1.1 hselected) _ hrefers
  have hout : (execDelete .forward (childDb [freshIndex]) 9 parents [[.int 1]]).toOption.map
      (fun r => r.2.contains ("c", 1 :: keyInt 1)) = some false := by decide +kernel
  rw [hrun] at hout
  have hnot : staged.contains ("c", 1 :: keyInt 1) = false := Option.some.inj hout
  exact Bool.false_ne_true (hnot.symm.trans (ExtTreeMap.mem_iff_contains.mp hin))

end HenchDB.Fk
