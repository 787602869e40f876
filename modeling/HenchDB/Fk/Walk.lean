import HenchDB.Fk.Refs
import HenchDB.Lib.Reach

/-!
# The walk over the foreign keys

What a constraint finds for a row of a referenced table does not depend on the run
(`Finds`), but for the rows that are staged.  The rows that are deleted are those
that the deleted rows reach by constraints that cascade (`Db.doomed`).  As long as
nothing that the run has staged is decided otherwise elsewhere (`Peaceful`), a run
fails only if a row that is to be deleted has a constraint that fails (`Fails`),
and otherwise covers all rows that are found (`Ends`, `ends_onParentDelete`).
-/

namespace HenchDB.Fk

open Std (ExtTreeMap ExtTreeSet)
open Session (Staged StagedWrite)
open Reach (closure Covers)

/-! ## Constraints and what they find -/

abbrev Child := String × Table × ForeignKeyDef

def Child.On (db : Db) (parentKey : String) (c : Child) : Prop :=
  db.tables[c.1]? = some c.2.1 ∧ c.2.2 ∈ c.2.1.info.foreignKeys ∧ c.2.2.refTable = parentKey

/-- The primary key of a row that the session sees. -/
def Db.pkOf (db : Db) (x : TKey) : Option Datum := do
  let t ← db.tables[x.1]?
  let row ← db.visible[x]?
  return Table.column row t.schema.pkIdx

structure Finds (db : Db) (x : TKey) (c : Child) (col : Nat) (r : Bytes × Session.Row) : Prop where
  on : c.On db x.1
  column : c.2.1.schema.indexOf c.2.2.column = some col
  found : ∃ v rows, db.pkOf x = some v ∧ refsOf db c.2.1 col v = .ok rows ∧ r ∈ rows

/-- A constraint that cascades finds the second row by the first. -/
def Cascades (db : Db) (x y : TKey) : Prop :=
  ∃ c col r, Finds db x c col r ∧ y = (c.1, r.1) ∧ c.2.2.onDelete = .cascade

def Db.doomed (db : Db) (D : Set TKey) : Set TKey := closure (Cascades db) D

/-- The constraint forbids to delete what the rows reference. -/
def Child.Strict (c : Child) (col : Nat) : Prop :=
  c.2.2.onDelete = .restrict ∨ c.2.2.onDelete = .setNull ∧ nullable c.2.1 col = false

def Child.Rejects (c : Child) (col : Nat) (r : Bytes × Session.Row) : Prop :=
  c.Strict col ∨
    c.2.2.onDelete = .setNull ∧ ∃ e, c.2.1.schema.validateRow (r.2.set col .null) = .error e

/-- The constraint fails for the primary key of a row: its column is unknown, the
rows are not read, or it fails on one of them. -/
def Fails (db : Db) (D : Set TKey) (v : Datum) (c : Child) : Prop :=
  ∀ col rows, c.2.1.schema.indexOf c.2.2.column = some col → refsOf db c.2.1 col v = .ok rows →
    ∃ r ∈ rows, (c.1, r.1) ∉ D ∧ c.Rejects col r

/-- No constraint fails for the row. -/
def Passes (db : Db) (D : Set TKey) (x : TKey) : Prop :=
  ∀ v, db.pkOf x = some v → ∀ c : Child, c.On db x.1 → ¬ Fails db D v c

/-- What a row becomes that loses its reference to a row that is deleted. -/
def Nulled (db : Db) (D : Set TKey) (k : TKey) (res : Except Error Session.Row) : Prop :=
  ∃ x ∈ db.doomed D, ∃ c col r, Finds db x c col r ∧ k = (c.1, r.1) ∧ c.2.2.onDelete = .setNull ∧
    nullable c.2.1 col = true ∧ res = c.2.1.schema.validateRow (r.2.set col .null)

def Right (db : Db) (D : Set TKey) (k : TKey) (w : StagedWrite) : Prop :=
  k ∈ db.doomed D ∧ w = ⟨none, false⟩ ∨ ∃ row, Nulled db D k (.ok row) ∧ w = ⟨some row, false⟩

/-- No row meets constraints that treat it in two ways. -/
structure Peaceful (db : Db) (D : Set TKey) : Prop where
  /-- A row that is deleted with others is found by constraints that cascade only. -/
  deleted : ∀ x ∈ db.doomed D, ∀ c col r, Finds db x c col r → (c.1, r.1) ∈ db.doomed D →
    (c.1, r.1) ∉ D → c.2.2.onDelete = .cascade
  /-- A row becomes the same by all references that it loses. -/
  nulled : ∀ k ∉ D, ∀ res res', Nulled db D k res → Nulled db D k res' → res = res'
  /-- It is seen by the constraints that forbid the delete before as after. -/
  strict : ∀ k ∉ D, ∀ row, Nulled db D k (.ok row) → ∀ x ∈ db.doomed D, ∀ c : Child, c.On db x.1 →
    c.1 = k.1 → ∀ col v, c.2.1.schema.indexOf c.2.2.column = some col → db.pkOf x = some v →
    c.Strict col → ((∃ r, Finds db x c col r ∧ r.1 = k.2) ↔ coerceEq (Table.column row col) v = true)

/-- The tables lie under their names, and the rows that the session sees under
their keys. -/
structure Keyed (db : Db) : Prop where
  named : ∀ (name : String) (t : Table), db.tables[name]? = some t → t.info.name = name
  keyed : ∀ (name : String) (t : Table), db.tables[name]? = some t → ∀ (k : Bytes) (row : Session.Row),
    db.visible[(name, k)]? = some row → encodeKey (Table.column row t.schema.pkIdx) = .ok k

section
variable {db : Db}

theorem mem_fkChildrenOf {o : Orders} {parentKey : String} {c : Child} :
    c ∈ fkChildrenOf o db parentKey ↔ c.On db parentKey := by
  have hkeys : ∀ name, name ∈ o.tables db.tables.keys ↔ ∃ t, db.tables[name]? = some t := by
    intro name
    rw [(o.tables_perm _).mem_iff, ExtTreeMap.mem_keys, ← Option.isSome_iff_exists,
      ExtTreeMap.isSome_getElem?_iff_mem]
  rw [fkChildrenOf, List.mem_flatMap]
  constructor
  · rintro ⟨name, -, hc⟩
    cases ht : db.tables[name]? with
    | none => simp [ht] at hc
    | some t =>
      simp only [ht, List.mem_map, List.mem_filter, decide_eq_true_eq] at hc
      obtain ⟨fk, ⟨hfk, hparent⟩, rfl⟩ := hc
      exact ⟨ht, hfk, hparent⟩
  · rintro ⟨ht, hfk, hparent⟩
    refine ⟨c.1, (hkeys c.1).mpr ⟨c.2.1, ht⟩, ?_⟩
    simp only [ht, List.mem_map, List.mem_filter, decide_eq_true_eq]
    exact ⟨c.2.2, ⟨hfk, hparent⟩, rfl⟩

variable {t : Table} {col : Nat} {v : Datum} {r : Bytes × Session.Row}

/-- The row that a key of an index leads to. -/
theorem visible_of_seekRef {pk : Datum} (h : seekRef db t col v ∅ pk = .ok (some r)) :
    db.visible[(t.info.name, r.1)]? = some r.2 := by
  rw [seekRef] at h
  cases hkey : encodeKey pk with
  | error e => simp [hkey, Except.mapError, bind, Except.bind] at h
  | ok key =>
    simp [hkey, Except.mapError, bind, Except.bind, pure, Except.pure] at h
    obtain ⟨row, ⟨hrow, -⟩, rfl⟩ := h
    exact hrow

theorem visible_of_scanRef {name : String} (hdb : Keyed db) (ht : db.tables[name]? = some t)
    {row : Session.Row} (hrow : row ∈ visibleOf db name) (h : scanRef t col v ∅ row = .ok (some r)) :
    db.visible[(name, r.1)]? = some r.2 := by
  obtain ⟨⟨⟨name', k⟩, row'⟩, hin, rfl⟩ := List.mem_map.mp hrow
  obtain ⟨hlisted, hname⟩ := List.mem_filter.mp hin
  obtain rfl : name' = name := of_decide_eq_true hname
  have hvisible := ExtTreeMap.mem_toList_iff_getElem?_eq_some.mp hlisted
  simp [scanRef, hdb.keyed _ _ ht k row' hvisible, Except.mapError, bind, Except.bind, pure,
    Except.pure] at h
  obtain ⟨-, rfl⟩ := h
  exact hvisible

/-- The rows that are found are those that the session sees. -/
theorem visible_of_refsOf (hdb : Keyed db) {name : String} (ht : db.tables[name]? = some t)
    {rows : List (Bytes × Session.Row)} (hrows : refsOf db t col v = .ok rows) (hr : r ∈ rows) :
    db.visible[(name, r.1)]? = some r.2 := by
  obtain rfl := hdb.named name t ht
  rw [refsOf] at hrows
  split at hrows
  · obtain ⟨found, hfound, hrows⟩ := Outcome.bind_ok hrows
    cases hrows
    obtain ⟨_, hin, rfl⟩ := List.mem_filterMap.mp hr
    obtain ⟨part, hpart, hin⟩ := List.mem_flatten.mp hin
    obtain ⟨cand, -, hcand⟩ := (Outcome.mem_of_mapM_ok hfound).mp hpart
    obtain ⟨pks, -, hpks⟩ := Outcome.bind_ok hcand
    obtain ⟨pk, -, hseek⟩ := (Outcome.mem_of_mapM_ok hpks).mp hin
    exact visible_of_seekRef hseek
  · obtain ⟨found, hfound, hrows⟩ := Outcome.bind_ok hrows
    cases hrows
    obtain ⟨_, hin, rfl⟩ := List.mem_filterMap.mp hr
    obtain ⟨row, hrow, hscan⟩ := (Outcome.mem_of_mapM_ok hfound).mp hin
    exact visible_of_scanRef hdb ht hrow hscan

end

/-! ## Runs -/

/-- The rows that a run has staged. -/
def Walk.gone (w : Walk) : Set TKey := {k | k ∈ w.pending}

/-- What a run has staged is right, and apart from the rows that were deleted first. -/
structure Walk.Sound (db : Db) (D : Set TKey) (w : Walk) : Prop where
  visited : ∀ k, k ∈ w.visited ↔ k ∈ w.pending
  apart : ∀ k ∈ w.pending, k ∉ D
  right : ∀ k x, w.pending[k]? = some x → Right db D k x

/-- A row that is deleted has the other found. -/
def Touches (db : Db) (D : Set TKey) (x y : TKey) : Prop :=
  x ∈ db.doomed D ∧ ∃ c col r, Finds db x c col r ∧ y = (c.1, r.1)

/-- No constraint fails for a row that is deleted. -/
def Safe (db : Db) (D : Set TKey) : Prop := ∀ x ∈ db.doomed D, Passes db D x

/-- Part of a run either fails, as some row does, or has covered some rows and
passed what it had to. -/
def Ends (db : Db) (D : Set TKey) (w : Walk) (r : Except Halt Walk) (S : Set TKey) (Q : Prop) : Prop :=
  (¬ Safe db D ∧ ∃ f, r = .error (.fault f)) ∨
    Q ∧ ∃ w', r = .ok w' ∧ w'.Sound db D ∧
      Covers (Touches db D) (fun x => x ∈ db.doomed D → Passes db D x) D w.gone w'.gone S

section
variable {db : Db} {D : Set TKey} {w : Walk}

/-- Nothing is left to do. -/
theorem ends_ok {S : Set TKey} {Q : Prop} (hw : w.Sound db D) (hS : S ⊆ D ∪ w.gone) (hQ : Q) :
    Ends db D w (.ok w) S Q := .inr ⟨hQ, w, rfl, hw, .skip hS⟩

theorem Ends.weaken {r : Except Halt Walk} {S S' : Set TKey} {Q Q' : Prop} (h : Ends db D w r S Q)
    (hS : S ⊆ S') (hS' : S' ⊆ S ∪ (D ∪ w.gone)) (hQ : Q → Q') : Ends db D w r S' Q' :=
  h.imp id fun ⟨hq, w', hr, hw', hcovers⟩ => ⟨hQ hq, w', hr, hw', hcovers.widen hS hS'⟩

/-- One part after the other. -/
theorem ends_foldlM {β : Type} {f : Walk → β → Except Halt Walk} {S : β → Set TKey} {Q : β → Prop} :
    ∀ {l : List β} {w : Walk}, w.Sound db D →
      (∀ b ∈ l, ∀ w' : Walk, w'.Sound db D → w.gone ⊆ w'.gone → Ends db D w' (f w' b) (S b) (Q b)) →
      Ends db D w (l.foldlM f w) {y | ∃ b ∈ l, y ∈ S b} (∀ b ∈ l, Q b)
  | [], w, hw, _ => ends_ok hw (fun _ ⟨_, hb, _⟩ => nomatch hb) fun _ hb => nomatch hb
  | b :: l, w, hw, h => by
    rw [List.foldlM_cons]
    rcases h b (by simp) w hw le_rfl with ⟨hbad, e, he⟩ | ⟨hq, w₁, hw₁, hsound, hcovers⟩
    · exact .inl ⟨hbad, e, by rw [he]; rfl⟩
    · have hrest := ends_foldlM (l := l) hsound fun b' hb' w' hw' hle =>
        h b' (by simp [hb']) w' hw' (hcovers.mono.trans hle)
      rw [hw₁]
      rcases hrest with hbad | ⟨hqs, w₂, hw₂, hsound₂, hcovers₂⟩
      · exact .inl hbad
      · refine .inr ⟨fun b' hb' => ?_, w₂, hw₂, hsound₂, ?_⟩
        · rcases List.mem_cons.mp hb' with rfl | hb'
          · exact hq
          · exact hqs b' hb'
        · refine (hcovers.trans hcovers₂).widen ?_ ?_
          · rintro y (hy | ⟨b', hb', hy⟩)
            · exact ⟨b, by simp, hy⟩
            · exact ⟨b', by simp [hb'], hy⟩
          · rintro y ⟨b', hb', hy⟩
            rcases List.mem_cons.mp hb' with rfl | hb'
            · exact .inl (.inl hy)
            · exact .inl (.inr ⟨b', hb', hy⟩)

@[simp]
theorem gone_put (w : Walk) (k : TKey) (row : Option Session.Row) : (w.put k row).gone = insert k w.gone := by
  ext k'
  simp only [Walk.gone, Walk.put, Set.mem_ofPred_eq, Set.mem_insert_iff, ExtTreeMap.mem_insert,
    Std.compare_eq_iff_eq]
  exact or_congr_left eq_comm

theorem Walk.Sound.put (hw : w.Sound db D) {k : TKey} {row : Option Session.Row} (hk : k ∉ D)
    (hright : Right db D k ⟨row, false⟩) : (w.put k row).Sound db D where
  visited k' := by
    simp only [Walk.put, ExtTreeMap.mem_insert, ExtTreeSet.mem_insert, hw.visited]
  apart k' hk' := by
    rcases (Set.ext_iff.mp (gone_put w k row) k').mp hk' with rfl | hk'
    · exact hk
    · exact hw.apart k' hk'
  right k' x hx := by
    simp only [Walk.put, ExtTreeMap.getElem?_insert] at hx
    split at hx
    · next heq =>
      cases Std.compare_eq_iff_eq.mp heq
      cases hx
      exact hright
    · exact hw.right k' x hx

/-! ## What is found during a run -/

structure Deleted (D : Set TKey) (staged : Staged) : Prop where
  mem : ∀ k, k ∈ D ↔ k ∈ staged
  none : ∀ (k : TKey) (x : StagedWrite), staged[k]? = some x → x.row = none

variable {staged : Staged} (hD : Deleted D staged)

include hD

variable {r : Bytes × Session.Row}

theorem unstaged_iff {name : String} :
    unstaged (staged.extend w.pending) name r = true ↔ (name, r.1) ∉ D ∧ (name, r.1) ∉ w.gone := by
  rw [hD.mem, unstaged, Bool.not_eq_true', Bool.eq_false_iff, ne_eq, ← ExtTreeMap.mem_iff_contains,
    ← ExtTreeMap.isSome_getElem?_iff_mem, Session.getElem?_extend, Option.isSome_or, Bool.or_eq_true,
    not_or, and_comm, ExtTreeMap.isSome_getElem?_iff_mem, ExtTreeMap.isSome_getElem?_iff_mem]
  rfl

theorem mem_overlayPuts {name : String} :
    r ∈ overlayPuts name (staged.extend w.pending) ↔
      ∃ x, w.pending[(name, r.1)]? = some x ∧ x.row = some r.2 := by
  simp only [overlayPuts, List.mem_filterMap, List.mem_filter, decide_eq_true_eq,
    Option.map_eq_some_iff, Prod.exists, ExtTreeMap.mem_toList_iff_getElem?_eq_some,
    Session.getElem?_extend]
  constructor
  · rintro ⟨name, k, x, ⟨hx, rfl⟩, row, hrow, rfl⟩
    rcases Option.or_eq_some_iff.mp hx with hx | ⟨-, hx⟩
    · exact ⟨x, hx, hrow⟩
    · rw [hD.none _ x hx] at hrow
      cases hrow
  · rintro ⟨x, hx, hrow⟩
    exact ⟨name, r.1, x, ⟨by rw [hx]; rfl, rfl⟩, r.2, hrow, rfl⟩

theorem mem_refs {o : Orders} {n : Nat} {t : Table} {col : Nat} {v : Datum}
    {rows : List (Bytes × Session.Row)} (hrows : refsOf db t col v = .ok rows) :
    ∃ refs, fkFindChildRefs o n db t col v (staged.extend w.pending) = .ok refs ∧ ∀ r, r ∈ refs ↔
      (∃ x, w.pending[(t.info.name, r.1)]? = some x ∧ x.row = some r.2) ∧
          coerceEq (Table.column r.2 col) v = true ∨
        r ∈ rows ∧ (t.info.name, r.1) ∉ D ∧ (t.info.name, r.1) ∉ w.gone := by
  refine ⟨_, by rw [fkFindChildRefs_eq, hrows]; rfl, fun r => ?_⟩
  rw [List.mem_append, List.mem_filter, List.mem_filter, (o.overlay_perm n _).mem_iff,
    mem_overlayPuts hD, unstaged_iff hD]

end

/-! ## What a constraint does -/

section
variable {db : Db} {D : Set TKey} {staged : Staged} {w : Walk} {x : TKey} {c : Child} {col : Nat}
variable {r : Bytes × Session.Row} {v : Datum}

theorem Finds.visible (hdb : Keyed db) (h : Finds db x c col r) :
    db.visible[(c.1, r.1)]? = some r.2 := by
  obtain ⟨v, rows, -, hrows, hr⟩ := h.found
  exact visible_of_refsOf hdb h.on.1 hrows hr

theorem Finds.pkOf (hdb : Keyed db) (h : Finds db x c col r) :
    db.pkOf (c.1, r.1) = some (Table.column r.2 c.2.1.schema.pkIdx) := by
  rw [Db.pkOf, h.on.1, h.visible hdb]
  rfl

theorem Finds.doomed (h : Finds db x c col r) (hx : x ∈ db.doomed D) (hc : c.2.2.onDelete = .cascade) :
    (c.1, r.1) ∈ db.doomed D :=
  (Reach.closed_closure _ _).2 x hx _ ⟨c, col, r, h, rfl, hc⟩

theorem Finds.fails (h : Finds db x c col r) (hv : db.pkOf x = some v) (hout : (c.1, r.1) ∉ D)
    (hrejects : c.Rejects col r) : Fails db D v c := by
  intro col' rows hcol hrows
  obtain rfl : col = col' := Option.some.inj (h.column.symm.trans hcol)
  obtain ⟨v', rows', hv', hrows', hr⟩ := h.found
  obtain rfl : v' = v := Option.some.inj (hv'.symm.trans hv)
  obtain rfl : rows' = rows := Except.ok.inj (hrows'.symm.trans hrows)
  exact ⟨r, hr, hout, hrejects⟩

theorem not_safe (hx : x ∈ db.doomed D) (hv : db.pkOf x = some v) (hon : c.On db x.1)
    (hfails : Fails db D v c) : ¬ Safe db D := fun hsafe => hsafe x hx v hv c hon hfails

/-- A row that is staged is rejected only by a constraint that sees it. -/
theorem Finds.rejects_gone (h : Finds db x c col r) (hp : Peaceful db D) (hw : w.Sound db D)
    (hx : x ∈ db.doomed D) (hv : db.pkOf x = some v) (hout : (c.1, r.1) ∉ D)
    (hgone : (c.1, r.1) ∈ w.gone) (hrejects : c.Rejects col r) :
    c.Strict col ∧ ∃ y row, w.pending[(c.1, r.1)]? = some y ∧ y.row = some row ∧
      coerceEq (Table.column row col) v = true := by
  obtain ⟨y, hy⟩ := ExtTreeMap.isSome_getElem?_iff_mem.mpr hgone |> Option.isSome_iff_exists.mp
  rcases hw.right _ y hy with ⟨hdoomed, -⟩ | ⟨row, hnulled, rfl⟩
  · have hcascade := hp.deleted x hx c col r h hdoomed hout
    rcases hrejects with (hc | ⟨hc, -⟩) | ⟨hc, -⟩ <;> simp [hcascade] at hc
  · have hseen : c.Strict col → coerceEq (Table.column row col) v = true := fun hstrict =>
      (hp.strict _ hout row hnulled x hx c h.on rfl col v h.column hv hstrict).mp ⟨r, h, rfl⟩
    rcases hrejects with hstrict | ⟨hc, e, he⟩
    · exact ⟨hstrict, _, row, hy, rfl, hseen hstrict⟩
    · cases hnull : nullable c.2.1 col with
      | false => exact ⟨.inr ⟨hc, hnull⟩, _, row, hy, rfl, hseen (.inr ⟨hc, hnull⟩)⟩
      | true =>
        have herror : Nulled db D (c.1, r.1) (.error e) :=
          ⟨x, hx, c, col, r, h, rfl, hc, hnull, he.symm⟩
        cases hp.nulled _ hout _ _ hnulled herror

/-- A row that loses its reference is not deleted with others. -/
theorem Finds.not_doomed (h : Finds db x c col r) (hp : Peaceful db D) (hx : x ∈ db.doomed D)
    (hout : (c.1, r.1) ∉ D) (hc : c.2.2.onDelete = .setNull) : (c.1, r.1) ∉ db.doomed D := by
  intro hdoomed
  have hcascade := hp.deleted x hx c col r h hdoomed hout
  simp [hc] at hcascade

theorem ends_cascadeRow {delete : String → Datum → Walk → Except Halt Walk} (hdb : Keyed db)
    (hw : w.Sound db D) (hx : x ∈ db.doomed D) (hc : c.2.2.onDelete = .cascade)
    (hr : (c.1, r.1) ∈ w.gone ∨ Finds db x c col r ∧ (c.1, r.1) ∉ D)
    (hdelete : (c.1, r.1) ∉ w.gone → ∀ v, db.pkOf (c.1, r.1) = some v →
      (w.put (c.1, r.1) none).Sound db D → Ends db D (w.put (c.1, r.1) none)
        (delete c.1 v (w.put (c.1, r.1) none)) {y | Touches db D (c.1, r.1) y}
        (Passes db D (c.1, r.1))) :
    Ends db D w (cascadeRow delete c.1 c.2.1 w r) {y | Finds db x c col r ∧ y = (c.1, r.1)} True := by
  rw [cascadeRow]
  split
  · next hvisited =>
    refine ends_ok hw ?_ trivial
    rintro _ ⟨-, rfl⟩
    exact .inr ((hw.visited _).mp hvisited)
  · next hvisited =>
    have hnew : (c.1, r.1) ∉ w.gone := fun hgone => hvisited ((hw.visited _).mpr hgone)
    obtain ⟨hfinds, hout⟩ := hr.resolve_left hnew
    have hdoomed := hfinds.doomed hx hc
    have hput := hw.put hout (.inl ⟨hdoomed, rfl⟩)
    rcases hdelete hnew _ (hfinds.pkOf hdb) hput with hbad | ⟨hpasses, w', hw', hsound, hcovers⟩
    · exact .inl hbad
    · refine .inr ⟨trivial, w', hw', hsound, ?_⟩
      rw [gone_put] at hcovers
      refine (hcovers.visit fun _ => hpasses).widen ?_ ?_
      · rintro _ rfl
        exact ⟨hfinds, rfl⟩
      · rintro _ ⟨-, rfl⟩
        exact .inl rfl

theorem ends_nullRow (hp : Peaceful db D) (hw : w.Sound db D) (hx : x ∈ db.doomed D)
    (hv : db.pkOf x = some v) (hc : c.2.2.onDelete = .setNull) (hnull : nullable c.2.1 col = true)
    (hr : (c.1, r.1) ∈ w.gone ∨ Finds db x c col r ∧ (c.1, r.1) ∉ D) :
    Ends db D w (nullRow c.1 c.2.1 col w r) {y | Finds db x c col r ∧ y = (c.1, r.1)}
      (Finds db x c col r → (c.1, r.1) ∉ D → ¬ c.Rejects col r) := by
  have hstrict : ¬ c.Strict col := by
    rintro (hc' | ⟨-, hnull'⟩)
    · simp [hc] at hc'
    · simp [hnull] at hnull'
  rw [nullRow]
  split
  · next hvisited =>
    have hgone := (hw.visited _).mp hvisited
    refine ends_ok hw ?_ fun hfinds hout hrejects => ?_
    · rintro _ ⟨-, rfl⟩
      exact .inr hgone
    · exact hstrict (hfinds.rejects_gone hp hw hx hv hout hgone hrejects).1
  · next hvisited =>
    have hnew : (c.1, r.1) ∉ w.gone := fun hgone => hvisited ((hw.visited _).mpr hgone)
    obtain ⟨hfinds, hout⟩ := hr.resolve_left hnew
    have hnot := hfinds.not_doomed hp hx hout hc
    cases hvalid : c.2.1.schema.validateRow (r.2.set col .null) with
    | error e =>
      exact .inl ⟨not_safe hx hv hfinds.on (hfinds.fails hv hout (.inr ⟨hc, e, hvalid⟩)), _, rfl⟩
    | ok row =>
      have hput := hw.put hout
        (.inr ⟨row, ⟨x, hx, c, col, r, hfinds, rfl, hc, hnull, hvalid.symm⟩, rfl⟩)
      refine .inr ⟨?_, _, rfl, hput, ?_⟩
      · rintro - - (hs | ⟨-, e, he⟩)
        · exact hstrict hs
        · rw [hvalid] at he
          cases he
      · have hnone : {y | Touches db D (c.1, r.1) y} ⊆ D ∪ insert (c.1, r.1) w.gone :=
          fun _ hy => absurd hy.1 hnot
        rw [gone_put]
        refine ((Covers.skip hnone).visit fun hdoomed => absurd hdoomed hnot).widen ?_ ?_
        · rintro _ rfl
          exact ⟨hfinds, rfl⟩
        · rintro _ ⟨-, rfl⟩
          exact .inl rfl

/-- The rows that a run lists for a constraint: those that it has staged and that have
the value, and those that it finds anew. -/
def Lists (db : Db) (D : Set TKey) (w : Walk) (x : TKey) (c : Child) (col : Nat) (v : Datum)
    (refs : List (Bytes × Session.Row)) : Prop :=
  ∀ r, r ∈ refs ↔ (∃ y, w.pending[(c.1, r.1)]? = some y ∧ y.row = some r.2) ∧
      coerceEq (Table.column r.2 col) v = true ∨
    Finds db x c col r ∧ (c.1, r.1) ∉ D ∧ (c.1, r.1) ∉ w.gone

variable {rows : List (Bytes × Session.Row)}

theorem lists_refs (hdb : Keyed db) (hD : Deleted D staged) (hv : db.pkOf x = some v)
    (hon : c.On db x.1) (hcol : c.2.1.schema.indexOf c.2.2.column = some col)
    (hrows : refsOf db c.2.1 col v = .ok rows) (o : Orders) (n : Nat) :
    ∃ refs, fkFindChildRefs o n db c.2.1 col v (staged.extend w.pending) = .ok refs ∧
      Lists db D w x c col v refs := by
  obtain ⟨refs, hrefs, hmem⟩ := mem_refs (w := w) hD (o := o) (n := n) hrows
  have hfinds : ∀ r, r ∈ rows ↔ Finds db x c col r := by
    refine fun r => ⟨fun hr => ⟨hon, hcol, v, rows, hv, hrows, hr⟩, fun h => ?_⟩
    obtain ⟨v', rows', hv', hrows', hr⟩ := h.found
    obtain rfl : v' = v := Option.some.inj (hv'.symm.trans hv)
    obtain rfl : rows' = rows := Except.ok.inj (hrows'.symm.trans hrows)
    exact hr
  refine ⟨refs, hrefs, fun r => ?_⟩
  rw [hmem, hfinds, hdb.named c.1 c.2.1 hon.1]

theorem exists_of_fails (hv : db.pkOf x = some v) (hon : c.On db x.1)
    (hcol : c.2.1.schema.indexOf c.2.2.column = some col) (hrows : refsOf db c.2.1 col v = .ok rows)
    (hfails : Fails db D v c) :
    ∃ r, Finds db x c col r ∧ (c.1, r.1) ∉ D ∧ c.Rejects col r := by
  obtain ⟨r, hr, hout, hrejects⟩ := hfails col rows hcol hrows
  exact ⟨r, ⟨hon, hcol, v, rows, hv, hrows, hr⟩, hout, hrejects⟩

namespace Lists

variable {refs : List (Bytes × Session.Row)} (h : Lists db D w x c col v refs)

include h

theorem left (hr : Finds db x c col r) (hnot : r ∉ refs) : (c.1, r.1) ∈ D ∪ w.gone := by
  by_contra hno
  obtain ⟨hout, hnew⟩ := not_or.mp hno
  exact hnot ((h r).mpr (.inr ⟨hr, hout, hnew⟩))

/-- The loop over the rows meets each of them either staged or found anew. -/
theorem meets {w' : Walk} (hle : w.gone ⊆ w'.gone) (hr : r ∈ refs) :
    (c.1, r.1) ∈ w'.gone ∨ Finds db x c col r ∧ (c.1, r.1) ∉ D := by
  rcases (h r).mp hr with ⟨⟨y, hy, -⟩, -⟩ | ⟨hfinds, hout, -⟩
  · exact .inl (hle (ExtTreeMap.isSome_getElem?_iff_mem.mp (Option.isSome_of_eq_some hy)))
  · exact .inr ⟨hfinds, hout⟩

/-- What the loop over the rows covers is what the constraint finds. -/
theorem ends (hcol : c.2.1.schema.indexOf c.2.2.column = some col) {res : Except Halt Walk}
    {Q Q' : Prop}
    (hends : Ends db D w res {y | ∃ b ∈ refs, y ∈ {y | Finds db x c col b ∧ y = (c.1, b.1)}} Q)
    (hQ : Q → Q') : Ends db D w res {y | ∃ col r, Finds db x c col r ∧ y = (c.1, r.1)} Q' := by
  refine hends.weaken (fun y ⟨b, _, hb⟩ => ⟨col, b, hb⟩) ?_ hQ
  rintro _ ⟨col', b, hb, rfl⟩
  obtain rfl : col' = col := Option.some.inj (hb.column.symm.trans hcol)
  by_cases hin : b ∈ refs
  · exact .inl ⟨b, hin, hb, rfl⟩
  · exact .inr (h.left hb hin)

/-- A constraint that forbids the delete of what is referenced fails on what it sees. -/
theorem not_safe (hp : Peaceful db D) (hw : w.Sound db D) (hx : x ∈ db.doomed D)
    (hv : db.pkOf x = some v) (hon : c.On db x.1) (hcol : c.2.1.schema.indexOf c.2.2.column = some col)
    (hstrict : c.Strict col) (hr : r ∈ refs) : ¬ Safe db D := by
  rcases (h r).mp hr with ⟨⟨y, hy, hrow⟩, heq⟩ | ⟨hfinds, hout, -⟩
  · have hout : (c.1, r.1) ∉ D :=
      hw.apart _ (ExtTreeMap.isSome_getElem?_iff_mem.mp (Option.isSome_of_eq_some hy))
    rcases hw.right _ y hy with ⟨-, rfl⟩ | ⟨row, hnulled, rfl⟩
    · cases hrow
    · cases hrow
      obtain ⟨r', hfinds, hr'⟩ :=
        (hp.strict _ hout _ hnulled x hx c hon rfl col v hcol hv hstrict).mpr heq
      have hout' : (c.1, r'.1) ∉ D := hr' ▸ hout
      exact Fk.not_safe hx hv hon (hfinds.fails hv hout' (.inl hstrict))
  · exact Fk.not_safe hx hv hon (hfinds.fails hv hout (.inl hstrict))

end Lists

/-- One constraint for the primary key of a row that is deleted. -/
theorem ends_childAction (o : Orders) (delete : String → Datum → Walk → Except Halt Walk)
    (hdb : Keyed db) (hD : Deleted D staged) (hp : Peaceful db D) (hw : w.Sound db D)
    (hx : x ∈ db.doomed D) (hv : db.pkOf x = some v) (hon : c.On db x.1)
    (hdelete : ∀ y ∈ db.visible, ∀ w' : Walk, y ∉ w'.gone → w.gone ⊆ w'.gone → y ∈ db.doomed D →
      ∀ v, db.pkOf y = some v → (w'.put y none).Sound db D → Ends db D (w'.put y none)
        (delete y.1 v (w'.put y none)) {z | Touches db D y z} (Passes db D y)) :
    Ends db D w (childAction delete o db staged x.1 v w c)
      {y | ∃ col r, Finds db x c col r ∧ y = (c.1, r.1)} (¬ Fails db D v c) := by
  rw [childAction]
  cases hcol : c.2.1.schema.indexOf c.2.2.column with
  | none =>
    have hfails : Fails db D v c := fun col rows hcol' => by simp [hcol] at hcol'
    exact .inl ⟨not_safe hx hv hon hfails, _, rfl⟩
  | some col =>
    cases hrows : refsOf db c.2.1 col v with
    | error e =>
      have hfails : Fails db D v c := by
        intro col' rows hcol' hrows'
        obtain rfl : col = col' := Option.some.inj (hcol.symm.trans hcol')
        rw [hrows] at hrows'
        cases hrows'
      have herror := fkFindChildRefs_eq db c.2.1 col v (staged.extend w.pending) o w.listed
      refine .inl ⟨not_safe hx hv hon hfails, e, ?_⟩
      simp only [herror, hrows]
      rfl
    | ok rows =>
      obtain ⟨refs, hrefs, h⟩ := lists_refs (w := w) hdb hD hv hon hcol hrows o w.listed
      have hw₁ : Walk.Sound db D { w with listed := w.listed + 1 } := ⟨hw.1, hw.2, hw.3⟩
      simp only [hrefs, Except.mapError, bind, Except.bind]
      split
      · next hempty =>
        have hnone : ∀ r, r ∉ refs := by simp [List.isEmpty_iff.mp hempty]
        refine ends_ok hw₁ ?_ fun hfails => ?_
        · rintro _ ⟨col', r, hr, rfl⟩
          obtain rfl : col' = col := Option.some.inj (hr.column.symm.trans hcol)
          exact h.left hr (hnone r)
        · obtain ⟨r, hr, hout, hrejects⟩ := exists_of_fails hv hon hcol hrows hfails
          have hgone := (h.left hr (hnone r)).resolve_left hout
          obtain ⟨-, y, row, hy, hrow, heq⟩ := hr.rejects_gone hp hw hx hv hout hgone hrejects
          exact hnone (r.1, row) ((h _).mpr (.inl ⟨⟨y, hy, hrow⟩, heq⟩))
      · next hsome =>
        obtain ⟨r, hr⟩ := List.exists_mem_of_ne_nil refs
          fun hnil => hsome (List.isEmpty_iff.mpr hnil)
        cases hc : c.2.2.onDelete with
        | restrict => exact .inl ⟨h.not_safe hp hw hx hv hon hcol (.inl hc) hr, _, rfl⟩
        | cascade =>
          have hends := ends_foldlM (l := refs) hw₁ fun b hb w' hw' hle =>
            ends_cascadeRow (r := b) hdb hw' hx hc (h.meets hle hb) fun hnew v' hv' hput => by
              have hfinds := ((h.meets hle hb).resolve_left hnew).1
              have hseen := ExtTreeMap.isSome_getElem?_iff_mem.mp
                (Option.isSome_of_eq_some (hfinds.visible hdb))
              exact hdelete _ hseen w' hnew hle (hfinds.doomed hx hc) v' hv' hput
          refine h.ends hcol hends fun _ hfails => ?_
          obtain ⟨b, -, -, hrejects⟩ := exists_of_fails hv hon hcol hrows hfails
          rcases hrejects with (hc' | ⟨hc', -⟩) | ⟨hc', -⟩ <;> simp [hc] at hc'
        | setNull =>
          dsimp only
          split
          · next hnull =>
            have hends := ends_foldlM (l := refs) hw₁ fun b hb w' hw' hle =>
              ends_nullRow (r := b) hp hw' hx hv hc hnull (h.meets hle hb)
            refine h.ends hcol hends fun hpassed hfails => ?_
            obtain ⟨b, hb, hout, hrejects⟩ := exists_of_fails hv hon hcol hrows hfails
            by_cases hb' : b ∈ refs
            · exact hpassed b hb' hb hout hrejects
            · have hgone := (h.left hb hb').resolve_left hout
              rcases (hb.rejects_gone hp hw hx hv hout hgone hrejects).1 with
                hc' | ⟨-, hnull'⟩
              · simp [hc] at hc'
              · simp [hnull] at hnull'
          · next hnull =>
            have hnull' : nullable c.2.1 col = false := Bool.eq_false_iff.mpr hnull
            exact .inl ⟨h.not_safe hp hw hx hv hon hcol (.inr ⟨hc, hnull'⟩) hr, _, rfl⟩

/-- The rows that the session sees and that are not staged yet. -/
noncomputable def unseen (db : Db) (w : Walk) : Nat := ({k | k ∈ db.visible} \ w.gone).ncard

theorem finite_visible (db : Db) : {k | k ∈ db.visible}.Finite := by
  have hkeys : {k | k ∈ db.visible} = {k | k ∈ db.visible.keys} :=
    Set.ext fun k => ExtTreeMap.mem_keys.symm
  rw [hkeys]
  exact db.visible.keys.finite_toSet

/-- The actions for a row that is deleted, with more fuel than rows that are left. -/
theorem ends_onParentDelete (o : Orders) (hdb : Keyed db) (hD : Deleted D staged)
    (hp : Peaceful db D) : ∀ {fuel : Nat} {x : TKey} {v : Datum} {w : Walk}, x ∈ db.doomed D →
      db.pkOf x = some v → w.Sound db D → unseen db w < fuel →
      Ends db D w (fkOnParentDelete o db staged fuel x.1 v w) {y | Touches db D x y} (Passes db D x)
  | 0, _, _, _, _, _, _, hfuel => absurd hfuel (Nat.not_lt_zero _)
  | fuel + 1, x, v, w, hx, hv, hw, hfuel => by
    rw [fkOnParentDelete]
    have hends := ends_foldlM (l := fkChildrenOf o db x.1) hw fun c hc w₁ hw₁ hle =>
      ends_childAction (c := c) o (fkOnParentDelete o db staged fuel) hdb hD hp hw₁ hx hv
        (mem_fkChildrenOf.mp hc)
        fun y hy w₂ hnew hle₂ hdoomed v' hv' hput => by
          have hvisit := Reach.ncard_visit_lt (finite_visible db) hy hnew
          have hmono := Reach.ncard_mono (finite_visible db) (hle.trans hle₂)
          refine ends_onParentDelete o hdb hD hp hdoomed hv' hput ?_
          rw [unseen, gone_put]
          exact lt_of_lt_of_le hvisit (hmono.trans (Nat.le_of_lt_succ hfuel))
    refine hends.weaken ?_ ?_ ?_
    · rintro y ⟨c, -, col, r, hfinds, rfl⟩
      exact ⟨hx, c, col, r, hfinds, rfl⟩
    · rintro y ⟨-, c, col, r, hfinds, rfl⟩
      exact .inl ⟨c, mem_fkChildrenOf.mpr hfinds.on, col, r, hfinds, rfl⟩
    · intro hpassed v' hv' c hon
      obtain rfl : v = v' := Option.some.inj (hv.symm.trans hv')
      exact hpassed c (mem_fkChildrenOf.mpr hon)

end

/-! ## The statement -/

/-- The keys of the rows that the statement deletes. -/
def selected (table : Table) (rows : List Session.Row) : Set TKey :=
  {k | k.1 = table.info.name ∧ ∃ row ∈ rows, encodeKey (Table.column row table.schema.pkIdx) = .ok k.2}

structure Selects (db : Db) (table : Table) (rows : List Session.Row) : Prop where
  known : db.tables[table.info.name]? = some table
  rows : ∀ row ∈ rows, ∃ k : Bytes, db.visible[(table.info.name, k)]? = some row

section
variable {db : Db} {table : Table}

variable {rows : List Session.Row} {D : Set TKey}

theorem Selects.key (h : Selects db table rows) (hdb : Keyed db) {row : Session.Row}
    (hrow : row ∈ rows) : ∃ k : Bytes, encodeKey (Table.column row table.schema.pkIdx) = .ok k ∧
      db.visible[(table.info.name, k)]? = some row := by
  obtain ⟨k, hk⟩ := h.rows row hrow
  exact ⟨k, hdb.keyed _ _ h.known k row hk, hk⟩

theorem stageRow_spec (hdb : Keyed db) : ∀ {rows : List Session.Row} {s : Staged},
    Selects db table rows → ∃ s', rows.foldlM (stageRow table) s = .ok s' ∧
      (∀ k, k ∈ s' ↔ k ∈ s ∨ k ∈ selected table rows) ∧
      ∀ (k : TKey) (x : StagedWrite), s'[k]? = some x →
        s[k]? = some x ∨ x = ⟨none, false⟩
  | [], s, _ => ⟨s, rfl, fun k => by simp [selected], fun _ _ hx => .inl hx⟩
  | row :: rows, s, h => by
    obtain ⟨key, hkey, -⟩ := h.key hdb (List.mem_cons_self ..)
    obtain ⟨s', hs', hmem, hval⟩ := stageRow_spec hdb
      (s := s.insert (table.info.name, key) ⟨none, false⟩)
      ⟨h.known, fun row' hrow' => h.rows row' (List.mem_cons_of_mem _ hrow')⟩
    refine ⟨s', ?_, fun k => ?_, fun k x hx => ?_⟩
    · rw [List.foldlM_cons, stageRow, hkey]
      exact hs'
    · rw [hmem, ExtTreeMap.mem_insert, Std.compare_eq_iff_eq]
      simp only [selected, Set.mem_ofPred_eq, List.mem_cons, exists_eq_or_imp, hkey]
      constructor
      · rintro ((rfl | hk) | ⟨hname, hrow⟩)
        · exact .inr ⟨rfl, .inl rfl⟩
        · exact .inl hk
        · exact .inr ⟨hname, .inr hrow⟩
      · rintro (hk | ⟨hname, hk | hrow⟩)
        · exact .inl (.inr hk)
        · exact .inl (.inl (Prod.ext hname.symm (Except.ok.inj hk)))
        · exact .inr ⟨hname, hrow⟩
    · refine (hval k x hx).elim (fun hin => ?_) .inr
      rw [ExtTreeMap.getElem?_insert] at hin
      split at hin
      · exact .inr (Option.some.inj hin).symm
      · exact .inl hin

theorem oldRow_spec (hdb : Keyed db) : ∀ {rows : List Session.Row} {m : ExtTreeMap Bytes Session.Row},
    Selects db table rows → ∃ m', rows.foldlM (oldRow table) m = .ok m' ∧
      ∀ k : Bytes, (∃ row, m[k]? = some row ∧ db.visible[(table.info.name, k)]? = some row) ∨
          (table.info.name, k) ∈ selected table rows →
        ∃ row, m'[k]? = some row ∧ db.visible[(table.info.name, k)]? = some row
  | [], m, _ => ⟨m, rfl, fun k hk => hk.elim id fun ⟨_, _, hrow, _⟩ => nomatch hrow⟩
  | row :: rows, m, h => by
    obtain ⟨key, hkey, hseen⟩ := h.key hdb (List.mem_cons_self ..)
    obtain ⟨m', hm', hval⟩ := oldRow_spec hdb (m := m.insert key row)
      ⟨h.known, fun row' hrow' => h.rows row' (List.mem_cons_of_mem _ hrow')⟩
    refine ⟨m', ?_, fun k hk => hval k ?_⟩
    · rw [List.foldlM_cons, oldRow, hkey]
      exact hm'
    · by_cases heq : key = k
      · subst heq
        exact .inl ⟨row, by simp, hseen⟩
      · rcases hk with ⟨row', hrow', hseen'⟩ | ⟨-, row', hrow', hkey'⟩
        · refine .inl ⟨row', ?_, hseen'⟩
          rw [ExtTreeMap.getElem?_insert, if_neg (mt Std.compare_eq_iff_eq.mp heq), hrow']
        · rcases List.mem_cons.mp hrow' with rfl | hrow'
          · exact absurd (Except.ok.inj (hkey.symm.trans hkey')) heq
          · exact .inr ⟨rfl, row', hrow', hkey'⟩

/-- What a statement returns that has staged the rows of a set and what they have found:
deletions of the rows of the set, and for the others what is right. -/
def Stages (db : Db) (D : Set TKey) (staged : Staged) : Prop :=
  (∀ k, k ∈ staged ↔ k ∈ closure (Touches db D) D) ∧
    ∀ (k : TKey) (x : StagedWrite), staged[k]? = some x →
      (k ∈ D → x = ⟨none, false⟩) ∧ (k ∉ D → Right db D k x)

theorem subset_closure (D : Set TKey) : D ⊆ db.doomed D := (Reach.closed_closure _ _).1

theorem unseen_le (db : Db) (w : Walk) : unseen db w ≤ db.visible.size := by
  have hle : unseen db w ≤ {k | k ∈ db.visible}.ncard :=
    Set.ncard_le_ncard Set.sdiff_subset (finite_visible db)
  have hkeys : {k | k ∈ db.visible} = db.visible.keys.toFinset := by
    ext k
    rw [List.coe_toFinset]
    exact ExtTreeMap.mem_keys.symm
  rw [hkeys, Set.ncard_coe_finset] at hle
  exact hle.trans ((List.toFinset_card_le _).trans (by rw [ExtTreeMap.length_keys]))

/-- A statement over rows that no constraint references. -/
theorem stages_unreferenced {staged : Staged} (hstaged : ∀ k, k ∈ staged ↔ k ∈ D)
    (hnone : ∀ (k : TKey) (x : StagedWrite), staged[k]? = some x → x = ⟨none, false⟩)
    (hon : ∀ x ∈ D, ∀ c : Child, ¬ c.On db x.1) : Safe db D ∧ Stages db D staged := by
  have hdoomed : db.doomed D = D := by
    refine Set.Subset.antisymm ?_ (subset_closure D)
    exact (Reach.isLeast_closure _ D).2 ⟨le_rfl, fun x hx _ ⟨c, _, _, hfinds, _⟩ =>
      absurd hfinds.on (hon x hx c)⟩
  have hclosure : closure (Touches db D) D = D := by
    refine Set.Subset.antisymm ?_ (Reach.closed_closure _ _).1
    exact (Reach.isLeast_closure _ D).2 ⟨le_rfl, fun x hx _ ⟨_, c, _, _, hfinds, _⟩ =>
      absurd hfinds.on (hon x hx c)⟩
  refine ⟨fun x hx v _ c hc => absurd hc (hon x (hdoomed ▸ hx) c), ?_, fun k x hk => ?_⟩
  · intro k
    rw [hclosure, hstaged]
  · have hin : k ∈ D := (hstaged k).mp
      (ExtTreeMap.isSome_getElem?_iff_mem.mp (Option.isSome_of_eq_some hk))
    exact ⟨fun _ => hnone k x hk, fun hout => absurd hin hout⟩

theorem doomed_subset (D : Set TKey) : db.doomed D ⊆ closure (Touches db D) D := by
  have hclosed : Reach.Closed (Cascades db) D (closure (Touches db D) D ∩ db.doomed D) := by
    refine ⟨fun x hx => ⟨(Reach.closed_closure _ _).1 hx, subset_closure D hx⟩, ?_⟩
    rintro x ⟨hx, hdoomed⟩ y ⟨c, col, r, hfinds, rfl, hc⟩
    have htouches : Touches db D x (c.1, r.1) := ⟨hdoomed, c, col, r, hfinds, rfl⟩
    exact ⟨(Reach.closed_closure _ _).2 x hx _ htouches, hfinds.doomed hdoomed hc⟩
  exact fun x hx => ((Reach.isLeast_closure _ D).2 hclosed hx).1

/-- A walk from the rows that are deleted first to all that they find. -/
theorem stages_of_covers {s : Staged} {w : Walk} (hs : ∀ k, k ∈ s ↔ k ∈ D)
    (hnone : ∀ (k : TKey) (x : StagedWrite), s[k]? = some x → x = ⟨none, false⟩) (hw : w.Sound db D)
    (hpassed : ∀ x ∈ D, Passes db D x)
    (hcovers : Covers (Touches db D) (fun x => x ∈ db.doomed D → Passes db D x) D ∅ w.gone
      {y | ∃ x ∈ D, Touches db D x y}) :
    Safe db D ∧ Stages db D (s.extend w.pending) := by
  refine ⟨fun x hx => ?_, fun k => ?_, fun k x hx => ⟨fun hin => ?_, fun hout => ?_⟩⟩
  · exact hcovers.forall_closure (fun x hx _ => hpassed x hx) x (doomed_subset D hx) hx
  · rw [← hcovers.eq_closure, Set.mem_union, ← hs, ← ExtTreeMap.isSome_getElem?_iff_mem,
      Session.getElem?_extend, Option.isSome_or, Bool.or_eq_true, or_comm,
      ExtTreeMap.isSome_getElem?_iff_mem, ExtTreeMap.isSome_getElem?_iff_mem]
    rfl
  · have hfree : w.pending[k]? = none :=
      ExtTreeMap.getElem?_eq_none fun hk => hw.apart k hk hin
    rw [Session.getElem?_extend, hfree, Option.none_or] at hx
    exact hnone k x hx
  · have hfree : s[k]? = none := ExtTreeMap.getElem?_eq_none fun hk => hout ((hs k).mp hk)
    rw [Session.getElem?_extend, hfree, Option.or_none] at hx
    exact hw.right k x hx

/-- A row that is deleted first, in the loop of `fkCheckDeleted`. -/
theorem ends_checkStaged (o : Orders) {staged : Staged} {w : Walk}
    {m : ExtTreeMap Bytes Session.Row} {fuel : Nat} {e : TKey × StagedWrite} (hdb : Keyed db)
    (hD : Deleted D staged) (hp : Peaceful db D) (hknown : db.tables[table.info.name]? = some table)
    (hm : ∀ k : Bytes, (table.info.name, k) ∈ selected table rows → ∃ row, m[k]? = some row ∧
      db.visible[(table.info.name, k)]? = some row)
    (he : e.1 ∈ D) (hselected : e.1 ∈ selected table rows) (hrow : e.2.row = none)
    (hw : w.Sound db D) (hfuel : db.visible.size < fuel) :
    Ends db D w (checkStaged o db fuel table m staged w e) {y | Touches db D e.1 y}
      (Passes db D e.1) := by
  obtain ⟨⟨name, k⟩, x⟩ := e
  obtain rfl : name = table.info.name := hselected.1
  obtain ⟨old, hold, hseen⟩ := hm k hselected
  have hpk : db.pkOf (table.info.name, k) = some (Table.column old table.schema.pkIdx) := by
    rw [Db.pkOf, hknown, hseen]
    rfl
  have hnone : x.row = none := hrow
  simp only [checkStaged, hnone, hold]
  exact ends_onParentDelete o hdb hD hp (subset_closure D he) hpk hw
    (lt_of_le_of_lt (unseen_le db w) hfuel)

/-- A `DELETE` fails if some row does that is to be deleted, and otherwise stages what
is found from the rows that it deletes. -/
theorem execDelete_ends (o : Orders) {fuel : Nat} (hdb : Keyed db) (hrows : Selects db table rows)
    (hp : Peaceful db (selected table rows)) (hfuel : db.visible.size < fuel) :
    (¬ Safe db (selected table rows) ∧ ∃ f, execDelete o db fuel table rows = .error (.fault f)) ∨
      Safe db (selected table rows) ∧ ∃ s staged, rows.foldlM (stageRow table) ∅ = .ok s ∧
        execDelete o db fuel table rows = .ok (s.size, staged) ∧
        Stages db (selected table rows) staged := by
  obtain ⟨s, hs, hmem, hval⟩ := stageRow_spec hdb (s := ∅) hrows
  have hmem' : ∀ k, k ∈ s ↔ k ∈ selected table rows := fun k => by simp [hmem]
  have hnone : ∀ (k : TKey) (x : StagedWrite), s[k]? = some x → x = ⟨none, false⟩ := fun k x hx =>
    (hval k x hx).resolve_left (by simp)
  have hD : Deleted (selected table rows) s :=
    ⟨fun k => (hmem' k).symm, fun k x hx => by rw [hnone k x hx]⟩
  have hrun : execDelete o db fuel table rows = fkCheckDeleted o db fuel table rows s := by
    rw [execDelete, hs]
    rfl
  rw [hrun, fkCheckDeleted]
  split
  · obtain ⟨m, hm, hold⟩ := oldRow_spec hdb (m := ∅) hrows
    have hends := ends_foldlM (w := Walk.empty) (l := o.staged s.toList)
      (f := checkStaged o db fuel table m s) (S := fun e => {y | Touches db (selected table rows) e.1 y})
      (Q := fun e => Passes db (selected table rows) e.1)
      ⟨fun k => by simp [Walk.empty], fun k hk => by simp [Walk.empty] at hk,
        fun k x hx => by simp [Walk.empty] at hx⟩
      fun e he w hw _ => by
        have he' : s[e.1]? = some e.2 :=
          ExtTreeMap.mem_toList_iff_getElem?_eq_some.mp ((o.staged_perm _).mem_iff.mp he)
        have hin : e.1 ∈ selected table rows :=
          (hmem' _).mp (ExtTreeMap.isSome_getElem?_iff_mem.mp (Option.isSome_of_eq_some he'))
        exact ends_checkStaged o hdb hD hp hrows.known (fun k hk => hold k (.inr hk)) hin hin
          (hD.none _ _ he') hw hfuel
    simp only [hm, bind, Except.bind]
    rcases hends with ⟨hbad, f, hf⟩ | ⟨hpassed, w, hfold, hw, hcovers⟩
    · exact .inl ⟨hbad, f, by rw [hf]⟩
    · have hlisted : ∀ x ∈ selected table rows, ∃ e ∈ o.staged s.toList, e.1 = x := by
        intro x hx
        obtain ⟨y, hy⟩ := Option.isSome_iff_exists.mp
          (ExtTreeMap.isSome_getElem?_iff_mem.mpr ((hmem' x).mpr hx))
        exact ⟨(x, y), (o.staged_perm _).mem_iff.mpr
          (ExtTreeMap.mem_toList_iff_getElem?_eq_some.mpr hy), rfl⟩
      have hempty : Walk.empty.gone = ∅ := Set.eq_empty_of_forall_notMem fun k hk => by
        simp [Walk.gone, Walk.empty] at hk
      rw [hempty] at hcovers
      have hstages := stages_of_covers hmem' hnone hw (fun x hx => ?_) (hcovers.widen ?_ ?_)
      · exact .inr ⟨hstages.1, s, _, hs, by rw [hfold]; rfl, hstages.2⟩
      · obtain ⟨e, he, rfl⟩ := hlisted x hx
        exact hpassed e he
      · rintro y ⟨e, he, hy⟩
        have he' := ExtTreeMap.mem_toList_iff_getElem?_eq_some.mp ((o.staged_perm _).mem_iff.mp he)
        exact ⟨e.1, (hmem' _).mp (ExtTreeMap.isSome_getElem?_iff_mem.mp
          (Option.isSome_of_eq_some he')), hy⟩
      · rintro y ⟨x, hx, hy⟩
        obtain ⟨e, he, rfl⟩ := hlisted x hx
        exact .inl ⟨e, he, hy⟩
  · next hunref =>
    have hon : ∀ x ∈ selected table rows, ∀ c : Child, ¬ c.On db x.1 := by
      rintro x hx c ⟨hc, hfk, href⟩
      refine hunref (List.any_eq_true.mpr ⟨(c.1, c.2.1), ?_, List.any_eq_true.mpr ⟨c.2.2, hfk, ?_⟩⟩)
      · exact ExtTreeMap.mem_toList_iff_getElem?_eq_some.mpr hc
      · exact decide_eq_true (href.trans hx.1)
    obtain ⟨hsafe, hstages⟩ := stages_unreferenced hmem' hnone hon
    exact .inr ⟨hsafe, s, s, hs, rfl, hstages⟩

end

end HenchDB.Fk
