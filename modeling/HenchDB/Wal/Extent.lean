import HenchDB.Lib.Consume
import HenchDB.Wal.Record

/-!
# The extent of a table definition

The sections that a reader takes as empty where an image ends before them are all a
definition can be encoded longer by than what it was read from.  A short buffer so never
holds a definition whose encoding is long (`pays_decodeTableDef`).
-/

namespace HenchDB.Wal

open Codec
open Std (ExtTreeMap)

variable {α : Type}

/-! ## Strings and data -/

/-- A string pays for its length too. -/
theorem pays_takeBytes : Pays 2 takeBytes fun bs => 2 * (putBytes bs).length := by
  refine pays_takeLe.bind fun n => pays_takeN.mono fun bs => ?_
  rw [length_putBytes]
  omega

theorem pays_takeStr : Pays 2 takeStr fun s => 2 * (putStr s).length := by
  refine pays_takeBytes.bind fun bs => ?_
  cases hs : fromUtf8 bs with
  | none => exact .throw
  | some s =>
    refine .pure ?_
    rw [putStr, utf8_of_fromUtf8 hs, Nat.sub_self]

theorem pays_takeInt : Pays 2 Datum.takeInt fun _ => 16 :=
  pays_takeLe.bind fun _ => .pure rfl

theorem pays_decode : Pays 2 Datum.decode fun d => 2 * d.encode.length := by
  refine pays_takeByte.bind fun tag => ?_
  split
  · exact .pure rfl
  · exact pays_takeInt.bind fun v => .pure rfl
  · exact pays_takeLe.bind fun v => .pure rfl
  · refine pays_takeLe.bind fun n => pays_takeN.bind fun bs => ?_
    cases hs : fromUtf8 bs with
    | none => exact .throw
    | some s =>
      refine .pure ?_
      rw [Datum.encode, utf8_of_fromUtf8 hs, List.length_cons, List.length_append,
        length_leBytes]
      omega
  · exact pays_takeN_length.bind fun bs => .pure rfl
  · exact pays_takeInt.bind fun v => .pure rfl
  · exact .throw

/-- An absent datum is one byte, a present one a byte more than the datum. -/
theorem pays_takeDatum? {short : Error} :
    Pays 2 (takeDatum? short) fun d => 2 * (putDatum? d).length := by
  refine pays_takeByte.bind fun b => ?_
  split
  · exact .pure rfl
  · refine pays_decode.bind fun d => .pure ?_
    rw [putDatum?, List.length_cons]
    omega

/-- A section that may be absent pays for what it has more than nothing. -/
theorem pays_takeSection {absent : α} {d : Decoder Error α} {cost : α → Nat}
    (h : Pays 2 d cost) : Pays 2 (takeSection absent d) fun a => cost a - cost absent := by
  intro input a rest hrun
  simp only [takeSection, StateT.run] at hrun
  split at hrun
  · cases hrun
    show 2 * input.length + (cost absent - cost absent) ≤ 2 * input.length
    omega
  · have hpays := h input a rest hrun
    show 2 * rest.length + (cost a - cost absent) ≤ 2 * input.length
    omega

theorem pays_atMost {count : Decoder Error Nat} {limit : Nat} {msg : String} {c : Nat}
    (h : Pays 2 count fun _ => c) : Pays 2 (atMost count limit msg) fun _ => c := by
  refine h.bind fun n => ?_
  split
  · exact .throw
  · exact .pure (Nat.sub_self c)

/-! ## Columns, indexes and foreign keys -/

theorem pays_takeFlag : Pays 2 takeFlag fun _ => 2 :=
  pays_takeByte.bind fun _ => .pure rfl

theorem length_encodeColumn (c : ColumnDef) :
    (encodeColumn c).length = (putStr c.name).length + 3 + (putDatum? c.defaultValue).length := by
  simp only [encodeColumn, putBool, List.length_append, List.length_cons, List.length_nil]
  omega

/-- A column may take twice what it was read from, for its default may be absent there. -/
theorem pays_takeColumn : Pays 2 (takeColumn false) fun c => (encodeColumn c).length := by
  have hdefault : Pays 2 (takeSection none (takeDatum? (.corrupted "datum: EOF")))
      fun d => 2 * (putDatum? d).length - 2 := pays_takeSection pays_takeDatum?
  have hctype : ∀ letter, Pays 2 (liftM (columnType letter) : Decoder Error ColumnType)
      fun _ => 0 := by
    intro letter input c rest hrun
    cases hc : columnType letter with
    | error e =>
      rw [hc] at hrun
      cases hrun
    | ok c' =>
      rw [hc] at hrun
      cases hrun
      exact Nat.le_refl _
  refine pays_takeStr.bind fun name => pays_takeByte.bind fun letter => ?_
  refine pays_takeFlag.bind fun nullable => pays_takeFlag.bind fun autoIncrement => ?_
  refine (hctype letter).bind fun ctype => hdefault.bind fun d => .pure ?_
  simp only [length_encodeColumn, length_putStr]
  omega

theorem pays_takeIndex : Pays 2 takeIndex fun x => (encodeIndex x).length := by
  refine pays_takeStr.bind fun name => pays_takeStr.bind fun column => .pure ?_
  simp only [encodeIndex, List.length_append]
  omega

theorem pays_takeAction : Pays 2 takeAction fun _ => 2 := by
  refine pays_takeByte.bind fun b => ?_
  split
  · exact .pure rfl
  · exact .pure rfl
  · exact .pure rfl
  · exact .throw

theorem pays_takeForeignKey : Pays 2 takeForeignKey fun fk => (encodeForeignKey fk).length := by
  refine pays_takeStr.bind fun name => pays_takeStr.bind fun column => ?_
  refine pays_takeStr.bind fun table => pays_takeStr.bind fun ref => ?_
  refine pays_takeAction.bind fun action => .pure ?_
  simp only [encodeForeignKey, List.length_append, List.length_cons, List.length_nil]
  omega

/-- A list pays for its count and its elements. -/
theorem pays_counted {d : Decoder Error α} {cost : α → Nat} {limit : Nat} {msg : String}
    (h : Pays 2 d cost) : Pays 2 (do takeMany d (← takeAtMost limit msg))
      fun l => 8 + (l.map cost).sum :=
  (pays_atMost pays_takeLe).bind fun n => (pays_takeMany h n).mono fun l => by omega

/-! ## Statistics -/

theorem pays_takeStatsStr : Pays 2 takeStatsStr fun s => 2 * (putStr s).length := by
  refine (pays_atMost pays_takeLe).bind fun n => pays_takeN.bind fun bs => ?_
  cases hs : fromUtf8 bs with
  | none => exact .throw
  | some s =>
    refine .pure ?_
    rw [length_putStr, utf8_of_fromUtf8 hs]
    omega

theorem pays_takeColumnStats :
    Pays 2 takeColumnStats fun e => (encodeColumnStats e.1 e.2).length := by
  have hvalue : Pays 2 (do
      let d ← Datum.decode
      let n ← takeStatsU64
      return (d, n)) fun v : Datum × Nat => (encodeMcv v).length := by
    refine pays_decode.bind fun d => pays_takeLe.bind fun n => .pure ?_
    simp only [encodeMcv, putU64, List.length_append, length_leBytes]
    omega
  refine pays_takeStatsStr.bind fun name => pays_takeLe.bind fun nullCount => ?_
  refine pays_takeLe.bind fun distinct => pays_takeLe.bind fun total => ?_
  refine pays_takeDatum?.bind fun min => pays_takeDatum?.bind fun max => ?_
  refine (pays_atMost pays_takeLe).bind fun n => (pays_takeMany hvalue n).bind fun mcv => .pure ?_
  have hu64 : ∀ n, (putU64 n).length = 8 := length_leBytes 8
  have hu32 : ∀ n, (putU32 n).length = 4 := length_leBytes 4
  simp only [encodeColumnStats_eq, List.length_append, hu64, hu32, List.length_flatMap]
  omega

/-- The entries of a map read from a list are no more than those of the list. -/
theorem sum_toList_ofList_le {V : Type} (l : List (String × V)) (cost : String × V → Nat) :
    ((ExtTreeMap.ofList l).toList.map cost).sum ≤ (l.map cost).sum := by
  have hsub : (ExtTreeMap.ofList l).toList ⊆ l := by
    rintro ⟨k, v⟩ he
    exact mem_of_getElem?_ofList (ExtTreeMap.mem_toList_iff_getElem?_eq_some.1 he)
  have hdistinct : (ExtTreeMap.ofList l).toList.Nodup := by
    have hkeys : (ExtTreeMap.ofList l).toList.Pairwise fun a b => ¬ compare a.1 b.1 = .eq :=
      ExtTreeMap.distinct_keys_toList
    refine hkeys.imp ?_
    rintro a b hne rfl
    exact hne Std.ReflCmp.compare_self
  obtain ⟨l', hperm, hl'⟩ := hdistinct.subperm hsub
  rw [← (hperm.map cost).sum_eq]
  exact (hl'.map cost).sum_le_sum fun _ _ => Nat.zero_le _

/-- Columns that are named twice in the image are written once. -/
theorem pays_takeStats : Pays 2 takeStats fun s => (encodeStats s).length := by
  refine pays_takeLe.bind fun rowCount => ?_
  split
  · exact Pays.throw
  · refine pays_takeLe.bind fun analyzedAt => (pays_atMost pays_takeLe).bind fun n => ?_
    refine (pays_takeMany pays_takeColumnStats n).bind fun l => .pure ?_
    have hle := sum_toList_ofList_le l fun e => (encodeColumnStats e.1 e.2).length
    have hu64 : ∀ n, (putU64 n).length = 8 := length_leBytes 8
    have hu32 : ∀ n, (putU32 n).length = 4 := length_leBytes 4
    simp only [encodeStats_eq, List.length_append, hu64, hu32, List.length_flatMap]
    omega

theorem pays_takeStats? :
    Pays 2 takeStats? fun s => (s.elim [0] fun x => 1 :: encodeStats x).length + 1 := by
  refine pays_takeByte.bind fun b => ?_
  split
  · exact .pure rfl
  · refine pays_takeStats.bind fun s => .pure ?_
    simp only [Option.elim_some, List.length_cons]
    omega

/-! ## Table definitions -/

/-- The sections of a definition, one by one. -/
theorem length_encodeTableDef (x : TableDef) :
    (encodeTableDef x).length = (putStr x.name).length + 16 +
      (x.schema.columns.map fun c => (encodeColumn c).length).sum +
      (x.indexes.map fun i => (encodeIndex i).length).sum +
      (x.foreignKeys.map fun fk => (encodeForeignKey fk).length).sum +
      (x.stats.elim [0] fun s => 1 :: encodeStats s).length := by
  have hu32 : ∀ n, (putU32 n).length = 4 := length_leBytes 4
  obtain ⟨name, schema, indexes, foreignKeys, stats⟩ := x
  cases stats with
  | none =>
    simp only [encodeTableDef, List.length_append, hu32, List.length_flatMap, Option.elim_none]
    omega
  | some s =>
    simp only [encodeTableDef, List.length_append, hu32, List.length_flatMap, Option.elim_some]
    omega

/-- What is read from a buffer is encoded by less than twice as many bytes. -/
theorem pays_decodeTableDef : Pays 2 (decodeTableDef false) fun x => (encodeTableDef x).length := by
  have hindexes : Pays 2 (takeSection [] (do
      takeMany takeIndex (← takeAtMost 10000 "too many indexes in table def")))
      fun l => 8 + (l.map fun i => (encodeIndex i).length).sum - 8 :=
    pays_takeSection (pays_counted pays_takeIndex)
  have hforeignKeys : Pays 2 (takeSection [] (do
      takeMany takeForeignKey (← takeAtMost 10000 "too many FKs in table def")))
      fun l => 8 + (l.map fun fk => (encodeForeignKey fk).length).sum - 8 :=
    pays_takeSection (pays_counted pays_takeForeignKey)
  have hstats : Pays 2 (takeSection none takeStats?)
      fun s => (s.elim [0] fun x => 1 :: encodeStats x).length + 1 - 2 :=
    pays_takeSection pays_takeStats?
  refine pays_takeStr.bind fun name => (pays_atMost pays_takeLe).bind fun n => ?_
  refine pays_takeLe.bind fun pkIdx => (pays_takeMany pays_takeColumn n).bind fun columns => ?_
  refine hindexes.bind fun indexes => hforeignKeys.bind fun foreignKeys => ?_
  refine hstats.bind fun stats => .pure ?_
  simp only [length_encodeTableDef, length_putStr]
  omega

end HenchDB.Wal
