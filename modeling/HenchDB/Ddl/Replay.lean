import HenchDB.Ddl.Origin
import HenchDB.Ddl.Redo

/-!
# Appends, installs, and the log at rest

The steps of `Redo` that touch the log: an append moves records to the end of
the log past those that are still missing from it, and phase C installs what
was appended.  With them every quiet step keeps the invariant, and when all
statements have returned redo of the log gives the catalog that is there.
-/

namespace HenchDB.Ddl.Engine

open Std (ExtTreeMap ExtTreeSet)
open Relation (ReflTransGen)

variable {s s' : Engine} {c₀ : Catalog} {r : Nat}

/-! ## Records that change places -/

theorem Apart.swaps {q q' : Record} (h : Apart q q') (n : String) : Record.Swaps n q q' := by
  rcases h.1 n with hq | hq
  · exact Record.Swaps.of_not_concerns hq
  · exact (Record.Swaps.of_not_concerns hq).symm

variable {rec : Record} {ts : Nat} {tables : ExtTreeMap String Nat}

/-- A record goes before records about other databases. -/
theorem foldl_dbEffect_swap {db : String} :
    ∀ {pre : List Record} (b : Bool), (∀ q ∈ pre, q.concernsDb db = false ∨ rec.concernsDb db = false) →
      (pre ++ [rec]).foldl (Record.dbEffect db) b = (rec :: pre).foldl (Record.dbEffect db) b
  | [], _, _ => rfl
  | q :: pre, b, h => by
    have hrest : (pre ++ [rec]).foldl (Record.dbEffect db) (q.dbEffect db b) =
        (rec :: pre).foldl (Record.dbEffect db) (q.dbEffect db b) :=
      foldl_dbEffect_swap (q.dbEffect db b) fun q' hq' => h q' (List.mem_cons_of_mem q hq')
    have hswap : rec.dbEffect db (q.dbEffect db b) = q.dbEffect db (rec.dbEffect db b) := by
      rcases h q (by simp) with hq | hrec
      · rw [Record.dbEffect_of_not_concerns hq, Record.dbEffect_of_not_concerns hq]
      · rw [Record.dbEffect_of_not_concerns hrec, Record.dbEffect_of_not_concerns hrec]
    calc (q :: pre ++ [rec]).foldl (Record.dbEffect db) b
        = pre.foldl (Record.dbEffect db) (rec.dbEffect db (q.dbEffect db b)) := hrest
      _ = pre.foldl (Record.dbEffect db) (q.dbEffect db (rec.dbEffect db b)) := by rw [hswap]

/-- A `Commit` record has no effect. -/
theorem foldlM_commit {n : String} {x : Option Table} {pre post : List Record} {txn : Nat} {ts : Option Nat} :
    (pre ++ .commit txn ts :: post).foldlM (Record.effect n) x =
      (pre ++ post).foldlM (Record.effect n) x := by
  rw [List.foldlM_append, List.foldlM_append]
  rfl

/-! ## Appends -/

/-- A session that is in no queue enters it. -/
theorem Orderly.enqueue {f : Flight} {log : List Record} {marks : ExtTreeSet TKey}
    {unlogged : List (Nat × Record)} {commits : List Logged} (h : s.Orderly)
    (hbusy : (s.sessions r).doing ≠ .busy) (hf : f.session = r)
    (htargets : ∀ i ∈ f.todo, i.target < s.fresh ∧ KeyOk i.key.2)
    (hunlogged : unlogged = s.unlogged.filter fun e => e.1 ≠ r) :
    { s.setDoing r .busy with
      log := log, inFlight := marks, queue := s.queue ++ [f], unlogged := unlogged,
      commits := commits }.Orderly where
  logging := by
    intro r' rec
    show ((s.setSession r _).sessions r').doing = _ ↔ (r', rec) ∈ unlogged
    rw [doing_setSession, hunlogged, List.mem_filter, decide_eq_true_eq]
    split
    · next heq => simp [heq]
    · next hne =>
      rw [h.logging r' rec]
      exact (and_iff_left hne).symm
  once := by
    show (unlogged.map Prod.fst).Nodup
    rw [hunlogged]
    exact h.once.sublist (List.Sublist.map _ List.filter_sublist)
  busy := by
    intro f' hf'
    show ((s.setSession r _).sessions f'.session).doing = _
    rw [doing_setSession]
    rcases List.mem_append.mp hf' with hold | hnew
    · split
      · rfl
      · exact h.busy f' hold
    · rw [List.mem_singleton.mp hnew, if_pos hf]
  flights := by
    show ((s.queue ++ [f]).map Flight.session).Nodup
    rw [List.map_append, List.nodup_append]
    refine ⟨h.flights, by simp, ?_⟩
    rintro r' hr' r'' hr''
    rw [List.map_singleton, List.mem_singleton, hf] at hr''
    subst hr''
    rintro rfl
    obtain ⟨f', hf', rfl⟩ := List.mem_map.mp hr'
    exact hbusy (h.busy f' hf')
  sessions := by
    intro r'
    by_cases hr : r' = r
    · subst hr
      simpa [setDoing, Engine.setSession] using (⟨(h.sessions r').txn, trivial⟩ : SessionOk _ ⟨_, .busy⟩)
    · simpa [setDoing, Engine.setSession, hr] using h.sessions r'
  named := h.named
  used := h.used
  targets := by
    intro f' hf'
    rcases List.mem_append.mp hf' with hold | hnew
    · exact h.targets f' hold
    · rw [List.mem_singleton.mp hnew]
      exact htargets

/-- The record of a session, in the order of the changes. -/
theorem Orderly.unlogged_split (h : s.Orderly) (hdoing : (s.sessions r).doing = .logging rec) :
    ∃ pre post, s.unlogged = pre ++ (r, rec) :: post ∧
      (s.unlogged.filter fun e => e.1 ≠ r) = pre ++ post := by
  obtain ⟨pre, post, hsplit⟩ := List.append_of_mem ((h.logging r rec).mp hdoing)
  have honce := h.once
  rw [hsplit, List.map_append, List.map_cons, List.nodup_middle, List.nodup_cons, ← List.map_append] at honce
  have hother : ∀ e ∈ pre ++ post, decide (e.1 ≠ r) = true := by
    intro e he
    rw [decide_eq_true_eq]
    rintro rfl
    exact honce.1 (by simpa using List.mem_map_of_mem (f := Prod.fst) he)
  refine ⟨pre, post, hsplit, ?_⟩
  rw [hsplit, List.filter_append, List.filter_cons_of_neg (by simp), ← List.filter_append,
    List.filter_eq_self.mpr hother]

theorem foldlM_append_swap {log rows rest : List Record} {x : Option Table}
    (hswap : ∀ r ∈ rows, ∀ d ∈ rest, Record.Swaps n r d) :
    (log ++ rows ++ rest).foldlM (Record.effect n) x =
      (log ++ rest ++ rows).foldlM (Record.effect n) x := by
  rw [List.append_assoc, List.append_assoc, List.foldlM_append, List.foldlM_append (l := log)]
  exact congrArg _ (funext fun y => Record.foldlM_swap y hswap)

theorem RedoInv.walCommit (h : RedoInv c₀ s) (hs : s.walCommit r ts = some s')
    (hquiet : ∀ rec pre post, s.unlogged = pre ++ (r, rec) :: post → ∀ q ∈ pre, Apart q.2 rec) :
    RedoInv c₀ s' := by
  unfold Engine.walCommit at hs
  split at hs
  · next rec hdoing =>
    obtain ⟨pre, post, hsplit, hfilter⟩ := h.orderly.unlogged_split hdoing
    have hapart := hquiet rec pre post hsplit
    cases hs
    -- The record passes those of earlier changes.
    have hold : s.pendingLog = s.log ++ ((pre.map Prod.snd ++ [rec]) ++ post.map Prod.snd) := by
      rw [pendingLog, hsplit]
      simp
    refine ⟨h.orderly.enqueue (by simp [hdoing]) rfl (by simp) rfl, ⟨fun n => ?_, fun db => ?_⟩, ?_⟩
    · obtain ⟨x, hx, hdenotes⟩ := h.redo.tables n
      refine ⟨x, ?_, ?_⟩
      · show ((s.log ++ [rec, .commit rec.txnOf (some ts)]) ++
          (s.unlogged.filter fun e => e.1 ≠ r).map Prod.snd).foldlM (Record.effect n) _ = _
        rw [hfilter, ← hx, hold, List.map_append]
        calc ((s.log ++ [rec, .commit rec.txnOf (some ts)]) ++
              (pre.map Prod.snd ++ post.map Prod.snd)).foldlM (Record.effect n) c₀.tables[n]?
            = ((s.log ++ [rec]) ++ .commit rec.txnOf (some ts) ::
                (pre.map Prod.snd ++ post.map Prod.snd)).foldlM (Record.effect n) c₀.tables[n]? := by simp
          _ = ((s.log ++ [rec]) ++
                (pre.map Prod.snd ++ post.map Prod.snd)).foldlM (Record.effect n) c₀.tables[n]? :=
              foldlM_commit
          _ = ((s.log ++ [rec] ++ pre.map Prod.snd) ++
                post.map Prod.snd).foldlM (Record.effect n) c₀.tables[n]? := by simp
          _ = ((s.log ++ pre.map Prod.snd ++ [rec]) ++
                post.map Prod.snd).foldlM (Record.effect n) c₀.tables[n]? := by
              have hswap : ∀ d ∈ [rec], ∀ q ∈ pre.map Prod.snd, Record.Swaps n d q := by
                intro d hd q hq
                obtain ⟨e, he, rfl⟩ := List.mem_map.mp hq
                rw [List.mem_singleton.mp hd]
                exact ((hapart e he).swaps n).symm
              rw [List.foldlM_append, foldlM_append_swap hswap, ← List.foldlM_append]
          _ = (s.log ++ ((pre.map Prod.snd ++ [rec]) ++
                post.map Prod.snd)).foldlM (Record.effect n) c₀.tables[n]? := by simp
      · have htodo : Engine.todo { s.setDoing r .busy with
            log := s.log ++ [rec, .commit rec.txnOf (some ts)]
            queue := s.queue ++ [{
              session := r, todo := [], keys := [], hasInserts := false, durable := false }]
            unlogged := s.unlogged.filter fun e => e.1 ≠ r } = s.todo := by
          simp [Engine.todo]
        rw [htodo]
        exact hdenotes
    · show ((s.log ++ [rec, .commit rec.txnOf (some ts)]) ++
          (s.unlogged.filter fun e => e.1 ≠ r).map Prod.snd).foldl (Record.dbEffect db) _ = true ↔ _
      have hsame : ((s.log ++ [rec, .commit rec.txnOf (some ts)]) ++
          (pre ++ post).map Prod.snd).foldl (Record.dbEffect db) (c₀.databases.contains db) =
            s.pendingLog.foldl (Record.dbEffect db) (c₀.databases.contains db) := by
        rw [hold]
        simp only [List.map_append, List.foldl_append, foldl_dbEffect_swap _ fun q hq => by
          obtain ⟨e, he, rfl⟩ := List.mem_map.mp hq
          exact (hapart e he).2 db]
        rfl
      rw [hfilter, hsame]
      refine (h.redo.databases db).trans (or_congr Iff.rfl ?_)
      exact (dropping_setSession (by simp [hdoing]) (by simp)).symm
    · exact h.drops.of_sessions (fun r' db hr' => dropping_of_setSession (by simp) r' db hr')
        fun _ _ _ => rfl
  · cases hs

/-! ## Commits -/

/-- What a session appends, installed and redone on the same table. -/
theorem Same.records (txn : Nat) {id : Nat} {n : String} :
    ∀ {l : List (TKey × StagedWrite)} {t y : Table}, t.Same y →
      (∀ p ∈ l, KeyOk p.1.2 ∧ (tables[p.1.1]?.getD 0 = id ↔ p.1.1 = n)) →
        ∃ t' y',
          ((l.map fun (k, w) =>
            ({ target := tables[k.1]?.getD 0, origin := w.origin, key := k, row := w.row.map encodeRow } :
              Install)).filter fun i => i.target = id).foldlM (fun t i => Install.run i t) t = .ok t' ∧
          (l.map fun (k, w) => record txn k w.row).foldlM (Record.effect n) (some y) = .ok (some y') ∧
          t'.Same y'
  | [], t, y, hty, _ => ⟨t, y, rfl, rfl, hty⟩
  | (k, w) :: l, t, y, hty, hl => by
    obtain ⟨hkey, hiff⟩ := hl (k, w) (by simp)
    have hrest := fun p hp => hl p (List.mem_cons_of_mem _ hp)
    rw [List.map_cons, List.map_cons, List.foldlM_cons]
    by_cases hn : k.1 = n
    · -- A row of the table.
      have hrow : ∃ t₁ y₁, Install.run
          { target := tables[k.1]?.getD 0, origin := w.origin, key := k, row := w.row.map encodeRow } t =
            .ok t₁ ∧ (record txn k w.row).effect n (some y) = .ok (some y₁) ∧ t₁.Same y₁ := by
        cases hw : w.row with
        | none =>
          obtain ⟨t₁, ht₁, -⟩ := Table.removeRaw_ok (t := t) hkey
          obtain ⟨y₁, hy₁, hsame⟩ := hty.removeRaw ht₁
          refine ⟨t₁, y₁, ht₁, ?_, hsame⟩
          rw [record, Record.effect, if_pos hn, Record.onRow, hy₁]
          rfl
        | some row =>
          obtain ⟨t₁, ht₁, -⟩ := Table.applyRaw_ok (t := t) hkey (encodeRow row)
          obtain ⟨y₁, hy₁, hsame⟩ := hty.applyRaw ht₁
          refine ⟨t₁, y₁, ht₁, ?_, hsame⟩
          rw [record, Record.effect, if_pos hn, Record.onRow, hy₁]
          rfl
      obtain ⟨t₁, y₁, hrun, heffect, hsame⟩ := hrow
      obtain ⟨t', y', ht', hy', hsame'⟩ := Same.records txn hsame hrest
      refine ⟨t', y', ?_, ?_, hsame'⟩
      · rw [List.filter_cons_of_pos (by simpa using hiff.mpr hn), List.foldlM_cons, hrun]
        exact ht'
      · rw [heffect]
        exact hy'
    · -- A row of another one.
      obtain ⟨t', y', ht', hy', hsame'⟩ := Same.records txn hty hrest
      refine ⟨t', y', ?_, ?_, hsame'⟩
      · rw [List.filter_cons_of_neg (by simpa using fun heq => hn (hiff.mp heq))]
        exact ht'
      · have hother : (record txn k w.row).concerns n = false := by
          cases w.row <;> simpa [record, Record.concerns] using hn
        rw [Record.effect_of_not_concerns hother]
        exact hy'

theorem isRow_of_mem_records {txn : Nat} {staged : Staged} (hkeys : KeysOk staged)
    (hrec : rec ∈ records txn staged ts) :
    rec.IsRow ∧ ∀ n, rec.concerns n = true →
      ∃ (k : TKey) (w : StagedWrite), staged[k]? = some w ∧ k.1 = n := by
  rcases List.mem_append.mp hrec with hrow | hcommit
  · obtain ⟨⟨k, w⟩, hkw, rfl⟩ := List.mem_map.mp hrow
    have hw := ExtTreeMap.mem_toList_iff_getElem?_eq_some.mp hkw
    refine ⟨?_, fun n hn => ⟨k, w, hw, ?_⟩⟩
    · show (record txn k w.row).IsRow
      cases w.row with
      | none => exact hkeys k w hw
      | some row => exact hkeys k w hw
    · cases hrow : w.row with
      | none => simpa [hrow, record, Record.concerns] using hn
      | some row => simpa [hrow, record, Record.concerns] using hn
  · rw [List.mem_singleton.mp hcommit]
    refine ⟨trivial, fun n hn => ?_⟩
    cases hn

theorem foldlM_effect_none {n : String} : ∀ {rs : List Record}, (∀ rec ∈ rs, rec.IsRow) →
    rs.foldlM (Record.effect n) none = .ok none
  | [], _ => rfl
  | rec :: rs, h => by
    rw [List.foldlM_cons, Record.effect_row_none (h rec (by simp))]
    exact foldlM_effect_none fun rec' hrec' => h rec' (List.mem_cons_of_mem rec hrec')

/-- The rows of a commit go to the tables that its records are about. -/
theorem Denotes.append (txn ts : Nat) {staged : Staged} {n : String} {x : Option Table}
    (horderly : s.Orderly) (hx : Denotes s.tables s.heap s.todo n x) (hkeys : KeysOk staged)
    (hlooked : ∀ (k : TKey) (w : StagedWrite), staged[k]? = some w → ∃ id, tables[k.1]? = some id)
    (hquiet : ∀ (k : TKey) (w : StagedWrite) (id : Nat), staged[k]? = some w →
      tables[k.1]? = some id → s.tables[k.1]? = some id ∨ s.Gone k.1 id) :
    ∃ y, (records txn staged ts).foldlM (Record.effect n) x = .ok y ∧
      Denotes s.tables s.heap (s.todo ++ installsOf staged tables) n y := by
  rcases Option.eq_none_or_eq_some s.tables[n]? with hnone | ⟨id, hid⟩
  · rw [hx.1 hnone]
    exact ⟨none, foldlM_effect_none fun rec hrec => (isRow_of_mem_records hkeys hrec).1, denotes_none hnone⟩
  · obtain ⟨t, y, hsettle, rfl, hty⟩ := hx.2 id hid
    have hboth : ∀ p ∈ staged.toList, KeyOk p.1.2 ∧ (tables[p.1.1]?.getD 0 = id ↔ p.1.1 = n) := by
      rintro ⟨k, w⟩ hkw
      have hw := ExtTreeMap.mem_toList_iff_getElem?_eq_some.mp hkw
      obtain ⟨id', hid'⟩ := hlooked k w hw
      refine ⟨hkeys k w hw, ?_⟩
      rw [hid', Option.getD_some]
      constructor
      · rintro rfl
        rcases hquiet k w id' hw hid' with hcurrent | hgone
        · exact horderly.inj hcurrent hid
        · exact absurd hid (hgone.2 n)
      · rintro rfl
        rcases hquiet k w id' hw hid' with hcurrent | hgone
        · exact Option.some.inj (hcurrent.symm.trans hid)
        · rw [hgone.1] at hid
          cases hid
    obtain ⟨t', y', ht', hy', hsame⟩ := Same.records txn hty hboth
    refine ⟨some y', ?_, fun hbad => ?_, fun id' hid' => ?_⟩
    · rw [records, List.foldlM_append, hy']
      rfl
    · rw [hid] at hbad
      cases hbad
    · rw [hid] at hid'
      cases hid'
      refine ⟨t', y', ?_, rfl, hsame⟩
      rw [settle, List.filter_append, List.foldlM_append]
      rw [settle] at hsettle
      rw [hsettle]
      exact ht'

/-- A session moves that has changed nothing and does not after. -/
theorem RedoInv.setSession {session : Session} (h : RedoInv c₀ s) (hold : (s.sessions r).doing.plain = true)
    (hnew : session.doing.plain = true) (hok : SessionOk s.fresh session) {m : Nat} :
    RedoInv c₀ { s.setSession r session with nextTxn := m } where
  orderly := h.orderly.move hold hnew hok
  redo := h.redo.move hold hnew
  drops := h.drops.of_sessions
    (fun r' db hr' => dropping_of_setSession (plain_ne_dropping hnew) r' db hr') fun _ _ _ => rfl

/-- A commit has looked up every table it staged a row of. -/
theorem resolved_of_all {staged : Staged} {tables : ExtTreeMap String Nat}
    (hall : ∀ k ∈ staged.keys, tables.contains k.1 = true) (k : TKey) (w : StagedWrite)
    (hw : staged[k]? = some w) : ∃ id, tables[k.1]? = some id := by
  have hk := hall k (ExtTreeMap.mem_keys.mpr
    (ExtTreeMap.mem_iff_isSome_getElem?.mpr (by rw [hw]; rfl)))
  rw [ExtTreeMap.contains_eq_isSome_getElem?] at hk
  exact Option.isSome_iff_exists.mp hk

/-- Rows may pass whatever drops their tables or is about other ones. -/
theorem swaps_records {txn : Nat} {staged : Staged} {rec d : Record} (hkeys : KeysOk staged)
    (hrec : rec ∈ records txn staged ts) (hdrop : ∀ (k : TKey) (w : StagedWrite),
      staged[k]? = some w → d.concerns k.1 = true → d.isDrop = true) : Record.Swaps n rec d := by
  obtain ⟨hrow, hstaged⟩ := isRow_of_mem_records hkeys hrec
  cases hn : rec.concerns n with
  | false => exact Record.Swaps.of_not_concerns hn
  | true =>
    obtain ⟨k, w, hw, rfl⟩ := hstaged n hn
    cases hd : d.concerns k.1 with
    | false => exact (Record.Swaps.of_not_concerns hd).symm
    | true => exact Record.swaps_row_drop hrow (hdrop k w hw hd)

theorem dbEffect_records {txn : Nat} {staged : Staged} (hkeys : KeysOk staged) {db : String}
    (b : Bool) : (records txn staged ts).foldl (Record.dbEffect db) b = b := by
  refine List.foldlRecOn (motive := fun b' => b' = b) _ _ rfl fun b' hb' rec hrec => ?_
  rw [hb']
  have hrow := (isRow_of_mem_records hkeys hrec).1
  cases rec <;> first | rfl | exact hrow.elim

theorem RedoInv.append (h : RedoInv c₀ s) (hs : s.append r ts = some s')
    (hquiet : ∀ txn staged tables, (s.sessions r).doing = .resolving txn staged tables →
      ∀ (k : TKey) (w : StagedWrite) (id : Nat), staged[k]? = some w → tables[k.1]? = some id →
        (s.tables[k.1]? = some id ∨ s.Gone k.1 id) ∧
          ∀ q ∈ s.unlogged, q.2.concerns k.1 = true → q.2.isDrop = true) :
    RedoInv c₀ s' := by
  unfold Engine.append at hs
  split at hs
  · next txn staged tables hdoing =>
    have hresolving := (h.orderly.sessions r).doing
    rw [hdoing] at hresolving
    obtain ⟨hkeys, hused⟩ := hresolving
    have hquiet := hquiet txn staged tables hdoing
    have hok : SessionOk s.fresh { s.sessions r with doing := .idle } :=
      ⟨(h.orderly.sessions r).txn, trivial⟩
    have hfail : RedoInv c₀ (s.setDoing r .idle) := h.setSession (by rw [hdoing]; rfl) rfl hok
    split at hs
    · cases hs
    · next hall =>
      have hlooked := resolved_of_all (by simpa using hall)
      split at hs
      · cases hs
        exact hfail
      · split at hs
        · cases hs
          exact hfail
        · have hfilter : s.unlogged = s.unlogged.filter fun e => e.1 ≠ r := by
            refine (List.filter_eq_self.mpr fun e he => ?_).symm
            rw [decide_eq_true_eq]
            rintro rfl
            have hlogging := (h.orderly.logging e.1 e.2).mpr he
            rw [hdoing] at hlogging
            cases hlogging
          cases hs
          refine ⟨h.orderly.enqueue (by simp [hdoing]) rfl ?_ hfilter, ⟨fun n => ?_, fun db => ?_⟩, ?_⟩
          · intro i hi
            obtain ⟨⟨k, w⟩, hkw, rfl⟩ := List.mem_map.mp hi
            have hw := ExtTreeMap.mem_toList_iff_getElem?_eq_some.mp hkw
            obtain ⟨id, hid⟩ := hlooked k w hw
            refine ⟨?_, hkeys k w hw⟩
            show tables[k.1]?.getD 0 < _
            rw [hid]
            exact hused k.1 id hid
          · obtain ⟨x, hx, hdenotes⟩ := h.redo.tables n
            obtain ⟨y, hy, hdenotes'⟩ := Denotes.append txn ts h.orderly hdenotes hkeys
              hlooked fun k w id hw hid => (hquiet k w id hw hid).1
            refine ⟨y, ?_, ?_⟩
            · show (s.log ++ records txn staged ts ++ s.unlogged.map Prod.snd).foldlM (Record.effect n) _ = _
              -- Only drops of its tables are missing, so the rows may pass them.
              have hswap : ∀ rec ∈ records txn staged ts, ∀ d ∈ s.unlogged.map Prod.snd,
                  Record.Swaps n rec d := by
                intro rec hrec d hd
                obtain ⟨q, hq, rfl⟩ := List.mem_map.mp hd
                refine swaps_records hkeys hrec fun k w hw hq' => ?_
                obtain ⟨id, hid⟩ := hlooked k w hw
                exact (hquiet k w id hw hid).2 q hq hq'
              rw [foldlM_append_swap hswap, List.foldlM_append]
              change (s.log ++ s.unlogged.map Prod.snd).foldlM (Record.effect n) _ = _ at hx
              rw [hx]
              exact hy
            · have htodo : ∀ f : Flight, (s.queue ++ [f]).flatMap Flight.todo = s.todo ++ f.todo := by
                intro f
                simp [Engine.todo]
              show Denotes s.tables s.heap ((s.queue ++ [_]).flatMap Flight.todo) n y
              rw [htodo]
              exact hdenotes'
          · show (s.log ++ records txn staged ts ++ s.unlogged.map Prod.snd).foldl (Record.dbEffect db) _ =
              true ↔ _
            rw [List.append_assoc, List.foldl_append, List.foldl_append, dbEffect_records hkeys,
              ← List.foldl_append]
            refine (h.redo.databases db).trans (or_congr Iff.rfl ?_)
            exact (dropping_setSession (by simp [hdoing]) (by simp)).symm
          · exact h.drops.of_sessions (fun r' db hr' => dropping_of_setSession (by simp) r' db hr')
              fun _ _ _ => rfl
  · cases hs

/-! ## Phases B and C -/

/-- Appends become durable one after the other; what is to be installed stays. -/
theorem sync_queue (n : Nat) :
    (s.sync n).todo = s.todo ∧ (s.sync n).queue.map Flight.session = s.queue.map Flight.session ∧
      ∀ f ∈ (s.sync n).queue, ∃ f' ∈ s.queue, f.session = f'.session ∧ f.todo = f'.todo := by
  refine ⟨?_, ?_, fun f hf => ?_⟩
  · conv_rhs => rw [Engine.todo, ← List.take_append_drop n s.queue]
    rw [Engine.todo, sync, List.flatMap_append, List.flatMap_map, List.flatMap_append]
  · conv_rhs => rw [← List.take_append_drop n s.queue]
    simp [sync, Function.comp_def]
  · rcases List.mem_append.mp hf with hsynced | hrest
    · obtain ⟨f', hf', rfl⟩ := List.mem_map.mp hsynced
      exact ⟨f', List.mem_of_mem_take hf', rfl, rfl⟩
    · exact ⟨f, List.mem_of_mem_drop hrest, rfl, rfl⟩

theorem RedoInv.sync (h : RedoInv c₀ s) (n : Nat) : RedoInv c₀ (s.sync n) := by
  obtain ⟨htodo, hflights, hqueue⟩ := sync_queue (s := s) n
  refine ⟨⟨h.orderly.logging, h.orderly.once, fun f hf => ?_, ?_, h.orderly.sessions, h.orderly.named,
    h.orderly.used, fun f hf => ?_⟩, h.redo.of_same rfl rfl htodo rfl rfl rfl fun _ => Iff.rfl, h.drops⟩
  · obtain ⟨f', hf', hsession, -⟩ := hqueue f hf
    rw [hsession]
    exact h.orderly.busy f' hf'
  · rw [hflights]
    exact h.orderly.flights
  · obtain ⟨f', hf', -, htodo'⟩ := hqueue f hf
    rw [htodo']
    exact h.orderly.targets f' hf'

theorem settle_cons {heap : Nat → Table} {i : Install} {rest : List Install} {t : Table} (id : Nat)
    (hrun : Install.run i (heap i.target) = .ok t) :
    settle (Function.update heap i.target t) rest id = settle heap (i :: rest) id := by
  by_cases hid : id = i.target
  · subst hid
    rw [settle, settle, List.filter_cons_of_pos (by simp), List.foldlM_cons, hrun, Function.update_self]
    rfl
  · rw [settle_update_of_ne hid, settle, settle,
      List.filter_cons_of_neg (by simpa using fun heq => hid heq.symm)]

theorem Install.run_info {i : Install} {t t' : Table} (hkey : KeyOk i.key.2) (h : Install.run i t = .ok t') :
    t'.info = t.info := by
  unfold Install.run at h
  split at h
  · next raw _ =>
    obtain ⟨t₁, ht₁, -, hinfo, -⟩ := Table.applyRaw_ok (t := t) hkey raw
    rw [ht₁] at h
    rw [← Except.ok.inj h, hinfo]
  · obtain ⟨t₁, ht₁, -, hinfo, -⟩ := Table.removeRaw_ok (t := t) hkey
    rw [ht₁] at h
    rw [← Except.ok.inj h, hinfo]

theorem RedoInv.apply (h : RedoInv c₀ s) (hs : s.apply = some s') : RedoInv c₀ s' := by
  unfold Engine.apply at hs
  split at hs
  · cases hs
  · next f rest hqueue =>
    split at hs
    · next i todo hdurable htodo =>
      split at hs
      · next t hrun =>
        have hf : f ∈ s.queue := by rw [hqueue]; simp
        have htarget := h.orderly.targets f hf i (by rw [htodo]; simp)
        have hall : s.todo = i :: (todo ++ rest.flatMap Flight.todo) := by
          rw [Engine.todo, hqueue, List.flatMap_cons, htodo]
          rfl
        cases hs
        refine ⟨⟨h.orderly.logging, h.orderly.once, fun f' hf' => ?_, ?_, h.orderly.sessions, ?_,
          h.orderly.used, fun f' hf' => ?_⟩, ⟨fun n => ?_, h.redo.databases⟩, h.drops⟩
        · rcases List.mem_cons.mp hf' with rfl | hrest
          · exact h.orderly.busy f hf
          · exact h.orderly.busy f' (by rw [hqueue]; exact List.mem_cons_of_mem f hrest)
        · have hflights := h.orderly.flights
          rw [hqueue] at hflights
          exact hflights
        · intro n id hn
          show (Function.update s.heap i.target t id).info.name = n
          by_cases hid : id = i.target
          · subst hid
            rw [Function.update_self, Install.run_info htarget.2 hrun]
            exact h.orderly.named n _ hn
          · rw [Function.update_of_ne hid]
            exact h.orderly.named n id hn
        · rcases List.mem_cons.mp hf' with rfl | hrest
          · exact fun j hj => h.orderly.targets f hf j (by rw [htodo]; exact List.mem_cons_of_mem i hj)
          · exact h.orderly.targets f' (by rw [hqueue]; exact List.mem_cons_of_mem f hrest)
        · obtain ⟨x, hx, hdenotes⟩ := h.redo.tables n
          refine ⟨x, hx, hdenotes.congr rfl fun id _ => ?_⟩
          rw [hall]
          exact settle_cons id hrun
      · cases hs
    · cases hs

theorem RedoInv.finish (h : RedoInv c₀ s) (hs : s.finish = some s') : RedoInv c₀ s' := by
  unfold Engine.finish at hs
  split at hs
  · cases hs
  · next f rest hqueue =>
    split at hs
    · next hdurable htodo =>
      have hbusy : (s.sessions f.session).doing = .busy := h.orderly.busy f (by rw [hqueue]; simp)
      have hflights := h.orderly.flights
      rw [hqueue, List.map_cons, List.nodup_cons] at hflights
      cases hs
      have hsessions : ∀ r', ((s.setDoing f.session .idle).sessions r').doing =
          if r' = f.session then .idle else (s.sessions r').doing := doing_setSession
      refine ⟨⟨fun r' rec => ?_, h.orderly.once, fun f' hf' => ?_, hflights.2, fun r' => ?_, h.orderly.named,
        h.orderly.used,
        fun f' hf' => h.orderly.targets f' (by rw [hqueue]; exact List.mem_cons_of_mem f hf')⟩,
        h.redo.of_same rfl rfl ?_ rfl rfl rfl fun db => ?_, ?_⟩
      · show ((s.setDoing f.session .idle).sessions r').doing = _ ↔ (r', rec) ∈ s.unlogged
        rw [← h.orderly.logging r' rec, hsessions]
        split
        · next heq =>
          rw [heq, hbusy]
          simp
        · exact Iff.rfl
      · show ((s.setDoing f.session .idle).sessions f'.session).doing = _
        rw [hsessions, if_neg]
        · exact h.orderly.busy f' (by rw [hqueue]; exact List.mem_cons_of_mem f hf')
        · intro heq
          exact hflights.1 (List.mem_map.mpr ⟨f', hf', heq⟩)
      · by_cases hr : r' = f.session
        · subst hr
          simpa [setDoing, Engine.setSession] using
            (⟨(h.orderly.sessions f.session).txn, trivial⟩ : SessionOk _ ⟨_, .idle⟩)
        · simpa [setDoing, Engine.setSession, hr] using h.orderly.sessions r'
      · show rest.flatMap Flight.todo = _
        rw [Engine.todo, hqueue, List.flatMap_cons, htodo, List.nil_append]
      · exact dropping_setSession (by simp [hbusy]) (by simp)
      · exact h.drops.of_sessions (fun r' db hr' => dropping_of_setSession (by simp) r' db hr')
          fun _ _ _ => rfl
    · cases hs

/-! ## Runs -/

theorem RedoInv.step (h : RedoInv c₀ s) (hs : QuietStep s s') : RedoInv c₀ s' := by
  obtain ⟨a, hs, hquiet⟩ := hs
  cases hstatement : a.statement with
  | some r =>
    obtain ⟨session, m, rfl, hold, hnew, hok⟩ :=
      statement_spec hs hstatement
    exact h.setSession hold hnew (hok h.orderly.used (h.orderly.sessions r))
  | none =>
    cases a with
    | append r ts =>
      exact RedoInv.append h hs fun txn staged tables hdoing =>
        hquiet.append r ts txn staged tables rfl hdoing
    | sync n =>
      cases hs
      exact RedoInv.sync h n
    | apply => exact RedoInv.apply h hs
    | finish => exact RedoInv.finish h hs
    | createTable r name schema fks => exact RedoInv.createTable h hs
    | dropTable r key => exact RedoInv.dropTable h hs
    | createIndex r name column =>
      exact RedoInv.createIndex h hs fun key id staged => hquiet.createIndex r name column key id staged rfl
    | dropIndex r name =>
      exact RedoInv.dropIndex h hs fun key id staged => hquiet.dropIndex r name key id staged rfl
    | createDatabase r name => exact RedoInv.createDatabase h hs (hquiet.createDatabase r name rfl)
    | dropDatabase r name => exact RedoInv.dropDatabase h hs
    | dropTables r => exact RedoInv.dropTables h hs
    | walCommit r ts =>
      exact RedoInv.walCommit h hs fun rec pre post => hquiet.walCommit r ts rec pre post rfl
    | _ => cases hstatement

theorem Opened.redoInv (h : Opened c₀ s) : RedoInv c₀ s where
  orderly := {
    logging := by simp [h.sessions, h.unlogged]
    once := by simp [h.unlogged]
    busy := by simp [h.queue]
    flights := by simp [h.queue]
    sessions := by
      intro r
      rw [h.sessions r]
      exact ⟨by simp, trivial⟩
    named := h.named
    used := h.unused
    targets := by simp [h.queue] }
  redo := by
    have hlog : s.pendingLog = [] := by simp [pendingLog, h.log, h.unlogged]
    have htodo : s.todo = [] := by simp [Engine.todo, h.queue]
    refine ⟨fun n => ⟨c₀.tables[n]?, by rw [hlog]; rfl, fun hnone => ?_, fun id hid => ?_⟩, fun db => ?_⟩
    · rw [← h.tables n, hnone]
      rfl
    · refine ⟨s.heap id, s.heap id, ?_, ?_, Table.Same.refl _⟩
      · exact settle_of_none (by simp [htodo])
      · rw [← h.tables n, hid]
        rfl
    · rw [hlog, h.databases]
      simp [h.sessions]
  drops := by
    intro r db hr
    rw [h.sessions r] at hr
    cases hr

/-! ## The bytes of the log -/

theorem step_log {a : Action} (hs : s.step a = some s') :
    s'.log = s.log ∨ s'.log = s.log ++ s.appended a := by
  cases hchanges : a.changes with
  | some r =>
    obtain ⟨databases, heap, tables, fresh, rec, rfl, -⟩ := changes_spec hs hchanges
    exact .inl rfl
  | none =>
  cases hstatement : a.statement with
  | some r =>
    obtain ⟨session, m, rfl, -⟩ := statement_spec hs hstatement
    exact .inl rfl
  | none =>
    cases a with
    | append r ts =>
      simp only [Engine.step, Engine.append] at hs
      split at hs
      · next txn staged tables hdoing =>
        split at hs
        · cases hs
        · split at hs
          · cases hs
            exact .inl rfl
          · split at hs
            · cases hs
              exact .inl rfl
            · cases hs
              exact .inr (by rw [appended, hdoing])
      · cases hs
    | sync m =>
      cases hs
      exact .inl rfl
    | apply =>
      simp only [Engine.step, Engine.apply] at hs
      split at hs
      · cases hs
      · split at hs
        · split at hs
          · cases hs
            exact .inl rfl
          · cases hs
        · cases hs
    | finish =>
      simp only [Engine.step, Engine.finish] at hs
      split at hs
      · cases hs
      · split at hs
        · cases hs
          exact .inl rfl
        · cases hs
    | dropDatabase r name =>
      simp only [Engine.step, Engine.dropDatabase] at hs
      split at hs
      · split at hs
        · cases hs
          exact .inl rfl
        · cases hs
      · cases hs
    | walCommit r ts =>
      simp only [Engine.step, Engine.walCommit] at hs
      split at hs
      · next rec hdoing =>
        cases hs
        exact .inr (by rw [appended, hdoing])
      · cases hs
    | _ => first | (cases hstatement; done) | cases hchanges

/-- What is appended keeps a log one of whole batches. -/
theorem Batched.appended {log : List Record} (h : Batched log) (a : Action) :
    Batched (log ++ s.appended a) := by
  have hsame : Batched (log ++ []) := (List.append_nil log).symm ▸ h
  cases a with
  | append r ts =>
    rw [Engine.appended]
    split
    · next txn staged tables _ =>
      refine h.append _ fun rec hrec => ?_
      obtain ⟨⟨k, ⟨row, isInsert, origin⟩⟩, -, rfl⟩ := List.mem_map.mp hrec
      cases row <;> exact ⟨rfl, rfl⟩
    · exact hsame
  | walCommit r ts =>
    rw [Engine.appended]
    split
    · next rec _ =>
      cases hcommit : rec.isCommit with
      | false =>
        exact h.append [rec] fun q hq => by rw [List.mem_singleton.mp hq]; exact ⟨rfl, hcommit⟩
      | true =>
        cases rec with
        | commit txn time =>
          have hfirst : Batched (log ++ [.commit txn time]) := h.append [] (by simp)
          have hboth : Batched (log ++ [.commit txn time] ++ [.commit txn (some ts)]) :=
            hfirst.append [] (by simp)
          rwa [List.append_assoc] at hboth
        | _ => cases hcommit
    · exact hsame
  | _ => exact hsame

/-- The log is one of whole batches, and its file is read back. -/
structure Reads (s : Engine) : Prop where
  kept : ∀ rec ∈ s.log, Wal.RecordKept rec
  batched : Batched s.log

theorem Opened.batched (h : Opened c₀ s) : Batched s.log := by
  rw [h.log]
  exact ⟨rfl, fun c => rfl⟩

theorem Batched.step {a : Action} (h : Batched s.log) (hs : s.step a = some s') : Batched s'.log := by
  rcases step_log hs with hlog | hlog
  · exact hlog ▸ h
  · exact hlog ▸ Batched.appended h a

theorem Reads.step {a : Action} (h : Reads s) (hs : s.step a = some s')
    (hkept : ∀ rec ∈ s.appended a, Wal.RecordKept rec) : Reads s' := by
  refine ⟨fun rec hrec => ?_, Batched.step h.batched hs⟩
  rcases step_log hs with hlog | hlog
  · exact h.kept rec (hlog ▸ hrec)
  · rw [hlog] at hrec
    rcases List.mem_append.mp hrec with hold | hnew
    · exact h.kept rec hold
    · exact hkept rec hnew

/-- Redo of the file is redo of the log. -/
theorem Reads.redone (h : Reads s) (c₀ : Catalog) : redone c₀ s = c₀.applyRecords s.log := by
  have hread := Wal.readAll_take h.kept (n := (Wal.header ++ Wal.frames s.log).length)
    (by rw [List.length_append]; omega)
  rw [List.take_length, Wal.wholeRecords_of_le (by rw [List.length_append]; omega)] at hread
  rw [Engine.redone, hread]
  exact h.batched.applied c₀

/-- At rest the log has everything, and redo of it gives what is there. -/
theorem RedoInv.redoesLive (h : RedoInv c₀ s) (hreads : Reads s) : RedoesLive c₀ s := by
  intro hqueue hidle
  rw [hreads.redone]
  have hunlogged : s.unlogged = [] := by
    refine List.eq_nil_iff_forall_not_mem.mpr fun e he => ?_
    have hlogging := (h.orderly.logging e.1 e.2).mpr he
    rw [hidle] at hlogging
    cases hlogging
  have hlog : s.pendingLog = s.log := by simp [pendingLog, hunlogged]
  have htodo : s.todo = [] := by simp [Engine.todo, hqueue]
  choose x hx hdenotes using h.redo.tables
  rw [hlog] at hx
  rw [htodo] at hdenotes
  obtain ⟨c, hc, htables, hdatabases⟩ := Catalog.applyRecords_effect hx
  refine ⟨c, hc, fun db => ?_, fun n => ⟨⟨fun hnone => ?_, fun hnone => ?_⟩, fun id t hid ht => ?_⟩⟩
  · have hdb := h.redo.databases db
    rw [hlog, ← hdatabases db] at hdb
    rw [Bool.eq_iff_iff, hdb]
    simp [hidle]
  · rw [htables n, (hdenotes n).1 hnone]
  · by_contra hsome
    obtain ⟨id, hid⟩ := Option.ne_none_iff_exists'.mp hsome
    obtain ⟨t, y, -, hy, -⟩ := (hdenotes n).2 id hid
    rw [htables n, hy] at hnone
    cases hnone
  · obtain ⟨t', y, hsettle, hy, hsame⟩ := (hdenotes n).2 id hid
    rw [settle_of_none (by simp)] at hsettle
    cases hsettle
    rw [htables n, hy] at ht
    cases ht
    exact hsame

/-- The session of a step, but for the steps that work for all of them. -/
def Action.session : Action → Option Nat
  | .append r _ | .createTable r _ _ _ | .dropTable r _ | .createIndex r _ _ | .dropIndex r _ |
    .createDatabase r _ | .dropDatabase r _ | .dropTables r | .walCommit r _ => some r
  | a => a.statement

/-- Sessions from `n` on are idle. -/
structure IdleFrom (n : Nat) (s : Engine) : Prop where
  idle : ∀ r, n ≤ r → (s.sessions r).doing = .idle
  flights : ∀ f ∈ s.queue, f.session < n

variable {n : Nat}

theorem IdleFrom.setSession {session : Session} (h : IdleFrom n s) (hr : r < n) :
    IdleFrom n (s.setSession r session) := by
  refine ⟨fun r' hr' => ?_, h.flights⟩
  rw [doing_setSession, if_neg (Nat.ne_of_gt (Nat.lt_of_lt_of_le hr hr'))]
  exact h.idle r' hr'

theorem IdleFrom.step {a : Action} (h : IdleFrom n s) (hs : s.step a = some s')
    (ha : ∀ r, Action.session a = some r → r < n) : IdleFrom n s' := by
  cases hchanges : a.changes with
  | some r =>
    have hr : r < n := by
      refine ha r ?_
      cases a <;> first | exact hchanges | cases hchanges
    obtain ⟨databases, heap, tables, fresh, rec, rfl, -⟩ := changes_spec hs hchanges
    have hmoved : IdleFrom n (s.setDoing r (.logging (rec s.nextTxn))) := h.setSession hr
    exact ⟨hmoved.idle, hmoved.flights⟩
  | none =>
  cases hstatement : a.statement with
  | some r =>
    have hr : r < n := by
      refine ha r ?_
      cases a <;> first | exact hstatement | cases hstatement
    obtain ⟨session, m, rfl, -⟩ := statement_spec hs hstatement
    have hmoved : IdleFrom n (s.setSession r session) := h.setSession hr
    exact ⟨hmoved.idle, hmoved.flights⟩
  | none =>
    cases a with
    | append r ts =>
      have hmoved : ∀ doing, IdleFrom n (s.setDoing r doing) := fun _ => h.setSession (ha r rfl)
      simp only [Engine.step, Engine.append] at hs
      split at hs
      · split at hs
        · cases hs
        · split at hs
          · cases hs
            exact hmoved .idle
          · split at hs
            · cases hs
              exact hmoved .idle
            · cases hs
              exact ⟨(hmoved .busy).idle,
                List.forall_mem_append.2 ⟨h.flights, List.forall_mem_singleton.2 (ha r rfl)⟩⟩
      · cases hs
    | sync m =>
      cases hs
      refine ⟨h.idle, fun f hf => ?_⟩
      obtain ⟨f', hf', hsession, -⟩ := (sync_queue (s := s) m).2.2 f hf
      rw [hsession]
      exact h.flights f' hf'
    | apply =>
      simp only [Engine.step, Engine.apply] at hs
      split at hs
      · cases hs
      · next f rest hqueue =>
        split at hs
        · split at hs
          · cases hs
            refine ⟨h.idle, fun f' hf' => ?_⟩
            rcases List.mem_cons.mp hf' with rfl | hrest
            · exact h.flights f (by rw [hqueue]; simp)
            · exact h.flights f' (by rw [hqueue]; exact List.mem_cons_of_mem f hrest)
          · cases hs
        · cases hs
    | finish =>
      simp only [Engine.step, Engine.finish] at hs
      split at hs
      · cases hs
      · next f rest hqueue =>
        split at hs
        · have hmoved : IdleFrom n (s.setDoing f.session .idle) :=
            h.setSession (h.flights f (by rw [hqueue]; simp))
          cases hs
          exact ⟨hmoved.idle, fun f' hf' =>
            h.flights f' (by rw [hqueue]; exact List.mem_cons_of_mem f hf')⟩
        · cases hs
    | dropDatabase r name =>
      simp only [Engine.step, Engine.dropDatabase] at hs
      split at hs
      · split at hs
        · have hmoved : IdleFrom n (s.setDoing r (.dropping name)) := h.setSession (ha r rfl)
          cases hs
          exact ⟨hmoved.idle, hmoved.flights⟩
        · cases hs
      · cases hs
    | walCommit r ts =>
      have hmoved : IdleFrom n (s.setDoing r .busy) := h.setSession (ha r rfl)
      simp only [Engine.step, Engine.walCommit] at hs
      split at hs
      · cases hs
        exact ⟨hmoved.idle,
          List.forall_mem_append.2 ⟨h.flights, List.forall_mem_singleton.2 (ha r rfl)⟩⟩
      · cases hs
    | _ => first | (cases hstatement; done) | cases hchanges

theorem Opened.idleFrom (h : Opened c₀ s) : IdleFrom n s where
  idle := fun r _ => by rw [h.sessions r]
  flights := by simp [h.queue]

/-- A run of the first sessions leaves the others idle. -/
theorem idleFrom_of_exec {next : Action → Engine → Option Engine} {actions : List Action}
    (hopen : Opened c₀ s)
    (hnext : ∀ a s₁ s₂, next a s₁ = some s₂ → s₁.step a = some s₂)
    (hsessions : actions.all (fun a => (Action.session a).all (· < n)) = true)
    (h : Transition.exec next (fun _ => true) actions s = some s') : IdleFrom n s' := by
  have hruns : ReflTransGen
      (fun s₁ s₂ => ∃ a : Action, s₁.step a = some s₂ ∧ ∀ r, Action.session a = some r → r < n) s s' := by
    refine Transition.exec_runs_of_mem (fun a ha s₁ s₂ hs => ⟨a, hnext a s₁ s₂ hs, fun r hr => ?_⟩) h
    have hfirst := List.all_eq_true.mp hsessions a ha
    simpa [hr] using hfirst
  exact Transition.invariant (P := IdleFrom n) hopen.idleFrom
    (fun _ _ hidle ⟨_, hs, hr⟩ => hidle.step hs hr) hruns

/-! ## Examples of runs -/

/-- Rows go to current tables, no two records are missing from the log, and
there is no other DDL than new tables and drops. -/
def orderly (s : Engine) : Action → Bool
  | .walCommit _ _ => s.unlogged.length ≤ 1
  | .append r _ =>
    match (s.sessions r).doing with
    | .resolving _ staged tables =>
      s.unlogged.isEmpty && staged.toList.all fun (k, _) => tables[k.1]? = s.tables[k.1]?
    | _ => false
  | .createIndex _ _ _ | .dropIndex _ _ | .createDatabase _ _ => false
  | _ => true

def quiet (s : Engine) (a : Action) : Bool := s.orderly a && (s.appended a).all Wal.recordKept

theorem quiet_of_orderly {a : Action} (h : s.orderly a = true)
    (hkept : ∀ rec ∈ s.appended a, Wal.RecordKept rec) : Quiet s a where
  walCommit := by
    rintro r ts rec pre post rfl hsplit q hq
    have hlength : s.unlogged.length ≤ 1 := by simpa [orderly] using h
    rw [hsplit] at hlength
    cases pre with
    | nil => cases hq
    | cons q' pre => simp at hlength
  append := by
    rintro r ts txn staged tables rfl hdoing k w id hw hid
    simp only [orderly, hdoing, Bool.and_eq_true, List.all_eq_true] at h
    obtain ⟨hunlogged, hcurrent⟩ := h
    have hk := hcurrent _ (ExtTreeMap.mem_toList_iff_getElem?_eq_some.mpr hw)
    rw [decide_eq_true_eq] at hk
    refine ⟨Or.inl (hk ▸ hid), fun q hq => ?_⟩
    rw [List.isEmpty_iff.mp hunlogged] at hq
    cases hq
  createIndex := by
    rintro r name column key id staged rfl
    cases h
  dropIndex := by
    rintro r name key id staged rfl
    cases h
  createDatabase := by
    rintro r name rfl
    cases h
  kept := hkept

theorem quiet_spec {a : Action} (h : s.quiet a = true) : Quiet s a := by
  rw [quiet, Bool.and_eq_true, List.all_eq_true] at h
  exact quiet_of_orderly h.1 fun rec hrec => Wal.kept_of_recordKept (h.2 rec hrec)

def quietStep (a : Action) (s : Engine) : Option Engine := if s.quiet a then s.step a else none

theorem quietStep_spec (a : Action) (s s' : Engine) (h : quietStep a s = some s') :
    s.step a = some s' ∧ Quiet s a := by
  unfold quietStep at h
  split at h
  · next hquiet => exact ⟨h, quiet_spec hquiet⟩
  · cases h

/-- `besideCreate`, with a row of the new table after it. -/
def quietCreate : List Action :=
  besideCreate ++ [.openTable 1 "default" "u", .resolve 1, .write 1 (.int 2) (some [.int 2, .text "x"]) true,
    .commitStagedOrStage 1 true, .lookup 1 "default.u", .append 1 0, .sync 1, .apply, .finish]

/-- What a run leaves of the first two sessions, the queue and the log. -/
def atRest (s : Engine) : Bool :=
  s.queue.isEmpty && [0, 1].all fun r =>
    match (s.sessions r).doing with
    | .idle => true
    | _ => false

theorem atRest_spec (h : s.atRest = true) (hidle : IdleFrom 2 s) :
    s.queue = [] ∧ ∀ r, (s.sessions r).doing = .idle := by
  simp only [atRest, Bool.and_eq_true, List.all_eq_true] at h
  obtain ⟨hqueue, hfirst⟩ := h
  refine ⟨List.isEmpty_iff.mp hqueue, fun r => ?_⟩
  by_cases hr : r < 2
  · have hdoing := hfirst r (by simp; omega)
    split at hdoing
    · next heq => exact heq
    · cases hdoing
  · exact hidle.idle r (by omega)

theorem quietCreate_runs :
    (Transition.exec quietStep (fun _ => true) quietCreate oneTable).map
      (fun s => (s.atRest, s.log.length)) = some (true, 6) := by
  decide +kernel

/-- A table is created, filled by another session, and only then logged. -/
def overtaken : List Action :=
  [.createTable 1 "default.u" (twoColumns .int) [],
    .begin 0, .openTable 0 "default" "u", .resolve 0, .write 0 (.int 1) (some [.int 1, .int 1]) true,
    .commitStagedOrStage 0 true, .commit 0, .lookup 0 "default.u", .append 0 0,
    .walCommit 1 0, .sync 2, .apply, .finish, .finish]

theorem overtaken_runs :
    (Transition.exec (fun a s => s.step a) (fun _ => true) overtaken oneTable).map
      (fun s => (s.atRest && s.log.all Wal.recordKept, s.tables["default.u"]?, (s.heap 1).tree.size,
        (oneCatalog.applyRecords s.log).toOption.bind fun c =>
          c.tables["default.u"]?.map fun t => t.tree.size)) =
      some (true, some 1, 1, some 0) := by
  decide +kernel

end HenchDB.Ddl.Engine
