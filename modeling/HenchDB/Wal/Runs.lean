import HenchDB.Wal.Recovery
import HenchDB.Lib.Transition

/-!
# Runs and crashes over one directory

A run opens the directory, allocates transaction ids from 1 on, appends
transactions to the log, waits for the syncer and acknowledges commits.  It
ends by a crash that leaves the log cut at some byte at or behind the durable
offset; the next run opens what is left and appends behind it.

Two things carry over from one run to the next that the engine does not look
at: the bytes of a torn record, which later appends stand behind, and the
records of a transaction whose `Commit` record was cut off, whose id a later
run allocates again.  An append is `careful` when neither is there, and when redo of
what it appends will end: `BTree::upsert` does not for a key in a gap between two leaves.
-/

namespace HenchDB.Wal

open Codec
open Relation (ReflTransGen)
open Transition (Ends)

/-- Ghost: a transaction whose `Commit` record is part of the log. -/
structure Committed where
  /-- Position among all transactions ever appended. -/
  serial : Nat
  txn : Txn
  /-- Offset one past its `Commit` record. -/
  fin : Nat

structure Engine where
  /-- An engine has the directory open. -/
  running : Bool
  /-- `wal.log`. -/
  file : Bytes
  durable : Nat
  /-- `next_txn`. -/
  nextTxn : Nat
  /-- The ids this run has logged. -/
  used : List Nat
  /-- The catalog once everything appended is installed, up to its counters. -/
  live : Catalog
  /-- Ghost: transactions appended so far. -/
  serial : Nat
  /-- Ghost: the transactions whose `Commit` record is part of the log. -/
  committed : List Committed
  /-- Ghost: serials of the acknowledged commits. -/
  acked : List Nat

namespace Engine

/-- A new directory. -/
def start : Engine where
  running := false
  file := []
  durable := 0
  nextTxn := 1
  used := []
  live := Catalog.empty
  serial := 0
  committed := []
  acked := []

/-- `Database::open`. -/
def openRun (s : Engine) : Option Engine :=
  let file := if s.file.isEmpty then header else s.file
  if s.running then none
  else
    match openDb s.file, recovered file with
    | .ok _, .ok live =>
      some { s with
        running := true
        file := file
        durable := file.length
        nextTxn := 1
        used := []
        live := live }
    | _, _ => none

/-- Allocate a transaction id. -/
def begin (s : Engine) : Option Engine :=
  if s.running then some { s with nextTxn := s.nextTxn + 1 } else none

/-- `append_records` under the commit lock. -/
def append (s : Engine) (t : Txn) : Option Engine :=
  if s.running ∧ 1 ≤ t.id ∧ t.id < s.nextTxn ∧ t.id < 2 ^ 64 ∧ t.id ∉ s.used ∧ t.wellFormed ∧
      s.live.admits t.records then
    match s.live.applyRecords t.records with
    | .ok live =>
      let file := s.file ++ frames t.log
      some { s with
        file := file
        used := t.id :: s.used
        live := live
        serial := s.serial + 1
        committed := s.committed ++ [{ serial := s.serial, txn := t, fin := file.length }] }
    | .error _ => none
  else none

/-- The syncer. -/
def sync (s : Engine) (upTo : Nat) : Option Engine :=
  if s.running ∧ s.durable ≤ upTo ∧ upTo ≤ s.file.length then some { s with durable := upTo }
  else none

/-- A commit whose records are durable returns. -/
def ack (s : Engine) (i : Nat) : Option Engine :=
  match s.committed[i]? with
  | some c =>
    if s.running ∧ c.fin ≤ s.durable then some { s with acked := c.serial :: s.acked } else none
  | none => none

def crash (s : Engine) (cut : Nat) : Option Engine :=
  if s.durable ≤ cut ∧ cut ≤ s.file.length then
    some { s with
      running := false
      file := s.file.take cut
      committed := s.committed.filter fun c => c.fin ≤ cut }
  else none

/-- The steps of all runs. -/
inductive Action where
  | openRun
  | begin
  | append (t : Txn)
  | sync (upTo : Nat)
  | ack (i : Nat)
  | crash (cut : Nat)

def step (s : Engine) : Action → Option Engine
  | .openRun => s.openRun
  | .begin => s.begin
  | .append t => s.append t
  | .sync upTo => s.sync upTo
  | .ack i => s.ack i
  | .crash cut => s.crash cut

def Steps (s s' : Engine) : Prop := ∃ a, s.step a = some s'

/-! ## The properties -/

/-- The transactions that a crash at `cut` leaves in the log. -/
def surviving (s : Engine) (cut : Nat) : List Committed := s.committed.filter fun c => c.fin ≤ cut

section
-- Redo of a record hangs in the trees that those before it leave.
variable (hangs : List Record → Record → Bool)

/-- Redo of the committed records of a log ends. -/
def RedoEnds (file : Bytes) : Prop :=
  ∀ rs, readAll file = .ok rs → Ends hangs [] (redo rs).applied.flatten

/-- Whatever a crash leaves of the log, `Database::open` ends and succeeds with the rows
and indexes of the transactions that are left, every acknowledged one among
them. -/
def Recovers (s : Engine) : Prop :=
  ∀ cut, s.durable ≤ cut → RedoEnds hangs (s.file.take cut) ∧
    ∃ c c', openDb (s.file.take cut) = .ok c' ∧
    Catalog.empty.applyRecords ((s.surviving cut).flatMap fun u => u.txn.records) = .ok c ∧
    c'.databases = c.databases ∧
    (∀ name : String, (c'.tables[name]?).map Catalog.contents =
      (c.tables[name]?).map Catalog.contents) ∧
    ∀ n ∈ s.acked, ∃ u ∈ s.surviving cut, u.serial = n

end

/-- Whatever a crash leaves of the log, an open that reads it applies the first of
the transactions whose `Commit` record is left, each with its own records only, as
they are read back. -/
def Atomic (s : Engine) : Prop :=
  ∀ cut, s.durable ≤ cut → ∀ rs, readAll (s.file.take cut) = .ok rs →
    (redo rs).applied <+: (s.surviving cut).map fun u => u.txn.records.map readBack

/-! ## Careful appends -/

/-- The log ends with a whole record, redo of it has nothing buffered under the
id of the transaction, and the records of that are read back as they are written and end their
redo behind those of the log. -/
def Careful (hangs : List Record → Record → Bool) (s : Engine) (t : Txn) : Prop :=
  ∃ rs, decodeWalRange false (s.file.drop 8) = .ok (rs, []) ∧
    (redo rs).pending[t.id]? = none ∧ (∀ r ∈ t.log, RecordKept r) ∧
      Ends hangs (redo rs).applied.flatten t.records

def CarefulStep (hangs : List Record → Record → Bool) (s s' : Engine) : Prop :=
  ∃ a, s.step a = some s' ∧ ∀ t, a = .append t → s.Careful hangs t

/-- The transaction stays apart from what the log holds: behind whole records redo
has nothing buffered under its id, and behind torn bytes no record is read. -/
def Unmixed (s : Engine) (t : Txn) : Prop :=
  (∀ r ∈ t.log, (encodePayload r).length < 2 ^ 32) ∧
    ∀ rs rest, decodeWalRange false (s.file.drop 8) = .ok (rs, rest) →
      (rest = [] → (redo rs).pending[t.id]? = none) ∧
      (rest ≠ [] → startsRecord (rest ++ frames t.log) = false)

def UnmixedStep (s s' : Engine) : Prop :=
  ∃ a, s.step a = some s' ∧ ∀ t, a = .append t → s.Unmixed t

/-! ## What crashes leave -/

/-- The log has its header, and whatever a crash leaves of it has the property `P`,
with the transactions whose `Commit` record is left. -/
structure Leaves (P : Bytes → List Txn → Prop) (s : Engine) : Prop where
  header_le : header.length ≤ s.durable
  durable_le : s.durable ≤ s.file.length
  fins : ∀ u ∈ s.committed, u.fin ≤ s.file.length
  left : ∀ m, s.durable ≤ m → m ≤ s.file.length →
    P (s.file.take m) ((s.surviving m).map Committed.txn)

variable {P : Bytes → List Txn → Prop} {s s' : Engine} {cut : Nat} {t : Txn}
  {hangs : List Record → Record → Bool}

theorem surviving_of_le (h : ∀ u ∈ s.committed, u.fin ≤ cut) : s.surviving cut = s.committed :=
  List.filter_eq_self.mpr fun u hu => by simpa using h u hu

theorem Leaves.whole (h : s.Leaves P) : P s.file (s.committed.map Committed.txn) := by
  have hall := h.left s.file.length h.durable_le le_rfl
  rwa [List.take_length, surviving_of_le h.fins] at hall

theorem Leaves.file_ne (h : s.Leaves P) : s.file ≠ [] := by
  have hlen := h.header_le.trans h.durable_le
  rw [length_header] at hlen
  rintro hnil
  rw [hnil] at hlen
  cases hlen

/-- A cut behind the end leaves everything. -/
theorem Leaves.at_cut (h : s.Leaves P) (hcut : s.durable ≤ cut) :
    P (s.file.take cut) ((s.surviving cut).map Committed.txn) := by
  rcases le_total cut s.file.length with hle | hle
  · exact h.left cut hcut hle
  · rw [List.take_of_length_le hle, surviving_of_le fun u hu => (h.fins u hu).trans hle]
    exact h.whole

theorem Leaves.begin (h : s.Leaves P) (hs : s.begin = some s') : s'.Leaves P := by
  unfold Engine.begin at hs
  split at hs
  · cases hs
    exact { h with }
  · cases hs

theorem Leaves.sync {upTo : Nat} (h : s.Leaves P) (hs : s.sync upTo = some s') : s'.Leaves P := by
  unfold Engine.sync at hs
  split at hs
  · next hguard =>
    cases hs
    obtain ⟨-, hle, hlen⟩ := hguard
    exact
      { h with
        header_le := h.header_le.trans hle
        durable_le := hlen
        left := fun m hm => h.left m (hle.trans hm) }
  · cases hs

theorem Leaves.ack {i : Nat} (h : s.Leaves P) (hs : s.ack i = some s') : s'.Leaves P := by
  unfold Engine.ack at hs
  split at hs
  · split at hs
    · cases hs
      exact { h with }
    · cases hs
  · cases hs

/-- An open of a directory that has a log. -/
theorem openRun_spec (hfile : s.file ≠ []) (hs : s.openRun = some s') :
    ∃ live, recovered s.file = .ok live ∧
      s' = { s with
        running := true
        durable := s.file.length
        nextTxn := 1
        used := []
        live := live } := by
  have hne : s.file.isEmpty = false := by simpa using hfile
  unfold Engine.openRun at hs
  simp only [hne, Bool.false_eq_true, if_false] at hs
  split at hs
  · cases hs
  · split at hs
    · next live _ hlive => exact ⟨live, hlive, (Option.some.inj hs).symm⟩
    · cases hs

theorem Leaves.openRun (h : s.Leaves P) (hs : s.openRun = some s') : s'.Leaves P := by
  obtain ⟨live, -, rfl⟩ := openRun_spec h.file_ne hs
  exact
    { header_le := h.header_le.trans h.durable_le
      durable_le := le_rfl
      fins := h.fins
      left := fun m hm => h.left m (h.durable_le.trans hm) }

theorem crash_spec (hs : s.crash cut = some s') :
    s.durable ≤ cut ∧ cut ≤ s.file.length ∧
      s' = { s with
        running := false
        file := s.file.take cut
        committed := s.surviving cut } := by
  unfold Engine.crash at hs
  split at hs
  · next hguard => exact ⟨hguard.1, hguard.2, (Option.some.inj hs).symm⟩
  · cases hs

theorem Leaves.crash (h : s.Leaves P) (hs : s.crash cut = some s') : s'.Leaves P := by
  obtain ⟨hle, hlen, rfl⟩ := crash_spec hs
  have hlength : (s.file.take cut).length = cut := by
    rw [List.length_take, Nat.min_eq_left hlen]
  exact
    { header_le := h.header_le
      durable_le := hle.trans_eq hlength.symm
      fins := by
        intro u hu
        show u.fin ≤ (s.file.take cut).length
        rw [hlength]
        simpa using (List.mem_filter.mp hu).2
      left := by
        intro m hm hmle
        replace hmle : m ≤ cut := hmle.trans_eq hlength
        have hsame : (s.surviving cut).filter (fun u => u.fin ≤ m) = s.surviving m := by
          unfold surviving
          rw [List.filter_filter]
          refine List.filter_congr fun u _ => ?_
          rw [← Bool.decide_and, decide_eq_decide]
          omega
        show P ((s.file.take cut).take m) (((s.surviving cut).filter _).map Committed.txn)
        rw [List.take_take, Nat.min_eq_left hmle, hsame]
        exact h.left m hm (hmle.trans hlen) }

theorem append_spec (hs : s.append t = some s') :
    s.running = true ∧ t.id < 2 ^ 64 ∧ t.wellFormed = true ∧ s.live.admits t.records = true ∧
      ∃ live, s.live.applyRecords t.records = .ok live ∧
        s' = { s with
          file := s.file ++ frames t.log
          used := t.id :: s.used
          live := live
          serial := s.serial + 1
          committed := s.committed ++
            [{ serial := s.serial, txn := t, fin := (s.file ++ frames t.log).length }] } := by
  unfold Engine.append at hs
  split at hs
  · next hguard =>
    obtain ⟨hrunning, -, -, hid, -, hwf, hadmits⟩ := hguard
    split at hs
    · next live hlive =>
      exact ⟨hrunning, hid, hwf, hadmits, live, hlive, (Option.some.inj hs).symm⟩
    · cases hs
  · cases hs

/-- After an append only the cuts behind the old end are new. -/
theorem Leaves.append (h : s.Leaves P) (hs : s.append t = some s')
    (hnew : ∀ n ≤ (frames t.log).length, P (s.file ++ (frames t.log).take n)
      (s.committed.map Committed.txn ++ if n < (frames t.log).length then [] else [t])) :
    s'.Leaves P := by
  obtain ⟨-, -, -, -, live, -, rfl⟩ := append_spec hs
  have hlen : (s.file ++ frames t.log).length = s.file.length + (frames t.log).length :=
    List.length_append
  exact
    { header_le := h.header_le
      durable_le := by
        show s.durable ≤ (s.file ++ frames t.log).length
        exact h.durable_le.trans (by omega)
      fins := by
        intro u hu
        show u.fin ≤ (s.file ++ frames t.log).length
        rcases List.mem_append.mp hu with hu | hu
        · exact (h.fins u hu).trans (by omega)
        · rw [List.mem_singleton.mp hu]
      left := by
        intro m hm hmle
        replace hmle : m ≤ (s.file ++ frames t.log).length := hmle
        show P ((s.file ++ frames t.log).take m) (((s.committed ++ [_]).filter _).map Committed.txn)
        rcases lt_or_ge m s.file.length with hlt | hge
        · rw [List.take_append_of_le_length (by omega), List.filter_append,
            List.filter_cons_of_neg (by simp; omega), List.filter_nil, List.append_nil]
          exact h.left m hm (by omega)
        · have hall : s.committed.filter (fun u => u.fin ≤ m) = s.committed :=
            surviving_of_le fun u hu => (h.fins u hu).trans hge
          have hpart := hnew (m - s.file.length) (by omega)
          rw [List.take_append, List.take_of_length_le hge, List.filter_append, hall]
          rcases lt_or_ge (m - s.file.length) (frames t.log).length with hcut | hfull
          · rw [if_pos hcut] at hpart
            rw [List.filter_cons_of_neg (by simp; omega), List.filter_nil, List.append_nil]
            simpa using hpart
          · rw [if_neg (by omega)] at hpart
            rw [List.filter_cons_of_pos (by simp; omega), List.filter_nil, List.map_append]
            exact hpart }

/-! ## Careful runs -/

/-- Redo of what is left ends, applies its transactions, and the catalog is sound. -/
def Redone (hangs : List Record → Record → Bool) (file : Bytes) (ts : List Txn) : Prop :=
  file.take 8 = header ∧ ∃ rs rest c, decodeWalRange false (file.drop 8) = .ok (rs, rest) ∧
    (redo rs).applied = ts.map Txn.records ∧ Ends hangs [] (ts.flatMap Txn.records) ∧
    Catalog.empty.applyRecords (ts.flatMap Txn.records) = .ok c ∧ c.Sound

theorem readAll_of_header {file : Bytes} (h : file.take 8 = header) :
    readAll file = (decodeWalRange false (file.drop 8)).map Prod.fst := by
  conv_lhs => rw [← List.take_append_drop 8 file, h]
  exact readAll_header _

theorem Redone.recovered {file : Bytes} {ts : List Txn} (h : Redone hangs file ts) :
    ∃ c, recovered file = .ok c ∧ c.Sound ∧
      Catalog.empty.applyRecords (ts.flatMap Txn.records) = .ok c := by
  obtain ⟨hhead, rs, rest, c, hscan, happlied, -, hc, hsound⟩ := h
  refine ⟨c, ?_, hsound, hc⟩
  rw [HenchDB.recovered, readAll_of_header hhead, hscan]
  show Catalog.empty.applyRecords (redo rs).applied.flatten = _
  rw [happlied, ← List.flatMap_def]
  exact hc

theorem Redone.redoEnds {file : Bytes} {ts : List Txn} (h : Redone hangs file ts) : RedoEnds hangs file := by
  obtain ⟨hhead, rs, rest, c, hscan, happlied, hends, -⟩ := h
  intro rs' hread
  rw [readAll_of_header hhead, hscan] at hread
  cases hread
  rwa [happlied, ← List.flatMap_def]

theorem Redone.append {file : Bytes} {ts : List Txn} (h : Redone hangs file ts) {c : Catalog}
    {rs : List Record} (hscan : decodeWalRange false (file.drop 8) = .ok (rs, []))
    (hpending : (redo rs).pending[t.id]? = none) (hwf : t.wellFormed = true)
    (hkept : ∀ r ∈ t.log, RecordKept r)
    (hends : Ends hangs (redo rs).applied.flatten t.records)
    (hc : Catalog.empty.applyRecords (ts.flatMap Txn.records) = .ok c)
    (hadmits : c.admits t.records = true) (n : Nat) :
    Redone hangs (file ++ (frames t.log).take n)
      (ts ++ if n < (frames t.log).length then [] else [t]) := by
  obtain ⟨hhead, rs', rest, c', hscan', happlied, hbefore, hc', hsound⟩ := h
  obtain ⟨rfl, rfl⟩ : rs = rs' ∧ [] = rest := by
    simpa using hscan.symm.trans hscan'
  cases hc.symm.trans hc'
  have hlong : 8 ≤ file.length := by
    rw [← length_header, ← hhead, List.length_take]
    exact Nat.min_le_right _ _
  obtain ⟨fuel, hfuel, hgo⟩ := (decodeWalRange_append ((frames t.log).take n)).2 rs [] hscan
  have hread := scan_take (fun r hr => (hkept r hr).reread) n
    ((length_wholeRecords_le t.log n).trans hfuel)
  refine ⟨by rwa [List.take_append_of_le_length hlong], rs ++ wholeRecords t.log n,
    tornBytes t.log n, ?_⟩
  rw [List.drop_append_of_le_length hlong, hgo, List.nil_append, hread, redo_append,
    run_whole hwf hpending, happlied]
  split
  · next hfull =>
    obtain ⟨c', hc', hsound'⟩ := hsound.applyRecords hadmits
    rw [if_neg (by omega), List.map_append, List.flatMap_append, Catalog.applyRecords_append, hc]
    refine ⟨c', rfl, rfl, hbefore.append ?_, ?_, hsound'⟩
    · rw [List.nil_append, List.flatMap_def, ← happlied]
      show Ends hangs _ (t.records ++ [])
      rwa [List.append_nil]
    · show c.applyRecords (t.records ++ []) = _
      rwa [List.append_nil]
  · next hcut =>
    rw [if_pos (by omega), List.append_nil]
    exact ⟨c, rfl, rfl, hbefore, hc, hsound⟩

/-- Every state of a careful run once the directory has a log. -/
structure Inv (hangs : List Record → Record → Bool) (s : Engine) : Prop extends Leaves (Redone hangs) s where
  live : s.running = true →
    Catalog.empty.applyRecords (s.committed.flatMap fun u => u.txn.records) = .ok s.live
  acked : ∀ n ∈ s.acked, ∃ u ∈ s.committed, u.serial = n ∧ u.fin ≤ s.durable

theorem Inv.recovers (h : s.Inv hangs) : s.Recovers hangs := by
  intro cut hdurable
  have hleft := h.at_cut hdurable
  obtain ⟨c, hrec, hsound, hc⟩ := hleft.recovered
  have hne : s.file.take cut ≠ [] := by
    have := h.header_le
    have := length_header
    have hlen := h.header_le.trans h.durable_le
    intro hnil
    have hnone := congrArg List.length hnil
    rw [List.length_take, List.length_nil] at hnone
    omega
  obtain ⟨c', hopen, hdb, htab⟩ := Catalog.openDb_ok hne hrec hsound
  refine ⟨hleft.redoEnds, c, c', hopen, by rwa [List.flatMap_map] at hc, hdb, htab, fun n hn => ?_⟩
  obtain ⟨u, hu, hserial, hfin⟩ := h.acked n hn
  exact ⟨u, List.mem_filter.mpr ⟨hu, by simpa using hfin.trans hdurable⟩, hserial⟩

theorem Inv.openRun (h : s.Inv hangs) (hs : s.openRun = some s') : s'.Inv hangs := by
  have hleaves := h.toLeaves.openRun hs
  obtain ⟨live, hlive, rfl⟩ := openRun_spec h.file_ne hs
  obtain ⟨c, hrec, -, hc⟩ := h.whole.recovered
  cases hrec.symm.trans hlive
  refine { toLeaves := hleaves, live := fun _ => by rwa [List.flatMap_map] at hc, acked := ?_ }
  intro n hn
  obtain ⟨u, hu, hserial, -⟩ := h.acked n hn
  exact ⟨u, hu, hserial, h.fins u hu⟩

theorem Inv.begin (h : s.Inv hangs) (hs : s.begin = some s') : s'.Inv hangs := by
  have hleaves := h.toLeaves.begin hs
  unfold Engine.begin at hs
  split at hs
  · cases hs
    exact { toLeaves := hleaves, live := h.live, acked := h.acked }
  · cases hs

theorem Inv.sync {upTo : Nat} (h : s.Inv hangs) (hs : s.sync upTo = some s') : s'.Inv hangs := by
  have hleaves := h.toLeaves.sync hs
  unfold Engine.sync at hs
  split at hs
  · next hguard =>
    cases hs
    refine { toLeaves := hleaves, live := h.live, acked := fun n hn => ?_ }
    obtain ⟨u, hu, hserial, hfin⟩ := h.acked n hn
    exact ⟨u, hu, hserial, hfin.trans hguard.2.1⟩
  · cases hs

theorem Inv.ack {i : Nat} (h : s.Inv hangs) (hs : s.ack i = some s') : s'.Inv hangs := by
  have hleaves := h.toLeaves.ack hs
  unfold Engine.ack at hs
  split at hs
  · next c hc =>
    split at hs
    · next hguard =>
      cases hs
      refine { toLeaves := hleaves, live := h.live, acked := fun n hn => ?_ }
      rcases List.mem_cons.mp hn with rfl | hn
      · exact ⟨c, List.mem_of_getElem? hc, rfl, hguard.2⟩
      · exact h.acked n hn
    · cases hs
  · cases hs

theorem Inv.crash (h : s.Inv hangs) (hs : s.crash cut = some s') : s'.Inv hangs := by
  have hleaves := h.toLeaves.crash hs
  obtain ⟨hle, -, rfl⟩ := crash_spec hs
  refine { toLeaves := hleaves, live := fun hrun => by (cases hrun), acked := fun n hn => ?_ }
  obtain ⟨u, hu, hserial, hfin⟩ := h.acked n hn
  exact ⟨u, List.mem_filter.mpr ⟨hu, by simpa using hfin.trans hle⟩, hserial, hfin⟩

theorem Inv.append (h : s.Inv hangs) (hs : s.append t = some s') (hcareful : s.Careful hangs t) :
    s'.Inv hangs := by
  obtain ⟨rs, hscan, hpending, hkept, hends⟩ := hcareful
  obtain ⟨hrunning, -, hwf, hadmits, live, hlive, heq⟩ := append_spec hs
  have hc := h.live hrunning
  have hleaves : s'.Leaves (Redone hangs) := h.toLeaves.append hs fun n _ =>
    h.whole.append hscan hpending hwf hkept hends (by rwa [List.flatMap_map]) hadmits n
  subst heq
  refine { toLeaves := hleaves, live := fun _ => ?_, acked := fun n hn => ?_ }
  · show Catalog.empty.applyRecords ((s.committed ++ [_]).flatMap _) = _
    rw [List.flatMap_append, Catalog.applyRecords_append, hc]
    show s.live.applyRecords (t.records ++ []) = _
    rwa [List.append_nil]
  · obtain ⟨u, hu, hserial, hfin⟩ := h.acked n hn
    exact ⟨u, List.mem_append_left _ hu, hserial, hfin⟩

/-! ## Unmixed runs -/

/-- What an open applies of what is left are its transactions, or the first of them
where the scan stops at torn bytes. -/
def Apart (file : Bytes) (ts : List Txn) : Prop :=
  file.take 8 = header ∧ ∀ rs rest, decodeWalRange false (file.drop 8) = .ok (rs, rest) →
    (redo rs).applied <+: ts.map (fun t => t.records.map readBack) ∧
    (rest = [] → (redo rs).applied = ts.map fun t => t.records.map readBack)

theorem Apart.append {file : Bytes} {ts : List Txn} (h : Apart file ts) (hwf : t.wellFormed = true)
    (hid : t.id < 2 ^ 64) (hsmall : ∀ r ∈ t.log, (encodePayload r).length < 2 ^ 32)
    (hunmixed : ∀ rs rest, decodeWalRange false (file.drop 8) = .ok (rs, rest) →
      (rest = [] → (redo rs).pending[t.id]? = none) ∧
      (rest ≠ [] → startsRecord (rest ++ frames t.log) = false)) (n : Nat) :
    Apart (file ++ (frames t.log).take n)
      (ts ++ if n < (frames t.log).length then [] else [t]) := by
  obtain ⟨hhead, happlied⟩ := h
  have hlong : 8 ≤ file.length := by
    rw [← length_header, ← hhead, List.length_take]
    exact Nat.min_le_right _ _
  refine ⟨by rwa [List.take_append_of_le_length hlong], fun out left hout => ?_⟩
  rw [List.drop_append_of_le_length hlong] at hout
  obtain ⟨herr, hok⟩ := @decodeWalRange_append false (file.drop 8) ((frames t.log).take n)
  cases hscan : decodeWalRange false (file.drop 8) with
  | error e =>
    rw [herr e hscan] at hout
    cases hout
  | ok x =>
    obtain ⟨rs, rest⟩ := x
    obtain ⟨hpre, hwhole⟩ := happlied rs rest hscan
    obtain ⟨hpending, htorn⟩ := hunmixed rs rest hscan
    obtain ⟨fuel, hfuel, hgo⟩ := hok rs rest hscan
    cases hy : scanFrames false fuel (rest ++ (frames t.log).take n) with
    | error e =>
      rw [hgo, hy] at hout
      cases hout
    | ok y =>
      rw [hgo, hy] at hout
      cases hout
      by_cases hrest : rest = []
      · subst hrest
        have hread : y.1 = _ := scan_take_ok hsmall n
          ((length_wholeRecords_le t.log n).trans hfuel) hy
        have hback : ∀ r ∈ t.log, (readBack r).txnOf = r.txnOf ∧ (readBack r).isCommit = r.isCommit :=
          fun r hr => readBack_head (by rwa [Txn.txnOf_log hwf hr])
        have heq : (redo (rs ++ y.1)).applied =
            (ts ++ if n < (frames t.log).length then [] else [t]).map
              fun t => t.records.map readBack := by
          rw [hread, redo_append, run_whole_map hwf hback (hpending rfl), hwhole rfl]
          split
          · rw [if_neg (by omega), List.map_append]
            rfl
          · rw [if_pos (by omega), List.append_nil]
        exact ⟨heq ▸ List.prefix_rfl, fun _ => heq⟩
      · obtain ⟨hnone, hleft⟩ : y.1 = [] ∧ y.2 = rest ++ (frames t.log).take n :=
          scan_of_not_startsRecord (htorn hrest) n hy
        rw [hnone, List.append_nil, List.map_append, hleft]
        exact ⟨hpre.trans (List.prefix_append _ _), fun hnil =>
          absurd (List.append_eq_nil_iff.mp hnil).1 hrest⟩

theorem Leaves.atomic (h : s.Leaves Apart) : s.Atomic := by
  intro cut hdurable rs hrs
  obtain ⟨hhead, happlied⟩ := h.at_cut hdurable
  rw [readAll_of_header hhead] at hrs
  cases hscan : decodeWalRange false ((s.file.take cut).drop 8) with
  | error e =>
    rw [hscan] at hrs
    cases hrs
  | ok x =>
    rw [hscan] at hrs
    cases hrs
    have hpre := (happlied x.1 x.2 hscan).1
    rwa [List.map_map] at hpre

/-! ## All runs -/

theorem recovered_header : recovered header = .ok Catalog.empty := by
  have hread : readAll header = .ok [] := by
    have hnone : readAll ((header ++ frames []).take header.length) = .ok (wholeRecords [] 0) := by
      rw [readAll_take (by simp) le_rfl, Nat.sub_self]
    simpa [frames, wholeRecords] using hnone
  rw [recovered, hread]
  rfl

/-- The first open of a new directory. -/
theorem openRun_start (hs : start.openRun = some s') :
    s' = { start with running := true, file := header, durable := header.length } := by
  have hfile : start.file.isEmpty = true := rfl
  unfold Engine.openRun at hs
  simp only [hfile, if_true, recovered_header] at hs
  split at hs
  · cases hs
  · split at hs
    · next live _ hlive =>
      cases hlive
      exact (Option.some.inj hs).symm
    · cases hs

theorem leaves_openRun_start (hs : start.openRun = some s') (hP : P header []) : s'.Leaves P := by
  rw [openRun_start hs]
  exact
    { header_le := le_rfl
      durable_le := le_rfl
      fins := by simp [start]
      left := fun m hm _ => by
        rw [List.take_of_length_le hm]
        exact hP }

/-- Nothing but an open, or a crash that cuts nothing, happens to a new directory. -/
theorem step_start {a : Action} (hs : start.step a = some s') :
    s' = start ∨ start.openRun = some s' := by
  cases a with
  | openRun => exact Or.inr hs
  | begin => cases hs
  | append t => simp [Engine.step, Engine.append, start] at hs
  | sync upTo => simp [Engine.step, Engine.sync, start] at hs
  | ack i => simp [Engine.step, Engine.ack, start] at hs
  | crash cut =>
    obtain ⟨-, hcut, rfl⟩ := crash_spec hs
    obtain rfl : cut = 0 := Nat.le_zero.mp hcut
    exact Or.inl rfl

theorem careful_reached (h : ReflTransGen (CarefulStep hangs) start s) : s = start ∨ s.Inv hangs := by
  refine Transition.invariant (P := fun s => s = start ∨ s.Inv hangs) (Or.inl rfl) ?_ h
  rintro a b (rfl | ha) ⟨x, hs, hcareful⟩
  · rcases step_start hs with rfl | hopen
    · exact Or.inl rfl
    · have hleaves := leaves_openRun_start (P := Redone hangs) hopen
        ⟨rfl, [], [], Catalog.empty, rfl, rfl, .nil, rfl, Catalog.sound_empty⟩
      rw [openRun_start hopen] at hleaves ⊢
      exact Or.inr { toLeaves := hleaves, live := fun _ => rfl, acked := by simp [start] }
  · refine Or.inr ?_
    cases x with
    | openRun => exact ha.openRun hs
    | begin => exact ha.begin hs
    | append t => exact ha.append hs (hcareful t rfl)
    | sync upTo => exact ha.sync hs
    | ack i => exact ha.ack hs
    | crash cut => exact ha.crash hs

theorem unmixed_reached (h : ReflTransGen UnmixedStep start s) :
    s = start ∨ s.Leaves Apart := by
  refine Transition.invariant (P := fun s => s = start ∨ s.Leaves Apart) (Or.inl rfl) ?_ h
  rintro a b (rfl | ha) ⟨x, hs, hunmixed⟩
  · rcases step_start hs with rfl | hopen
    · exact Or.inl rfl
    · refine Or.inr (leaves_openRun_start hopen ⟨rfl, fun rs rest hscan => ?_⟩)
      cases hscan
      exact ⟨List.prefix_rfl, fun _ => rfl⟩
  · refine Or.inr ?_
    cases x with
    | openRun => exact ha.openRun hs
    | begin => exact ha.begin hs
    | append t =>
      obtain ⟨-, hid, hwf, -⟩ := append_spec hs
      obtain ⟨hsmall, happart⟩ := hunmixed t rfl
      exact ha.append hs fun n _ => ha.whole.append hwf hid hsmall happart n
    | sync upTo => exact ha.sync hs
    | ack i => exact ha.ack hs
    | crash cut => exact ha.crash hs

theorem start_recovers : start.Recovers hangs := by
  intro cut _
  have hsome : header ≠ [] := by decide +kernel
  obtain ⟨c', hopen, hdb, htab⟩ := Catalog.openDb_ok hsome recovered_header Catalog.sound_empty
  have hempty : start.file.take cut = [] := by simp [start]
  refine ⟨fun rs hrs => ?_, Catalog.empty, c', ?_, rfl, hdb, htab, by simp [start]⟩
  · rw [hempty] at hrs
    cases hrs
  have hne : header.isEmpty = false := by decide +kernel
  rw [hempty, ← hopen, openDb, openDb, hne]
  rfl

theorem start_atomic : start.Atomic := by
  intro cut _ rs hrs
  have hempty : start.file.take cut = [] := by simp [start]
  rw [hempty] at hrs
  cases hrs

/-- In every sequence of runs and crashes whose appends are careful, every open
ends, succeeds and finds every acknowledged commit. -/
theorem careful_runs_recover (h : ReflTransGen (CarefulStep hangs) start s) : s.Recovers hangs := by
  rcases careful_reached h with rfl | hinv
  · exact start_recovers
  · exact hinv.recovers

/-- In every sequence of runs and crashes whose appends stay apart from what the log
holds, no open applies a record of a transaction without its `Commit` record. -/
theorem unmixed_runs_atomic (h : ReflTransGen UnmixedStep start s) : s.Atomic := by
  rcases unmixed_reached h with rfl | hleaves
  · exact start_atomic
  · exact hleaves.atomic

/-! ## Examples of runs -/

/-- Databases alone are redone, and no row. -/
def noneHangs : List Record → Record → Bool := fun _ _ => false

/-- `Careful` as a check. -/
def careful (s : Engine) (t : Txn) : Bool :=
  match decodeWalRange false (s.file.drop 8) with
  | .ok (rs, rest) => rest.isEmpty && (redo rs).pending[t.id]?.isNone && t.log.all recordKept
  | .error _ => false

/-- Follow a schedule as long as its appends are careful. -/
def carefulStep (a : Action) (s : Engine) : Option Engine :=
  match a with
  | .append t => if s.careful t then s.append t else none
  | a => s.step a

theorem carefulStep_spec (a : Action) (s s' : Engine) (h : carefulStep a s = some s') :
    s.CarefulStep noneHangs s' := by
  unfold carefulStep at h
  split at h
  · next t =>
    split at h
    · next hcareful =>
      refine ⟨.append t, h, fun t' ht' => ?_⟩
      cases ht'
      unfold careful at hcareful
      split at hcareful
      · next rs rest hscan =>
        simp only [Bool.and_eq_true, List.isEmpty_iff, Option.isNone_iff_eq_none,
          List.all_eq_true] at hcareful
        obtain ⟨⟨rfl, hpending⟩, hkept⟩ := hcareful
        exact ⟨rs, hscan, hpending, fun r hr => kept_of_recordKept (hkept r hr), fun _ _ _ _ => rfl⟩
      · cases hcareful
    · cases h
  · next hne => exact ⟨a, h, fun t ht => absurd ht (hne t)⟩

def createDb (id : Nat) (name : String) : Txn :=
  { id := id, records := [.createDatabase id name], ts := 0 }

/-- The first transaction is acknowledged, the second is cut in its first
record, and the next run opens what is left. -/
def tornSchedule : List Action :=
  [.openRun, .begin, .begin, .append (createDb 1 "a"), .sync 55, .ack 0,
    .append (createDb 2 "b"), .crash 60, .openRun]

theorem tornSchedule_runs :
    (Transition.exec carefulStep (fun _ => true) tornSchedule start).map
      (fun s => (s.acked, s.file.length)) = some ([0], 60) := by
  decide +kernel

theorem careful_reaches {cs : List Action}
    (h : Transition.exec carefulStep (fun _ => true) cs start = some s) :
    ReflTransGen (CarefulStep noneHangs) start s :=
  Transition.exec_runs carefulStep_spec h

theorem steps_reaches {cs : List Action}
    (h : Transition.exec (fun a s => s.step a) (fun _ => true) cs start = some s) :
    ReflTransGen Steps start s :=
  Transition.exec_runs (fun a _ _ ha => ⟨a, ha⟩) h

theorem careful_runs_recover_torn :
    ∃ s : Engine, ReflTransGen (CarefulStep noneHangs) start s ∧ s.acked = [0] ∧
      s.file.length = 60 ∧ s.Recovers noneHangs := by
  obtain ⟨s, hexec, hends⟩ := Option.map_eq_some_iff.mp tornSchedule_runs
  simp only [Prod.mk.injEq] at hends
  exact ⟨s, careful_reaches hexec, hends.1, hends.2, careful_runs_recover (careful_reaches hexec)⟩

/-- `Unmixed` as a check. -/
def unmixed (s : Engine) (t : Txn) : Bool :=
  (t.log.all fun r => (encodePayload r).length < 2 ^ 32) &&
    match decodeWalRange false (s.file.drop 8) with
    | .ok (rs, rest) =>
      if rest.isEmpty then (redo rs).pending[t.id]?.isNone else !startsRecord (rest ++ frames t.log)
    | .error _ => true

/-- Follow a schedule as long as its appends are unmixed. -/
def unmixedStep (a : Action) (s : Engine) : Option Engine :=
  match a with
  | .append t => if s.unmixed t then s.append t else none
  | a => s.step a

theorem unmixedStep_spec (a : Action) (s s' : Engine) (h : unmixedStep a s = some s') :
    s.UnmixedStep s' := by
  unfold unmixedStep at h
  split at h
  · next t =>
    split at h
    · next hunmixed =>
      refine ⟨.append t, h, fun t' ht' => ?_⟩
      cases ht'
      rw [unmixed, Bool.and_eq_true] at hunmixed
      obtain ⟨hsmall, hscan⟩ := hunmixed
      refine ⟨by simpa using hsmall, fun rs rest hrun => ?_⟩
      rw [hrun] at hscan
      constructor
      · rintro rfl
        simpa using hscan
      · intro hrest
        simpa [hrest] using hscan
    · cases h
  · next hne => exact ⟨a, h, fun t ht => absurd ht (hne t)⟩

/-- A table with a `BOOL` column, which comes back as `BIGINT`. -/
def createFlags (id : Nat) : Txn where
  id := id
  records :=
    [.createTable id
      { name := "t"
        schema :=
          { columns :=
              [{ name := "id", ctype := .int, nullable := false, autoIncrement := false,
                 defaultValue := none },
               { name := "b", ctype := .bool, nullable := true, autoIncrement := false,
                 defaultValue := none }]
            pkIdx := 0 }
        indexes := []
        foreignKeys := []
        stats := none }]
  ts := 0

/-- A table that is not read back as it is written is acknowledged; the second
transaction loses its `Commit` record, and the next run commits under another id; a
crash tears that record, and the last run appends behind the torn bytes. -/
def flagSchedule : List Action :=
  [.openRun, .begin, .begin, .append (createFlags 1), .sync 91, .ack 0,
    .append (createDb 2 "b"), .crash 113, .openRun, .begin, .append (createDb 1 "c"),
    .crash 125, .openRun, .begin, .append (createDb 1 "d")]

theorem flagSchedule_runs :
    (Transition.exec unmixedStep (fun _ => true) flagSchedule start).map
      (fun s => (s.acked, s.file.length, s.committed.map fun u => u.txn.id)) =
        some ([0], 172, [1, 1]) := by
  decide +kernel

theorem unmixed_runs_atomic_flags :
    ∃ s : Engine, ReflTransGen UnmixedStep start s ∧ s.acked = [0] ∧ s.file.length = 172 ∧
      (s.committed.map fun u => u.txn.id) = [1, 1] ∧ s.Atomic := by
  obtain ⟨s, hexec, hends⟩ := Option.map_eq_some_iff.mp flagSchedule_runs
  simp only [Prod.mk.injEq] at hends
  have hruns : ReflTransGen UnmixedStep start s := Transition.exec_runs unmixedStep_spec hexec
  exact ⟨s, hruns, hends.1, hends.2.1, hends.2.2, unmixed_runs_atomic hruns⟩

/-- A crash tears the first transaction; the next run appends and acknowledges
a transaction behind the torn bytes. -/
def behindTorn : List Action :=
  [.openRun, .begin, .append (createDb 1 "a"), .crash 20, .openRun, .begin,
    .append (createDb 1 "b"), .sync 67, .ack 0]

theorem behindTorn_fails :
    (Transition.exec (fun a s => s.step a) (fun _ => true) behindTorn start).map
      (fun s => (s.acked, (openDb s.file).toOption.isSome)) = some ([1], false) := by
  decide +kernel

/-- The open after the next crash fails, although a commit was acknowledged. -/
theorem open_fails_behind_torn :
    ¬ ∀ s : Engine, ReflTransGen Steps start s → s.Recovers noneHangs := by
  intro hrecovers
  obtain ⟨s, hexec, hends⟩ := Option.map_eq_some_iff.mp behindTorn_fails
  simp only [Prod.mk.injEq] at hends
  obtain ⟨-, c, c', hopen, -⟩ := hrecovers s (steps_reaches hexec) (s.durable + s.file.length)
    (Nat.le_add_right _ _)
  rw [List.take_of_length_le (Nat.le_add_left _ _)] at hopen
  rw [hopen] at hends
  cases hends.2

/-- A crash leaves the record of a transaction without its `Commit`; the next
run commits a transaction under the same id. -/
def reusedId : List Action :=
  [.openRun, .begin, .append (createDb 1 "a"), .crash 30, .openRun, .begin,
    .append (createDb 1 "c")]

theorem reusedId_mixes :
    (Transition.exec (fun a s => s.step a) (fun _ => true) reusedId start).map
      (fun s => ((readAll s.file).toOption.map fun rs => (redo rs).applied.map List.length,
        s.committed.map fun u => u.txn.records.length)) = some (some [2], [1]) := by
  decide +kernel

/-- Redo applies the record of the transaction that never committed. -/
theorem dangling_record_applied :
    ¬ ∀ s : Engine, ReflTransGen Steps start s → s.Atomic := by
  intro hatomic
  obtain ⟨s, hexec, hends⟩ := Option.map_eq_some_iff.mp reusedId_mixes
  simp only [Prod.mk.injEq] at hends
  obtain ⟨hread, hcommitted⟩ := hends
  obtain ⟨rs, hrs, hlens⟩ := Option.map_eq_some_iff.mp hread
  have hok : readAll s.file = .ok rs := by
    cases hr : readAll s.file with
    | error e => rw [hr] at hrs; cases hrs
    | ok rs' => rw [hr] at hrs; rw [Option.some.inj hrs]
  have hfile : s.file.take (s.durable + s.file.length) = s.file :=
    List.take_of_length_le (Nat.le_add_left _ _)
  have happlied := hatomic s (steps_reaches hexec) (s.durable + s.file.length)
    (Nat.le_add_right _ _) rs (by rw [hfile]; exact hok)
  -- Every batch would have the length of a committed transaction.
  have hone : ∀ u ∈ s.committed, u.txn.records.length = 1 := by
    intro u hu
    have := List.mem_map_of_mem (f := fun u : Committed => u.txn.records.length) hu
    rw [hcommitted] at this
    exact List.mem_singleton.mp this
  obtain ⟨batch, hbatch, hlen⟩ : ∃ batch ∈ (redo rs).applied, batch.length = 2 :=
    List.mem_map.mp (by rw [hlens]; simp)
  obtain ⟨u, hu, rfl⟩ := List.mem_map.mp (happlied.subset hbatch)
  have := hone u (List.mem_filter.mp hu).1
  rw [List.length_map] at hlen
  omega

end Engine

end HenchDB.Wal
