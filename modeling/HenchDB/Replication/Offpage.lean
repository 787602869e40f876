import HenchDB.Pool.Store

/-!
# Rows in the page file

A row that is too wide for its tree is in the page file, and the tree has a locator in its
place.  `decode_stored` follows the locator: what it reads is what is live in the pool
(`returns_decodeStored`), so it depends on the page file that the pool has.
-/

namespace HenchDB.Replica

open Codec Program Pool

/-! ## Stored values -/

def locatorTag : UInt8 := 0xFF

def locatorMagic : UInt8 := 80

def locatorLen : Nat := 14

/-- `Locator::encode`. -/
def encodeLocator (x : Frag) : Bytes :=
  locatorTag :: locatorMagic :: (leBytes 8 x.1 ++ leBytes 4 x.2)

def isLocator (buf : Bytes) : Bool :=
  buf.length = locatorLen && buf.take 2 = [locatorTag, locatorMagic]

/-- `Locator::decode`. -/
def decodeLocator (buf : Bytes) : Except Error Frag :=
  if isLocator buf then .ok (leValue ((buf.drop 2).take 8), leValue (buf.drop 10))
  else .error (.corrupted "bad overflow locator")

def maxInlineRow : Nat := 1024

/-- The outcome of a step that has no state. -/
def settle {σ α : Type} : Except Fault α → Prog σ Fault α
  | .ok a => pure a
  | .error e => throw e

/-- `Table::resolve_value` of a table with a pool, in the epoch `current`. -/
def resolveValue (current : Nat) (raw : Bytes) : PoolM Bytes :=
  if isLocator raw then do load current (← lift (decodeLocator raw)) else pure raw

/-- `Table::decode_stored` of a table with a pool. -/
def decodeStored (current : Nat) (t : Table) (raw : Bytes) : PoolM (List Datum) := do
  let full ← resolveValue current raw
  lift (decodeRow t.schema full)

/-! ## Programs of the pool that only read -/

section
variable {α β : Type} {s s' : Inner}

variable {a : α}

theorem of_lift {x : Except Error α} (h : Returns (lift x) s a s') :
    x = .ok a ∧ s' = s := by
  cases x with
  | error e => cases h
  | ok b =>
    cases h
    exact ⟨rfl, rfl⟩

theorem of_settle {σ : Type} {x : Except Fault α} {s s' : σ} (h : Returns (settle x) s a s') :
    x = .ok a ∧ s' = s := by
  cases x with
  | error e => cases h
  | ok b =>
    cases h
    exact ⟨rfl, rfl⟩

theorem returns_settle {σ : Type} {x : Except Fault α} (h : x = .ok a) (s : σ) :
    Returns (settle x) s a s := by
  rw [h]
  exact returns_pure a s

/-- Nothing happens to the records. -/
def Calmly (m : PoolM α) : Prop := ∀ s, Pool.Inv s → Calm s (exec m s).2

theorem Calmly.returns {m : PoolM α} (hm : Calmly m) (h : Pool.Inv s) (hrun : Returns m s a s') :
    Calm s s' := by
  have hcalm := hm s h
  rwa [show exec m s = (.ok a, s') from hrun] at hcalm

theorem Calmly.pure (a : α) : Calmly (pure a) := fun _ h => .refl h

theorem Calmly.throw (e : Fault) : Calmly (throw e : PoolM α) := fun _ h => .refl h

theorem Calmly.bind {m : PoolM α} {f : α → PoolM β} (hm : Calmly m) (hf : ∀ a, Calmly (f a)) :
    Calmly (m >>= f) := by
  intro s h
  have hcalm := hm s h
  obtain ⟨r, s', hrun⟩ : ∃ r s', exec m s = (r, s') := ⟨_, _, rfl⟩
  rw [hrun] at hcalm
  cases r with
  | error e =>
    rw [show exec (m >>= f) s = (.error e, s') from Fails.bind hrun]
    exact hcalm
  | ok a =>
    rw [exec_bind_ok hrun]
    exact hcalm.trans (hf a s' hcalm.inv)

theorem Calmly.lift (x : Except Error α) : Calmly (lift x) := by
  cases x with
  | ok a => exact .pure a
  | error e => exact .throw _

theorem Calmly.settle (x : Except Fault α) : Calmly (settle x) := by
  cases x with
  | ok a => exact .pure a
  | error e => exact .throw e

theorem Calmly.foldlM {f : β → α → PoolM β} (h : ∀ b a, Calmly (f b a)) :
    ∀ (l : List α) (b : β), Calmly (l.foldlM f b)
  | [], b => .pure b
  | a :: l, b => by
    rw [List.foldlM_cons]
    exact (h b a).bind fun b => foldlM h l b

theorem Calmly.load (current : Nat) (x : Frag) : Calmly (load current x) := by
  intro s h
  obtain ⟨r, s', hrun, hcalm⟩ := load_calm h current x
  rw [hrun]
  exact hcalm

end

/-! ## What a stored value stands for -/

/-- A value stands for itself, or for what is live under its locator. -/
inductive Stands (live : Frag → Option Bytes) : Bytes → Bytes → Prop
  | inline {raw} : isLocator raw = false → Stands live raw raw
  | paged {raw x full} : decodeLocator raw = .ok x → live x = some full →
      maxInlineRow < full.length → Stands live raw full

section
variable {s s' : Inner} {live : Frag → Option Bytes} {chain : Frag → List Frag}
  {raw full key : Bytes} {t t' : Table} {current : Nat}

theorem Calmly.resolveValue (current : Nat) (raw : Bytes) : Calmly (resolveValue current raw) := by
  rw [Replica.resolveValue]
  split
  · exact (Calmly.lift _).bind fun x => .load current x
  · exact .pure raw

theorem Calmly.decodeStored (current : Nat) (t : Table) (raw : Bytes) :
    Calmly (decodeStored current t raw) := (Calmly.resolveValue current raw).bind fun _ => .lift _

theorem isLocator_of_decode {x : Frag} (h : decodeLocator raw = .ok x) : isLocator raw = true := by
  rw [decodeLocator] at h
  split at h
  · next hloc => exact hloc
  · cases h

theorem returns_resolveValue (h : Kept s live chain) (hstands : Stands live raw full)
    (current : Nat) : ∃ s', Returns (resolveValue current raw) s full s' := by
  cases hstands with
  | inline hloc =>
    refine ⟨s, ?_⟩
    rw [resolveValue, hloc]
    exact returns_pure _ s
  | @paged x _ hdecode hlive _ =>
    obtain ⟨s', hload⟩ := load_holds h.inv (h.holds hlive) (h.settled hlive) (h.short hlive)
      (h.small hlive) current
    refine ⟨s', ?_⟩
    rw [resolveValue, isLocator_of_decode hdecode, if_pos rfl]
    exact (returns_lift hdecode s).bind hload

def StoredRow (live : Frag → Option Bytes) (t : Table) (key raw : Bytes) (row : List Datum) :
    Prop :=
  ∃ full, Stands live raw full ∧ decodeRow t.schema full = .ok row ∧ t.keyOf row = .ok key

variable {row : List Datum}

theorem returns_decodeStored (h : Kept s live chain) (hrow : StoredRow live t key raw row)
    (current : Nat) :
    ∃ s', Returns (decodeStored current t raw) s row s' := by
  obtain ⟨full, hstands, hdecode, -⟩ := hrow
  obtain ⟨s', hresolve⟩ := returns_resolveValue h hstands current
  exact ⟨s', hresolve.bind (returns_lift hdecode s')⟩

/-- What a value stands for depends on the schema of the table. -/
theorem StoredRow.congr (h : StoredRow live t key raw row) (hschema : t'.schema = t.schema) :
    StoredRow live t' key raw row := by
  obtain ⟨full, hstands, hdecode, hkey⟩ := h
  refine ⟨full, hstands, ?_, ?_⟩
  · rw [hschema]
    exact hdecode
  · rw [Table.keyOf, hschema]
    exact hkey

/-- A value that is in its place stands for itself in every pool. -/
theorem StoredRow.inline {live' : Frag → Option Bytes} (h : StoredRow live t key raw row)
    (hloc : isLocator raw = false) :
    StoredRow live' t key raw row := by
  obtain ⟨full, hstands, hdecode, hkey⟩ := h
  cases hstands with
  | inline _ => exact ⟨raw, .inline hloc, hdecode, hkey⟩
  | paged hx _ _ =>
    rw [isLocator_of_decode hx] at hloc
    cases hloc

/-- A pool opened on the page file has the same live values. -/
theorem Kept.reopened (h : Kept s live chain) {frames : Nat} (hframes : frames ≠ 0) :
    Kept (.opened s.file frames) live chain where
  inv := inv_opened h.inv.file hframes
  holds hx := (h.holds hx).congr fun y _ => record_congr rfl y
  settled hx y hy hwait := by
    rcases hwait with hwait | hwait
    · cases hwait
    · cases hwait
  short := h.short
  small := h.small
  apart := h.apart

end

/-! ## A new page file -/

section
variable {raw : Bytes} {t : Table} {current : Nat} {s' : Inner}

def newPool : Inner := .opened .fresh 1

theorem inv_newPool : Pool.Inv newPool := inv_opened fileOk_fresh Nat.one_ne_zero

/-- Nothing is live in it. -/
theorem kept_newPool : Kept newPool (fun _ => none) fun _ => [] where
  inv := inv_newPool
  holds hx := by cases hx
  settled hx := by cases hx
  short hx := by cases hx
  small hx := by cases hx
  apart _ hx := by cases hx

theorem load_newPool (current : Nat) (x : Frag) : ∃ e s', Fails (load current x) newPool e s' := by
  have hreclaim : Returns (reclaimQuarantine current) newPool ⟨⟩ newPool :=
    (returns_get _).bind ((returns_modify _ _).bind (returns_pure _ _))
  have hout : ¬ InFile newPool.file x.1 := by
    rintro ⟨hpos, hlt⟩
    exact hpos (Nat.lt_one_iff.mp hlt)
  obtain ⟨e, s', hfail, -⟩ := fixPage_fails inv_newPool hout
  exact ⟨e, s', hreclaim.bind_fails (Fails.bind hfail)⟩

theorem decodeStored_newPool {row : List Datum}
    (h : Returns (decodeStored current t raw) newPool row s') : isLocator raw = false ∧
      s' = newPool := by
  obtain ⟨full, s1, hresolve, h⟩ := Returns.of_bind h
  obtain ⟨-, rfl⟩ := of_lift h
  rw [resolveValue] at hresolve
  split at hresolve
  · obtain ⟨x, s2, hdecode, hload⟩ := Returns.of_bind hresolve
    obtain ⟨-, rfl⟩ := of_lift hdecode
    obtain ⟨e, s3, hfail⟩ := load_newPool current x
    exact absurd hfail (Returns.not_fails hload)
  · next hloc =>
    cases hresolve
    exact ⟨Bool.eq_false_iff.mpr hloc, rfl⟩

end

end HenchDB.Replica
