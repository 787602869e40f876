import HenchDB.Lib.Codec
import HenchDB.Lib.Program

/-!
# Decoders at a position

A decoder reads a byte buffer at a position that it keeps in a machine word.  It
returns a value, refuses the input, or crashes: a sum of positions may not fit the
word, and an index or a slice may lie outside the buffer.

`Safe m p` says that `m` does not crash from `p`, and `Advances buf m p` that it
leaves the position where it was or moves it forward inside the buffer.  The rules
are equivalences, so the exact condition is computed along the text of a decoder.
-/

namespace Cursor

open Program Codec

variable {ε ε' α β : Type}

/-- Bytes that an allocation can hold. -/
structure Buffer where
  bytes : List UInt8
  allocated : bytes.length < 2 ^ 63

inductive Crash where
  | overflow
  | range
deriving DecidableEq, Repr

/-- Why a decoder has no value. -/
inductive Stop (ε : Type) where
  | refuse (e : ε)
  | crash (c : Crash)
deriving DecidableEq, Repr

/-- Decoders; the state is the position. -/
abbrev Reader (ε α : Type) := Prog Nat (Stop ε) α

def refuse (e : ε) : Reader ε α := throw (.refuse e)

/-- A sum in a machine word. -/
def add (a b : Nat) : Reader ε Nat :=
  if a + b < 2 ^ 64 then pure (a + b) else throw (.crash .overflow)

/-- A product in a machine word. -/
def mul (a b : Nat) : Reader ε Nat :=
  if a * b < 2 ^ 64 then pure (a * b) else throw (.crash .overflow)

def byteAt (buf : Buffer) (i : Nat) : Reader ε UInt8 :=
  match buf.bytes[i]? with
  | some b => pure b
  | none => throw (.crash .range)

/-- The bytes from `i` to `j`, as a buffer of their own. -/
def Buffer.part (buf : Buffer) (i j : Nat) : Buffer :=
  ⟨(buf.bytes.drop i).take (j - i), by
    have := buf.allocated
    rw [List.length_take, List.length_drop]
    omega⟩

@[simp]
theorem Buffer.length_part (buf : Buffer) (i j : Nat) :
    (buf.part i j).bytes.length = min (j - i) (buf.bytes.length - i) := by
  simp [Buffer.part]

def slice (buf : Buffer) (i j : Nat) : Reader ε Buffer :=
  if i ≤ j ∧ j ≤ buf.bytes.length then pure (buf.part i j) else throw (.crash .range)

/-- The position moves on by `n`. -/
def advance (n : Nat) : Reader ε PUnit := do
  set (← add (← get) n)

/-- A refusal gets another reason. -/
def orRefuse (m : Reader ε α) (e : ε') : Reader ε' α := fun p =>
  match exec m p with
  | (.ok a, q) => (.ok a, q)
  | (.error (.refuse _), q) => (.error (.refuse e), q)
  | (.error (.crash c), q) => (.error (.crash c), q)

/-- A refusal becomes a default. -/
def orElse (m : Reader ε α) (a : α) : Reader ε' α := fun p =>
  match exec m p with
  | (.ok b, q) => (.ok b, q)
  | (.error (.refuse _), q) => (.ok a, q)
  | (.error (.crash c), q) => (.error (.crash c), q)

theorem exec_orRefuse (m : Reader ε α) (e : ε') (p : Nat) : exec (orRefuse m e) p =
    (match (exec m p).1 with
      | .ok a => .ok a
      | .error (.refuse _) => .error (.refuse e)
      | .error (.crash c) => .error (.crash c), (exec m p).2) := by
  show orRefuse m e p = _
  rw [orRefuse]
  split <;> (rename_i h; rw [h])

theorem exec_orElse (m : Reader ε α) (a : α) (p : Nat) : exec (orElse m a : Reader ε' α) p =
    (match (exec m p).1 with
      | .ok b => .ok b
      | .error (.refuse _) => .ok a
      | .error (.crash c) => .error (.crash c), (exec m p).2) := by
  show orElse m a p = _
  rw [orElse]
  split <;> (rename_i h; rw [h])

/-! ## Values -/

variable {p q b n a i : Nat} {buf : Buffer} {stop : Option Nat}

variable {m : Reader ε α} {f : α → Reader ε β}

/-- A decoder has one outcome. -/
theorem returns_iff {q' : Nat} {a b : α} (h : Returns m p a q) :
    Returns m p b q' ↔ b = a ∧ q' = q := by
  rw [Returns, show exec m p = _ from h]
  simp [eq_comm]

@[simp]
theorem returns_pure_iff {a b : α} :
    Returns (pure a : Reader ε α) p b q ↔ b = a ∧ q = p := by
  constructor
  · rintro ⟨⟩
    exact ⟨rfl, rfl⟩
  · rintro ⟨rfl, rfl⟩
    exact returns_pure b q

@[simp]
theorem not_returns_throw {e : Stop ε} {b : α} :
    ¬ Returns (throw e : Reader ε α) p b q := by
  rintro ⟨⟩

@[simp]
theorem not_returns_refuse {e : ε} {b : α} :
    ¬ Returns (refuse e : Reader ε α) p b q := not_returns_throw

@[simp]
theorem returns_get_iff :
    Returns (get : Reader ε Nat) p b q ↔ b = p ∧ q = p := returns_pure_iff

@[simp]
theorem returns_set_iff {b : PUnit} :
    Returns (set n : Reader ε PUnit) p b q ↔ q = n := by
  constructor
  · rintro ⟨⟩
    rfl
  · rintro rfl
    rfl

/-- What a program returns comes from what its parts return. -/
theorem returns_bind_iff {b : β} :
    Returns (m >>= f) p b q ↔ ∃ a r, Returns m p a r ∧ Returns (f a) r b q := by
  constructor
  · intro h
    cases hm : exec m p with
    | mk r p' =>
      cases r with
      | ok a => exact ⟨a, p', hm, (exec_bind_ok hm).symm.trans h⟩
      | error e =>
        have hstop : exec (m >>= f) p = (.error e, p') := Fails.bind hm
        rw [Returns, hstop] at h
        cases h
  · rintro ⟨a, r, h, h'⟩
    exact h.bind h'

/-- Two parts in a row fail where the first does, or behind it where the second does. -/
theorem fails_bind_iff {e : Stop ε} :
    Fails (m >>= f) p e q ↔ Fails m p e q ∨ ∃ a r, Returns m p a r ∧ Fails (f a) r e q := by
  cases hm : exec m p with
  | mk r p' =>
    cases r with
    | ok a =>
      have hrun : exec (m >>= f) p = exec (f a) p' := exec_bind_ok hm
      simp [Fails, Returns, hrun, hm]
    | error e' =>
      have hrun : exec (m >>= f) p = (.error e', p') := Fails.bind hm
      simp [Fails, Returns, hrun, hm]

theorem returns_map_iff {f : α → β} {b : β} :
    Returns (f <$> m) p b q ↔ ∃ a, Returns m p a q ∧ b = f a := by
  rw [← bind_pure_comp, returns_bind_iff]
  simp

@[simp]
theorem returns_add_iff {c : Nat} :
    Returns (add a b : Reader ε Nat) p c q ↔ c = a + b ∧ q = p ∧ a + b < 2 ^ 64 := by
  rw [add]
  split <;> simp_all

@[simp]
theorem returns_mul_iff {c : Nat} :
    Returns (mul a b : Reader ε Nat) p c q ↔ c = a * b ∧ q = p ∧ a * b < 2 ^ 64 := by
  rw [mul]
  split <;> simp_all

@[simp]
theorem returns_byteAt_iff {b : UInt8} :
    Returns (byteAt buf i : Reader ε UInt8) p b q ↔ q = p ∧ buf.bytes[i]? = some b := by
  rw [byteAt]
  cases buf.bytes[i]? with
  | none => simp
  | some b' => simp [eq_comm, and_comm]

@[simp]
theorem returns_slice_iff {part : Buffer} {j : Nat} :
    Returns (slice buf i j : Reader ε Buffer) p part q ↔
      part = buf.part i j ∧ q = p ∧ i ≤ j ∧ j ≤ buf.bytes.length := by
  rw [slice]
  split <;> simp_all

@[simp]
theorem returns_advance_iff {b : PUnit} :
    Returns (advance n : Reader ε PUnit) p b q ↔ q = p + n ∧ p + n < 2 ^ 64 := by
  simp [advance, returns_bind_iff]

@[simp]
theorem returns_orRefuse_iff {e : ε'} {b : α} :
    Returns (orRefuse m e) p b q ↔ Returns m p b q := by
  rw [Returns, Returns, exec_orRefuse]
  cases exec m p with
  | mk r q' => rcases r with (e | c) | a <;> simp

@[simp]
theorem returns_ite_iff {c : Prop} [Decidable c] {m' : Reader ε α} {b : α} :
    Returns (if c then m else m') p b q ↔ (c ∧ Returns m p b q) ∨ (¬ c ∧ Returns m' p b q) := by
  split <;> simp_all

/-- With a default the position stays where the refusal left it. -/
theorem returns_orElse_iff {a : α} {b : α} :
    Returns (orElse m a : Reader ε' α) p b q ↔
      Returns m p b q ∨ (b = a ∧ ∃ e, Fails m p (.refuse e) q) := by
  rw [Returns, Returns, exec_orElse]
  cases hm : exec m p with
  | mk r q' => rcases r with (e | c) | a' <;> simp [Fails, hm, eq_comm]

/-! ## Crashes -/

def Safe (m : Reader ε α) (p : Nat) : Prop := ∀ c, (exec m p).1 ≠ .error (.crash c)

theorem safe_iff : Safe m p ↔ ∀ c q, ¬ Fails m p (.crash c) q := by
  simp [Safe, Fails, Prod.ext_iff]

theorem safe_of_returns {a : α} (h : Returns m p a q) : Safe m p := by
  intro c hc
  rw [show exec m p = _ from h] at hc
  cases hc

@[simp]
theorem safe_pure (a : α) (p : Nat) : Safe (pure a : Reader ε α) p := by
  rintro c ⟨⟩

@[simp]
theorem safe_refuse (e : ε) (p : Nat) : Safe (refuse e : Reader ε α) p := by
  rintro c ⟨⟩

@[simp]
theorem not_safe_crash (c : Crash) (p : Nat) : ¬ Safe (throw (.crash c) : Reader ε α) p :=
  fun h => h c rfl

@[simp]
theorem safe_get (p : Nat) : Safe (get : Reader ε Nat) p := safe_pure p p

@[simp]
theorem safe_set (n p : Nat) : Safe (set n : Reader ε PUnit) p := by
  rintro c ⟨⟩

/-- Two parts in a row crash only where one of them does. -/
theorem safe_bind_iff :
    Safe (m >>= f) p ↔ Safe m p ∧ ∀ a q, Returns m p a q → Safe (f a) q := by
  simp only [safe_iff, fails_bind_iff]
  grind

@[simp]
theorem safe_map_iff {f : α → β} : Safe (f <$> m) p ↔ Safe m p := by
  rw [← bind_pure_comp, safe_bind_iff]
  simp

@[simp]
theorem safe_ite_iff {c : Prop} [Decidable c] {m' : Reader ε α} :
    Safe (if c then m else m') p ↔ (c → Safe m p) ∧ (¬ c → Safe m' p) := by
  split <;> simp_all

@[simp]
theorem safe_add_iff : Safe (add a b : Reader ε Nat) p ↔ a + b < 2 ^ 64 := by
  rw [add]
  split <;> simp_all

@[simp]
theorem safe_mul_iff : Safe (mul a b : Reader ε Nat) p ↔ a * b < 2 ^ 64 := by
  rw [mul]
  split <;> simp_all

@[simp]
theorem safe_byteAt_iff :
    Safe (byteAt buf i : Reader ε UInt8) p ↔ i < buf.bytes.length := by
  rw [byteAt]
  split
  · rename_i h
    have hi := (List.getElem?_eq_some_iff.1 h).1
    simpa using hi
  · simp_all

@[simp]
theorem safe_slice_iff {j : Nat} :
    Safe (slice buf i j : Reader ε Buffer) p ↔ i ≤ j ∧ j ≤ buf.bytes.length := by
  rw [slice]
  split <;> simp_all

@[simp]
theorem safe_advance_iff : Safe (advance n : Reader ε PUnit) p ↔ p + n < 2 ^ 64 := by
  simp [advance, safe_bind_iff]

@[simp]
theorem safe_orRefuse_iff {e : ε'} :
    Safe (orRefuse m e) p ↔ Safe m p := by
  rw [Safe, Safe, exec_orRefuse]
  rcases (exec m p).1 with (e | c) | a <;> simp

@[simp]
theorem safe_orElse_iff {a : α} :
    Safe (orElse m a : Reader ε' α) p ↔ Safe m p := by
  rw [Safe, Safe, exec_orElse]
  rcases (exec m p).1 with (e | c) | a <;> simp

/-- With a default, a decoder that does not crash returns. -/
theorem exists_returns_orElse {m : Reader ε α} {p : Nat} (h : Safe m p) (a : α) :
    ∃ b q, Returns (orElse m a : Reader ε' α) p b q := by
  rcases hm : exec m p with ⟨(e | c) | b, q⟩
  · exact ⟨a, q, returns_orElse_iff.2 (.inr ⟨rfl, e, hm⟩)⟩
  · exact absurd (by rw [hm]) (h c)
  · exact ⟨b, q, returns_orElse_iff.2 (.inl hm)⟩

/-! ## Refusals -/

/-- Where the decoder refuses, it leaves a position with the property. -/
def Refuses (P : Nat → Prop) (m : Reader ε α) (p : Nat) : Prop :=
  ∀ e q, Fails m p (.refuse e) q → P q

section Refuses

variable {P : Nat → Prop} {p : Nat}

variable {m : Reader ε α}

theorem refuses_of_returns {a : α} (h : Returns m p a q) :
    Refuses P m p := by
  intro e r hr
  rw [Fails, show exec m p = _ from h] at hr
  cases hr

@[simp]
theorem refuses_pure (a : α) : Refuses P (pure a : Reader ε α) p := by
  rintro e q ⟨⟩

@[simp]
theorem refuses_refuse_iff {e : ε} : Refuses P (refuse e : Reader ε α) p ↔ P p := by
  constructor
  · intro h
    exact h e p rfl
  · rintro h e' q ⟨⟩
    exact h

@[simp]
theorem refuses_crash (c : Crash) : Refuses P (throw (.crash c) : Reader ε α) p := by
  rintro e q ⟨⟩

@[simp]
theorem refuses_get : Refuses P (get : Reader ε Nat) p := refuses_pure p

@[simp]
theorem refuses_set (n : Nat) : Refuses P (set n : Reader ε PUnit) p := by
  rintro e q ⟨⟩

/-- Two parts in a row refuse where the first does, or behind it where the second does. -/
theorem refuses_bind_iff {f : α → Reader ε β} :
    Refuses P (m >>= f) p ↔ Refuses P m p ∧ ∀ a q, Returns m p a q → Refuses P (f a) q := by
  simp only [Refuses, fails_bind_iff]
  grind

@[simp]
theorem refuses_map_iff {f : α → β} : Refuses P (f <$> m) p ↔ Refuses P m p := by
  rw [← bind_pure_comp, refuses_bind_iff]
  simp

@[simp]
theorem refuses_ite_iff {c : Prop} [Decidable c] {m' : Reader ε α} :
    Refuses P (if c then m else m') p ↔ (c → Refuses P m p) ∧ (¬ c → Refuses P m' p) := by
  split <;> simp_all

@[simp]
theorem refuses_add (a b : Nat) : Refuses P (add a b : Reader ε Nat) p := by
  rw [add]
  split <;> simp

@[simp]
theorem refuses_mul (a b : Nat) : Refuses P (mul a b : Reader ε Nat) p := by
  rw [mul]
  split <;> simp

@[simp]
theorem refuses_byteAt (buf : Buffer) (i : Nat) : Refuses P (byteAt buf i : Reader ε UInt8) p := by
  rw [byteAt]
  split <;> simp

@[simp]
theorem refuses_slice (buf : Buffer) (i j : Nat) :
    Refuses P (slice buf i j : Reader ε Buffer) p := by
  rw [slice]
  split <;> simp

@[simp]
theorem refuses_advance (n : Nat) : Refuses P (advance n : Reader ε PUnit) p := by
  simp [advance, refuses_bind_iff]

@[simp]
theorem refuses_orRefuse_iff {e : ε'} :
    Refuses P (orRefuse m e) p ↔ Refuses P m p := by
  rw [Refuses, Refuses]
  simp only [Fails, exec_orRefuse]
  rcases exec m p with ⟨(e | c) | a, q⟩ <;> simp

@[simp]
theorem refuses_orElse {a : α} : Refuses P (orElse m a : Reader ε' α) p := by
  intro e q h
  rw [Fails, exec_orElse] at h
  rcases hm : exec m p with ⟨(e | c) | a, q⟩ <;> rw [hm] at h <;> cases h

end Refuses

/-! ## Positions -/

/-- The position `q` is `p`, or behind it and inside the buffer. -/
def Within (buf : Buffer) (p q : Nat) : Prop := p ≤ q ∧ (q = p ∨ q ≤ buf.bytes.length)

theorem Within.refl (buf : Buffer) (p : Nat) : Within buf p p := ⟨le_rfl, .inl rfl⟩

theorem Within.trans {r : Nat} (h : Within buf p q) (h' : Within buf q r) :
    Within buf p r := by
  obtain ⟨hpq, hq⟩ := h
  obtain ⟨hqr, hr⟩ := h'
  exact ⟨by omega, by omega⟩

/-- The decoder leaves the position inside the buffer, with a value or without. -/
structure Advances (buf : Buffer) (m : Reader ε α) (p : Nat) : Prop where
  returns : ∀ a q, Returns m p a q → Within buf p q
  refuses : Refuses (Within buf p) m p

section Advances

variable {buf : Buffer} {m : Reader ε α} {f : α → Reader ε β} {p : Nat}

@[simp]
theorem advances_pure (a : α) : Advances buf (pure a : Reader ε α) p where
  returns b q h := by
    obtain ⟨-, rfl⟩ := returns_pure_iff.1 h
    exact .refl buf q
  refuses := refuses_pure a

@[simp]
theorem advances_refuse (e : ε) : Advances buf (refuse e : Reader ε α) p where
  returns _ _ h := absurd h not_returns_refuse
  refuses := refuses_refuse_iff.2 (.refl buf p)

theorem advances_of_returns {a : α} (h : Returns m p a q) (hw : Within buf p q) :
    Advances buf m p where
  returns b r h' := by
    obtain ⟨-, rfl⟩ := (returns_iff h).1 h'
    exact hw
  refuses := refuses_of_returns h

variable {buf' : Buffer}

theorem Advances.mono (h : Advances buf m p) (hlen : buf.bytes.length ≤ buf'.bytes.length) :
    Advances buf' m p where
  returns a q hret := by
    obtain ⟨hle, hq⟩ := h.returns a q hret
    exact ⟨hle, by omega⟩
  refuses e q hrefuse := by
    obtain ⟨hle, hq⟩ := h.refuses e q hrefuse
    exact ⟨hle, by omega⟩

/-- A part that moves inside the buffer, and one that goes on from there. -/
theorem Advances.bind (h : Advances buf m p)
    (h' : ∀ a q, Returns m p a q → Advances buf (f a) q) : Advances buf (m >>= f) p where
  returns b q hret := by
    obtain ⟨a, r, hm, hf⟩ := returns_bind_iff.1 hret
    exact (h.returns a r hm).trans ((h' a r hm).returns b q hf)
  refuses := by
    refine refuses_bind_iff.2 ⟨h.refuses, fun a q hm e r hf => ?_⟩
    exact (h.returns a q hm).trans ((h' a q hm).refuses e r hf)

theorem Advances.map (h : Advances buf m p) (g : α → β) : Advances buf (g <$> m) p := by
  rw [← bind_pure_comp]
  exact h.bind fun a q _ => advances_pure (g a)

/-- A step that the buffer has room for. -/
theorem advances_advance (h : p + n ≤ buf.bytes.length) :
    Advances buf (advance n : Reader ε PUnit) p where
  returns b q hret := by
    obtain ⟨rfl, -⟩ := returns_advance_iff.1 hret
    exact ⟨by omega, .inr h⟩
  refuses := refuses_advance n

@[simp]
theorem advances_ite_iff {c : Prop} [Decidable c] {m' : Reader ε α} :
    Advances buf (if c then m else m') p ↔
      (c → Advances buf m p) ∧ (¬ c → Advances buf m' p) := by
  split <;> simp_all

/-- A part that keeps the position and refuses nothing. -/
theorem advances_bind_still (h : ∀ a q, Returns m p a q → q = p) (h' : Refuses (fun _ => False) m p) :
    Advances buf (m >>= f) p ↔ ∀ a, Returns m p a p → Advances buf (f a) p := by
  constructor
  · intro hmf a hm
    constructor
    · intro b q hf
      exact hmf.returns b q (hm.bind hf)
    · intro e q hf
      exact hmf.refuses e q (hm.bind_fails hf)
  · intro hf
    refine Advances.bind ⟨?_, ?_⟩ ?_
    · intro a q hm
      rw [h a q hm]
      exact .refl buf p
    · intro e q hm
      exact absurd (h' e q hm) id
    · intro a q hm
      obtain rfl := h a q hm
      exact hf a hm

@[simp]
theorem advances_get_bind_iff {f : Nat → Reader ε β} :
    Advances buf (get >>= f) p ↔ Advances buf (f p) p := by
  rw [advances_bind_still (by simp) (by simp)]
  simp

@[simp]
theorem advances_add_bind_iff {f : Nat → Reader ε β} :
    Advances buf (add a b >>= f) p ↔ (a + b < 2 ^ 64 → Advances buf (f (a + b)) p) := by
  rw [advances_bind_still (by simp) (by simp)]
  simp

@[simp]
theorem advances_mul_bind_iff {f : Nat → Reader ε β} :
    Advances buf (mul a b >>= f) p ↔ (a * b < 2 ^ 64 → Advances buf (f (a * b)) p) := by
  rw [advances_bind_still (by simp) (by simp)]
  simp

@[simp]
theorem advances_byteAt_bind_iff {f : UInt8 → Reader ε β} :
    Advances buf (byteAt buf' i >>= f) p ↔
      ∀ b, buf'.bytes[i]? = some b → Advances buf (f b) p := by
  rw [advances_bind_still (by simp) (by simp)]
  simp

@[simp]
theorem advances_slice_bind_iff {j : Nat} {f : Buffer → Reader ε β} :
    Advances buf (slice buf' i j >>= f) p ↔
      (i ≤ j → j ≤ buf'.bytes.length → Advances buf (f (buf'.part i j)) p) := by
  rw [advances_bind_still (by simp) (by simp)]
  simp

theorem Advances.orRefuse (h : Advances buf m p) (e : ε') : Advances buf (orRefuse m e) p where
  returns b q hret := h.returns b q (returns_orRefuse_iff.1 hret)
  refuses := refuses_orRefuse_iff.2 h.refuses

/-- A refusal that becomes a default leaves the position inside the buffer as well. -/
theorem Advances.orElse (h : Advances buf m p) (a : α) :
    Advances buf (orElse m a : Reader ε' α) p where
  returns b q hret := by
    rcases returns_orElse_iff.1 hret with hok | ⟨-, e, hrefuse⟩
    · exact h.returns b q hok
    · exact h.refuses e q hrefuse
  refuses := refuses_orElse

end Advances

/-- The decoder returns or refuses, and a value leaves the position inside the buffer. -/
structure Sound (buf : Buffer) (m : Reader ε α) (p : Nat) : Prop where
  safe : Safe m p
  within : ∀ a q, Returns m p a q → Within buf p q

/-- Where the position only moves inside the buffer, soundness is the absence of crashes. -/
theorem sound_iff (h : Advances buf m p) :
    Sound buf m p ↔ Safe m p :=
  ⟨fun h' => h'.safe, fun h' => ⟨h', h.returns⟩⟩

/-! ## Ends -/

/-- The decoder returns exactly where there is an end, and leaves the position there. -/
def EndsAt (m : Reader ε α) (p : Nat) (stop : Option Nat) : Prop :=
  ∀ q, (∃ a, Returns m p a q) ↔ stop = some q

/-- What holds wherever the decoder returns holds at its end. -/
theorem EndsAt.forall_iff (h : EndsAt m p stop) {P : Nat → Prop} :
    (∀ a q, Returns m p a q → P q) ↔ ∀ q, stop = some q → P q := by
  constructor
  · intro hm q hq
    obtain ⟨a, ha⟩ := (h q).2 hq
    exact hm a q ha
  · intro hstop a q ha
    exact hstop q ((h q).1 ⟨a, ha⟩)

theorem EndsAt.map (h : EndsAt m p stop) (f : α → β) :
    EndsAt (f <$> m) p stop := by
  intro q
  rw [← h q]
  simp [returns_map_iff]

theorem EndsAt.bind_pure (h : EndsAt m p stop) (f : α → β) :
    EndsAt (m >>= fun a => pure (f a)) p stop := by
  rw [bind_pure_comp]
  exact h.map f

theorem EndsAt.orRefuse (h : EndsAt m p stop) (e : ε') :
    EndsAt (orRefuse m e) p stop := by
  intro q
  rw [← h q]
  simp

theorem endsAt_refuse (e : ε) (p : Nat) : EndsAt (refuse e : Reader ε α) p none := by
  intro q
  simp

theorem endsAt_pure (a : α) (p : Nat) : EndsAt (pure a : Reader ε α) p (some p) := by
  intro q
  simp [eq_comm]

theorem EndsAt.after {r : Nat} {a : α} (h : Returns m p a r) (h' : EndsAt (f a) r stop) :
    EndsAt (m >>= f) p stop := by
  intro q
  rw [← h' q]
  simp [returns_bind_iff, returns_iff h]

/-- The second part goes on from the end of the first. -/
theorem EndsAt.bind {next : Nat → Option Nat} (h : EndsAt m p stop)
    (h' : ∀ a q, Returns m p a q → EndsAt (f a) q (next q)) :
    EndsAt (m >>= f) p (stop.bind next) := by
  intro q
  constructor
  · rintro ⟨b, hb⟩
    obtain ⟨a, r, hm, hf⟩ := returns_bind_iff.1 hb
    rw [(h r).1 ⟨a, hm⟩]
    exact (h' a r hm q).1 ⟨b, hf⟩
  · intro hstop
    obtain ⟨r, hr, hq⟩ := Option.bind_eq_some_iff.1 hstop
    obtain ⟨a, hm⟩ := (h r).2 hr
    obtain ⟨b, hf⟩ := (h' a r hm q).2 hq
    exact ⟨b, hm.bind hf⟩

end Cursor
