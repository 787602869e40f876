import Mathlib.Logic.Basic

/-!
# Programs with state that may fail

A program over a state `σ` returns a value or fails, and leaves a state either
way.  `Returns m s a s'` says that the program returns `a` from `s` and leaves
`s'`; the rules follow the program text, one for each command.
-/

namespace Program

variable {σ ε α β : Type}

/-- Programs; a failure keeps the state it happened in. -/
abbrev Prog (σ ε α : Type) := ExceptT ε (StateM σ) α

/-- The outcome and the state a program leaves. -/
def exec (m : Prog σ ε α) (s : σ) : Except ε α × σ := m.run.run s

/-- The program returns `a` and leaves `s'`. -/
def Returns (m : Prog σ ε α) (s : σ) (a : α) (s' : σ) : Prop := exec m s = (.ok a, s')

/-- The program fails with `e` and leaves `s'`. -/
def Fails (m : Prog σ ε α) (s : σ) (e : ε) (s' : σ) : Prop := exec m s = (.error e, s')

theorem returns_pure (a : α) (s : σ) : Returns (pure a : Prog σ ε α) s a s := rfl

theorem fails_throw (e : ε) (s : σ) : Fails (throw e : Prog σ ε α) s e s := rfl

theorem returns_get (s : σ) : Returns (get : Prog σ ε σ) s s s := rfl

theorem returns_modify (f : σ → σ) (s : σ) : Returns (modify f : Prog σ ε PUnit) s ⟨⟩ (f s) := rfl

variable {m : Prog σ ε α} {f : α → Prog σ ε β} {s s' s'' : σ} {a : α} {e : ε}

theorem exec_bind_ok (h : Returns m s a s') : exec (m >>= f) s = exec (f a) s' := by
  show (ExceptT.bindCont f (exec m s).1).run (exec m s).2 = _
  rw [show exec m s = (.ok a, s') from h]
  rfl

theorem Returns.bind {b : β} (h : Returns m s a s') (h' : Returns (f a) s' b s'') :
    Returns (m >>= f) s b s'' :=
  (exec_bind_ok h).trans h'

theorem Returns.bind_fails (h : Returns m s a s') (h' : Fails (f a) s' e s'') :
    Fails (m >>= f) s e s'' :=
  (exec_bind_ok h).trans h'

theorem Fails.bind (h : Fails m s e s') : Fails (m >>= f) s e s' := by
  show (ExceptT.bindCont f (exec m s).1).run (exec m s).2 = _
  rw [show exec m s = (.error e, s') from h]
  rfl

/-- The parts of a program that returned have returned. -/
theorem Returns.of_bind {b : β} (h : Returns (m >>= f) s b s'') :
    ∃ a s', Returns m s a s' ∧ Returns (f a) s' b s'' := by
  obtain ⟨r, s', hm⟩ : ∃ r s', exec m s = (r, s') := ⟨_, _, rfl⟩
  cases r with
  | error e => cases h.symm.trans (Fails.bind (f := f) hm)
  | ok a => exact ⟨a, s', hm, (exec_bind_ok hm).symm.trans h⟩

theorem Returns.not_fails (h : Returns m s a s') :
    ¬ Fails m s e s'' := by
  intro h'
  cases h.symm.trans h'

theorem run_bind (m : StateM σ α) (k : α → StateM σ β) (s : σ) :
    (m >>= k) s = k (m s).1 (m s).2 := rfl

/-- A handler does not run when the program returns. -/
theorem Returns.tryCatch {handler : ε → Prog σ ε α} (h : Returns m s a s') :
    Returns (tryCatch m handler) s a s' := by
  have hm : m s = (.ok a, s') := h
  show (ExceptT.tryCatch m handler) s = _
  rw [ExceptT.tryCatch, ExceptT.mk, run_bind, hm]
  rfl

/-- When the program fails the handler goes on in the state it left. -/
theorem Fails.tryCatch {handler : ε → Prog σ ε α} (h : Fails m s e s') :
    exec (tryCatch m handler) s = exec (handler e) s' := by
  have hm : m s = (.error e, s') := h
  show (ExceptT.tryCatch m handler) s = _
  rw [ExceptT.tryCatch, ExceptT.mk, run_bind, hm]
  rfl

end Program
