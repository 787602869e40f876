import HenchDB.Lib.Codec

/-!
# What decoders take off their input

A decoder can report the bytes it has taken (`tracked`).  `Pays k d cost` bounds its
result by them: each byte pays for `k` units of what the result costs.  Where the cost is
the length of an encoding, an input that is short enough cannot yield a long one.
-/

namespace Codec

variable {ε α β : Type}

/-! ## The bytes of a decoder -/

def tracked (d : Decoder ε α) : Decoder ε (α × List UInt8) := fun input =>
  (d.run input).map fun (a, rest) => ((a, input.take (input.length - rest.length)), rest)

variable {a : α} {short : ε}

theorem Reads.tracked {d : Decoder ε α} {bs : List UInt8} (h : Reads d bs a) :
    Reads (tracked d) bs (a, bs) := by
  intro rest
  have hrun := h rest
  show (d.run (bs ++ rest)).map _ = _
  rw [hrun]
  show Except.ok ((a, (bs ++ rest).take ((bs ++ rest).length - rest.length)), rest) = _
  rw [List.length_append, Nat.add_sub_cancel, List.take_left' rfl]

theorem Yields.tracked {d : Decoder ε α} {P : α → Prop} (h : Yields d P) :
    Yields (tracked d) fun r => P r.1 := by
  intro input r rest hrun
  change (d.run input).map _ = _ at hrun
  cases hd : d.run input with
  | error e =>
    rw [hd] at hrun
    cases hrun
  | ok p =>
    rw [hd] at hrun
    cases hrun
    exact h input p.1 p.2 hd

/-! ## Results from elsewhere -/

theorem reads_lift {x : Except ε α} (h : x = .ok a) :
    Reads (liftM x : Decoder ε α) [] a := by
  rw [h]
  exact fun _ => rfl

theorem yields_lift {x : Except ε α} {P : α → Prop} (h : ∀ a, x = .ok a → P a) :
    Yields (liftM x : Decoder ε α) P := by
  intro input a rest hrun
  cases x with
  | error e => cases hrun
  | ok b =>
    cases hrun
    exact h _ rfl

/-! ## Decoders that pay -/

/-- Each byte that the decoder takes pays for `k` units of its result. -/
def Pays (k : Nat) (d : Decoder ε α) (cost : α → Nat) : Prop :=
  ∀ input a rest, d.run input = .ok (a, rest) → k * rest.length + cost a ≤ k * input.length

variable {k : Nat} {d : Decoder ε α} {cost : α → Nat}

theorem Pays.pure (h : cost a = 0) : Pays k (pure a : Decoder ε α) cost := by
  rintro input b rest ⟨⟩
  rw [h, Nat.add_zero]

theorem Pays.throw {e : ε} : Pays k (throw e : Decoder ε α) cost := by
  rintro input b rest ⟨⟩

theorem Pays.mono {cost' : α → Nat} (h : Pays k d cost) (hle : ∀ a, cost' a ≤ cost a) :
    Pays k d cost' := by
  intro input a rest hrun
  have := h input a rest hrun
  have := hle a
  omega

/-- What the first decoder has paid for, the second need not. -/
theorem Pays.bind {f : α → Decoder ε β} {total : β → Nat} (h : Pays k d cost)
    (h' : ∀ a, Pays k (f a) fun b => total b - cost a) : Pays k (d >>= f) total := by
  intro input b rest hrun
  rw [StateT.run_bind] at hrun
  cases hd : d.run input with
  | error e =>
    rw [hd] at hrun
    cases hrun
  | ok r =>
    rw [hd] at hrun
    have hfirst := h input r.1 r.2 hd
    have hsecond : k * rest.length + (total b - cost r.1) ≤ k * r.2.length :=
      h' r.1 r.2 b rest hrun
    omega

theorem pays_takeN {n : Nat} : Pays k (takeN n short) fun bs => k * bs.length := by
  intro input bs rest hrun
  simp only [takeN, StateT.run] at hrun
  split at hrun
  · cases hrun
  · cases hrun
    rw [← Nat.mul_add, List.length_drop, List.length_take]
    exact Nat.mul_le_mul_left k (by omega)

theorem pays_takeByte : Pays k (takeByte short) fun _ => k := by
  intro input b rest hrun
  match input with
  | [] => cases hrun
  | c :: input =>
    cases hrun
    rw [List.length_cons, Nat.mul_succ]

/-- The same by the number of bytes. -/
theorem pays_takeN_length {n : Nat} : Pays k (takeN n short) fun _ => k * n := by
  intro input bs rest hrun
  have hlen : bs.length = n := yields_takeN input bs rest hrun
  rw [← hlen]
  exact pays_takeN input bs rest hrun

theorem pays_takeLe {w : Nat} : Pays k (takeLe w short) fun _ => k * w :=
  pays_takeN_length.bind fun _ => .pure (Nat.sub_self _)

theorem pays_takeMany (h : Pays k d cost) :
    ∀ n, Pays k (takeMany d n) fun l => (l.map cost).sum
  | 0 => .pure rfl
  | n + 1 => by
    refine h.bind fun a => (pays_takeMany h n).bind fun l => .pure ?_
    rw [List.map_cons, List.sum_cons]
    omega

end Codec
