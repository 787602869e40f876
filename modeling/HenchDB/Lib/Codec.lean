import Mathlib.Data.UInt
import Mathlib.Tactic

/-!
# Byte codecs

Little-endian numbers, and decoders that consume a byte string from the left.
`Reads d bs a` says that the decoder `d` takes exactly the bytes `bs` off any
input that begins with them and returns `a`.  Encodings that follow one another
are read by decoders that follow one another (`Reads.bind`), so a round trip is
assembled from those of its parts.
-/

namespace Codec

/-! ## Little-endian numbers -/

/-- The lowest `w` bytes of `n`, least significant first. -/
def leBytes : Nat → Nat → List UInt8
  | 0, _ => []
  | w + 1, n => UInt8.ofNat n :: leBytes w (n / 256)

/-- The number a little-endian byte string spells. -/
def leValue : List UInt8 → Nat
  | [] => 0
  | b :: bs => b.toNat + 256 * leValue bs

@[simp]
theorem length_leBytes : ∀ w n, (leBytes w n).length = w
  | 0, _ => rfl
  | w + 1, n => by rw [leBytes, List.length_cons, length_leBytes w]

/-- A number that is too large loses its upper bytes. -/
theorem leValue_leBytes_mod : ∀ w n : Nat, leValue (leBytes w n) = n % 256 ^ w
  | 0, n => by simp [leBytes, leValue, Nat.mod_one]
  | w + 1, n => by
    have hmod : n % 256 ^ (w + 1) = n % 256 + 256 * (n / 256 % 256 ^ w) := by
      rw [pow_succ', Nat.mod_mul]
    rw [leBytes, leValue, leValue_leBytes_mod w, UInt8.toNat_ofNat', hmod]

variable {w n : Nat}

theorem leValue_leBytes (h : n < 256 ^ w) : leValue (leBytes w n) = n := by
  rw [leValue_leBytes_mod, Nat.mod_eq_of_lt h]

/-! ## Decoders -/

variable {ε α β : Type}

/-- A decoder consumes bytes from the left of its input, or fails. -/
abbrev Decoder (ε α : Type) := StateT (List UInt8) (Except ε) α

/-- The decoder takes exactly `bs` off its input and returns `a`. -/
def Reads (d : Decoder ε α) (bs : List UInt8) (a : α) : Prop :=
  ∀ rest, d.run (bs ++ rest) = .ok (a, rest)

/-- The next `n` bytes. -/
def takeN (n : Nat) (short : ε) : Decoder ε (List UInt8) := fun input =>
  if input.length < n then .error short else .ok (input.take n, input.drop n)

def takeByte (short : ε) : Decoder ε UInt8 := fun input =>
  match input with
  | [] => .error short
  | b :: rest => .ok (b, rest)

/-- A little-endian number of `w` bytes. -/
def takeLe (w : Nat) (short : ε) : Decoder ε Nat := do
  return leValue (← takeN w short)

/-- The same decoder `n` times. -/
def takeMany (d : Decoder ε α) : Nat → Decoder ε (List α)
  | 0 => pure []
  | n + 1 => do
    let a ← d
    return a :: (← takeMany d n)

variable {a : α} {d : Decoder ε α} {f : α → Decoder ε β} {bs : List UInt8} {P : α → Prop}

theorem Reads.pure : Reads (pure a : Decoder ε α) [] a := fun _ => rfl

/-- What follows a decoder goes on behind the bytes it read. -/
theorem Reads.run_bind (h : Reads d bs a) (rest : List UInt8) :
    (d >>= f).run (bs ++ rest) = (f a).run rest := by
  rw [StateT.run_bind, h rest]
  rfl

theorem Reads.bind {cs : List UInt8} {b : β} (h : Reads d bs a) (h' : Reads (f a) cs b) :
    Reads (d >>= f) (bs ++ cs) b := by
  intro rest
  rw [List.append_assoc, h.run_bind]
  exact h' rest

/-- A last step that reads nothing. -/
theorem Reads.bind_pure {b : β} (h : Reads d bs a) (h' : Reads (f a) [] b) :
    Reads (d >>= f) bs b := by
  have := h.bind h'
  rwa [List.append_nil] at this

theorem reads_takeN (short : ε) (h : bs.length = n) :
    Reads (takeN n short) bs bs := by
  intro rest
  subst h
  simp [takeN, StateT.run]

theorem reads_takeByte (b : UInt8) (short : ε) : Reads (takeByte short) [b] b := fun _ => rfl

theorem reads_takeLe (short : ε) (h : n < 256 ^ w) :
    Reads (takeLe w short) (leBytes w n) n := by
  refine (reads_takeN short (length_leBytes w n)).bind_pure ?_
  rw [leValue_leBytes h]
  exact .pure

/-- Encodings in a row, each read back as `f` of what it encodes. -/
theorem reads_takeMany_map {enc : β → List UInt8} {f : β → α} :
    ∀ {l : List β}, (∀ b ∈ l, Reads d (enc b) (f b)) →
      Reads (takeMany d l.length) (l.flatMap enc) (l.map f)
  | [], _ => .pure
  | b :: l, h => by
    rw [List.flatMap_cons, List.length_cons, takeMany]
    refine (h b (by simp)).bind ?_
    exact (reads_takeMany_map fun c hc => h c (by simp [hc])).bind_pure .pure

theorem reads_takeMany {enc : α → List UInt8} {l : List α} (h : ∀ a ∈ l, Reads d (enc a) a) :
    Reads (takeMany d l.length) (l.flatMap enc) l := by
  have := reads_takeMany_map (f := fun a : α => a) h
  rwa [List.map_id'] at this

/-! ## What a decoder answers -/

/-- On any input that begins with `bs` the decoder takes `bs` off it and returns what `r`
is, or fails as `r` does. -/
def Answers (d : Decoder ε α) (bs : List UInt8) (r : Except ε α) : Prop :=
  ∀ rest, d.run (bs ++ rest) = r.map fun a => (a, rest)

theorem Answers.throw {e : ε} : Answers (throw e : Decoder ε α) bs (.error e) := fun _ => rfl

theorem Answers.bind {cs : List UInt8} {r : Except ε α} {g : α → Except ε β} (h : Answers d bs r)
    (h' : ∀ a, r = .ok a → Answers (f a) cs (g a)) : Answers (d >>= f) (bs ++ cs) (r >>= g) := by
  intro rest
  rw [List.append_assoc, StateT.run_bind, h]
  cases r with
  | error e => rfl
  | ok a => exact h' a rfl rest

theorem Reads.bind_answers {cs : List UInt8} {r : Except ε β} (h : Reads d bs a)
    (h' : Answers (f a) cs r) : Answers (d >>= f) (bs ++ cs) r := by
  intro rest
  rw [List.append_assoc, h.run_bind]
  exact h' rest

/-- A last step that reads nothing and does not fail. -/
theorem Answers.bind_pure {r : Except ε α} (h : Answers d bs r) (k : α → β) :
    Answers (d >>= fun a => Pure.pure (k a)) bs (r >>= fun a => .ok (k a)) := by
  intro rest
  rw [StateT.run_bind, h]
  cases r <;> rfl

/-- Encodings in a row, each of which the decoder checks. -/
theorem answers_takeMany {enc : α → List UInt8} {check : α → Except ε Unit} :
    ∀ {l : List α}, (∀ a ∈ l, Answers d (enc a) (check a >>= fun _ => .ok a)) →
      Answers (takeMany d l.length) (l.flatMap enc) (l.forM check >>= fun _ => .ok l)
  | [], _ => Reads.pure
  | a :: l, h => by
    have htail := answers_takeMany fun b hb => h b (List.mem_cons_of_mem a hb)
    intro rest
    rw [List.flatMap_cons, List.append_assoc, List.length_cons, takeMany, StateT.run_bind,
      h a List.mem_cons_self]
    show _ = ((check a >>= fun _ => l.forM check) >>= fun _ => Except.ok (a :: l)).map _
    cases check a with
    | error e => rfl
    | ok _ =>
      refine (htail.bind_pure (a :: ·) rest).trans ?_
      cases l.forM check <;> rfl

/-! ## What a decoder returns -/

/-- Whatever the decoder returns has the property. -/
def Yields (d : Decoder ε α) (P : α → Prop) : Prop :=
  ∀ input a rest, d.run input = .ok (a, rest) → P a

theorem Yields.pure (h : P a) : Yields (pure a : Decoder ε α) P := by
  rintro input b rest ⟨⟩
  exact h

theorem Yields.throw {e : ε} : Yields (throw e : Decoder ε α) P := by
  rintro input b rest ⟨⟩

theorem Yields.bind {Q : β → Prop} (h : Yields d P) (h' : ∀ a, P a → Yields (f a) Q) :
    Yields (d >>= f) Q := by
  intro input b rest hrun
  rw [StateT.run_bind] at hrun
  cases hd : d.run input with
  | error e =>
    rw [hd] at hrun
    cases hrun
  | ok r =>
    rw [hd] at hrun
    exact h' r.1 (h input r.1 r.2 hd) r.2 b rest hrun

theorem Yields.mono {Q : α → Prop} (h : Yields d P) (h' : ∀ a, P a → Q a) :
    Yields d Q := fun input a rest hrun => h' a (h input a rest hrun)

theorem Yields.trivial : Yields d fun _ => True := fun _ _ _ _ => True.intro

theorem yields_takeN {short : ε} : Yields (takeN n short) fun bs => bs.length = n := by
  intro input bs rest hrun
  simp only [takeN, StateT.run] at hrun
  split at hrun
  · cases hrun
  · cases hrun
    simp
    omega

theorem leValue_lt : ∀ bs : List UInt8, leValue bs < 256 ^ bs.length
  | [] => by simp [leValue]
  | b :: bs => by
    have hb : b.toNat < 256 := UInt8.toNat_lt b
    have hrest := leValue_lt bs
    rw [leValue, List.length_cons, pow_succ]
    omega

theorem yields_takeLe {short : ε} : Yields (takeLe w short) fun n => n < 256 ^ w := by
  refine yields_takeN.bind fun bs hlen => .pure ?_
  rw [← hlen]
  exact leValue_lt bs

theorem yields_takeMany (h : Yields d P) :
    ∀ n, Yields (takeMany d n) fun l => l.length = n ∧ ∀ a ∈ l, P a
  | 0 => .pure ⟨rfl, by simp⟩
  | n + 1 => by
    refine h.bind fun a ha => (yields_takeMany h n).bind fun l hl => .pure ⟨?_, ?_⟩
    · rw [List.length_cons, hl.1]
    · exact List.forall_mem_cons.2 ⟨ha, hl.2⟩

end Codec
