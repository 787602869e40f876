import HenchDB.Lib.Cursor
import HenchDB.Wire.Copy

/-!
# Length-encoded values and the handshake response

`readLenencBytes` takes a length from the packet and adds it to the position before
it compares the sum with the length of the packet.  A length of eight bytes can be
anything, so the sum need not fit the word: `LenFits` is the condition that it does.
Everything else here is safe on every packet.
-/

namespace HenchDB.Wire

open Codec Cursor Program

/-! ## Length-encoded integers and strings -/

/-- The arm of `dec_lenenc_int` for a length of two bytes. -/
def lenencWord2 (buf : Buffer) : Reader Unit Nat := do
  if buf.bytes.length < (← add (← get) 2) then refuse ()
  else
    let b0 ← byteAt buf (← get)
    let b1 ← byteAt buf (← add (← get) 1)
    advance 2
    return leValue [b0, b1]

/-- The arm for three bytes. -/
def lenencWord3 (buf : Buffer) : Reader Unit Nat := do
  if buf.bytes.length < (← add (← get) 3) then refuse ()
  else
    let b0 ← byteAt buf (← get)
    let b1 ← byteAt buf (← add (← get) 1)
    let b2 ← byteAt buf (← add (← get) 2)
    advance 3
    return leValue [b0, b1, b2, 0]

/-- The arm for eight bytes. -/
def lenencWord8 (buf : Buffer) : Reader Unit Nat := do
  if buf.bytes.length < (← add (← get) 8) then refuse ()
  else
    let b ← slice buf (← get) (← add (← get) 8)
    advance 8
    return leValue b.bytes

def decLenencInt (buf : Buffer) : Reader Unit Nat := do
  if buf.bytes.length ≤ (← get) then refuse ()
  else
    let first ← byteAt buf (← get)
    advance 1
    if first < 251 then return first.toNat
    else if first = 251 then refuse ()
    else if first = 0xFC then lenencWord2 buf
    else if first = 0xFD then lenencWord3 buf
    else if first = 0xFE then lenencWord8 buf
    else refuse ()

/-- The loop of `read_nul_str`, which passes at most `n` bytes. -/
def skipToNul (buf : Buffer) : Nat → Reader Unit PUnit
  | 0 => pure ⟨⟩
  | n + 1 => do
    if (← get) < buf.bytes.length then
      let b ← byteAt buf (← get)
      if b ≠ 0 then
        advance 1
        skipToNul buf n
      else pure ⟨⟩
    else pure ⟨⟩

def readNulStr (txt : CopyText) (buf : Buffer) : Reader Unit String := do
  let start ← get
  skipToNul buf (buf.bytes.length - start)
  if buf.bytes.length ≤ (← get) then refuse ()
  else
    let s ← slice buf start (← get)
    advance 1
    return txt.lossy s.bytes

/-- The loop of `read_le`, for the bytes `ks` behind `pos`. -/
def orBytes (buf : Buffer) (pos : Nat) : List Nat → Nat → Reader Unit Nat
  | [], v => pure v
  | k :: ks, v => do
    let b ← byteAt buf (← add pos k)
    orBytes buf pos ks (v ||| b.toNat <<< (8 * k))

def readLe (buf : Buffer) (n : Nat) : Reader Unit Nat := do
  if buf.bytes.length < (← add (← get) n) then refuse ()
  else
    let v ← orBytes buf (← get) (List.range n) 0
    advance n
    return v

/-- The length that `first` announces in `read_lenenc_bytes`. -/
def lenencLen (buf : Buffer) (first : UInt8) : Reader Unit Nat :=
  if first < 251 then pure first.toNat
  else if first = 0xFC then readLe buf 2
  else if first = 0xFD then readLe buf 3
  else if first = 0xFE then readLe buf 8
  else refuse ()

/-- The next `n` bytes, as `read_lenenc_bytes` takes them. -/
def takeBytes (buf : Buffer) (n : Nat) : Reader Unit Bytes := do
  if buf.bytes.length < (← add (← get) n) then refuse ()
  else
    let v ← slice buf (← get) (← add (← get) n)
    advance n
    return v.bytes

def readLenencBytes (buf : Buffer) : Reader Unit Bytes := do
  if buf.bytes.length ≤ (← get) then refuse ()
  else
    let first ← byteAt buf (← get)
    advance 1
    if first = 0xFB then return []
    else
      let len ← lenencLen buf first
      takeBytes buf len

/-! ## The handshake response -/

structure HandshakeResponse where
  caps : UInt32
  username : String
  auth : Bytes
  plugin : String
  db : Option String
deriving DecidableEq, Repr

def capConnectWithDb : UInt32 := 0x00000008

def capSecureConnection : UInt32 := 0x00008000

def capPluginAuth : UInt32 := 0x00080000

def capAuthLenencData : UInt32 := 0x00200000

/-- The proof in a handshake response; how it is written depends on the flags. -/
def authProof (txt : CopyText) (buf : Buffer) (caps : UInt32) : Reader Unit Bytes := do
  if caps &&& capAuthLenencData ≠ 0 then orElse (readLenencBytes buf) []
  else if caps &&& capSecureConnection ≠ 0 then
    if buf.bytes.length ≤ (← get) then refuse ()
    else
      let n ← byteAt buf (← get)
      advance 1
      takeBytes buf n.toNat
  else orElse (utf8 <$> readNulStr txt buf) []

/-- `parse_handshake_response`; the position is its own. -/
def parseHandshakeResponse (txt : CopyText) (buf : Buffer) : Reader Unit HandshakeResponse := do
  if buf.bytes.length < 32 then refuse ()
  else
    let c0 ← byteAt buf 0
    let c1 ← byteAt buf 1
    let c2 ← byteAt buf 2
    let c3 ← byteAt buf 3
    let caps := UInt32.ofNat (leValue [c0, c1, c2, c3])
    set (4 + 4 + 1 + 23)
    let username ← orElse (readNulStr txt buf) ""
    let auth ← authProof txt buf caps
    let db ← (
      if caps &&& capConnectWithDb ≠ 0 then orElse (some <$> readNulStr txt buf) none
      else pure none)
    let plugin ← (
      if caps &&& capPluginAuth ≠ 0 then orElse (readNulStr txt buf) ""
      else pure "")
    return { caps, username, auth, plugin, db }

section

variable {buf : Buffer} {p : Nat}

/-! ## Integers -/

theorem safe_lenencWord2 (h : p ≤ buf.bytes.length) : Safe (lenencWord2 buf) p := by
  have := buf.allocated
  simp [lenencWord2, safe_bind_iff]
  grind

theorem safe_lenencWord3 (h : p ≤ buf.bytes.length) : Safe (lenencWord3 buf) p := by
  have := buf.allocated
  simp [lenencWord3, safe_bind_iff]
  grind

theorem safe_lenencWord8 (h : p ≤ buf.bytes.length) : Safe (lenencWord8 buf) p := by
  have := buf.allocated
  simp [lenencWord8, safe_bind_iff]
  grind

theorem advances_lenencWord2 : Advances buf (lenencWord2 buf) p := by
  simp only [lenencWord2, advances_get_bind_iff, advances_add_bind_iff, advances_ite_iff,
    advances_byteAt_bind_iff]
  intro _
  exact ⟨fun _ => advances_refuse _, fun h _ _ _ _ _ =>
    (advances_advance (by omega)).bind fun _ _ _ => advances_pure _⟩

theorem advances_lenencWord3 : Advances buf (lenencWord3 buf) p := by
  simp only [lenencWord3, advances_get_bind_iff, advances_add_bind_iff, advances_ite_iff,
    advances_byteAt_bind_iff]
  intro _
  exact ⟨fun _ => advances_refuse _, fun h _ _ _ _ _ _ _ _ =>
    (advances_advance (by omega)).bind fun _ _ _ => advances_pure _⟩

theorem advances_lenencWord8 : Advances buf (lenencWord8 buf) p := by
  simp only [lenencWord8, advances_get_bind_iff, advances_add_bind_iff, advances_ite_iff,
    advances_slice_bind_iff]
  intro _
  exact ⟨fun _ => advances_refuse _, fun h _ _ _ =>
    (advances_advance (by omega)).bind fun _ _ _ => advances_pure _⟩

theorem safe_decLenencInt : Safe (decLenencInt buf) p := by
  have := buf.allocated
  simp [decLenencInt, safe_bind_iff]
  grind [safe_lenencWord2, safe_lenencWord3, safe_lenencWord8]

theorem advances_decLenencInt : Advances buf (decLenencInt buf) p := by
  simp only [decLenencInt, advances_get_bind_iff, advances_ite_iff, advances_byteAt_bind_iff]
  refine ⟨fun _ => advances_refuse _, fun hp first _ => ?_⟩
  refine (advances_advance (by omega)).bind fun _ q _ => ?_
  simp [advances_lenencWord2, advances_lenencWord3, advances_lenencWord8]

/-! ## Words -/

/-- The next byte goes above the bits that are there. -/
theorem or_shift {v j : Nat} (b : Nat) (h : v < 256 ^ j) :
    v ||| b <<< (8 * j) = v + 256 ^ j * b := by
  have hpow : 256 ^ j = 2 ^ (8 * j) := by norm_num [pow_mul]
  rw [Nat.shiftLeft_eq, hpow, Nat.mul_comm b, Nat.or_comm,
    ← Nat.two_pow_add_eq_or_of_lt (hpow ▸ h), Nat.add_comm]

theorem returns_orBytes : ∀ (m j v : Nat), p + j + m ≤ buf.bytes.length → v < 256 ^ j →
    Returns (orBytes buf p (List.range' j m) v) p
      (v + 256 ^ j * leValue ((buf.bytes.drop (p + j)).take m)) p
  | 0, j, v, _, _ => by
    simp [orBytes, leValue]
  | m + 1, j, v, hlen, hv => by
    have hj : p + j < buf.bytes.length := by omega
    have hword : p + j < 2 ^ 64 := by
      have := buf.allocated
      omega
    have hlt : v + 256 ^ j * buf.bytes[p + j].toNat < 256 ^ (j + 1) := by
      have := buf.bytes[p + j].toNat_lt
      calc v + 256 ^ j * buf.bytes[p + j].toNat
          < 256 ^ j + 256 ^ j * buf.bytes[p + j].toNat := by omega
        _ = 256 ^ j * (buf.bytes[p + j].toNat + 1) := by ring
        _ ≤ 256 ^ j * 256 := Nat.mul_le_mul_left _ (by omega)
        _ = 256 ^ (j + 1) := (pow_succ ..).symm
    have hadd : Returns (add p j : Reader Unit Nat) p (p + j) p :=
      returns_add_iff.2 ⟨rfl, rfl, hword⟩
    have hbyte : Returns (byteAt buf (p + j) : Reader Unit UInt8) p buf.bytes[p + j] p :=
      returns_byteAt_iff.2 ⟨rfl, List.getElem?_eq_getElem hj⟩
    have hrest := returns_orBytes m (j + 1) _ (by omega) hlt
    have hsum : v + 256 ^ j * leValue ((buf.bytes.drop (p + j)).take (m + 1)) =
        v + 256 ^ j * buf.bytes[p + j].toNat +
          256 ^ (j + 1) * leValue ((buf.bytes.drop (p + (j + 1))).take m) := by
      rw [List.drop_eq_getElem_cons hj, List.take_succ_cons, leValue, pow_succ, ← Nat.add_assoc]
      ring
    rw [List.range'_succ, orBytes, hsum]
    refine hadd.bind (hbyte.bind ?_)
    rw [or_shift _ hv]
    exact hrest

variable {n q : Nat} {first : UInt8}

theorem returns_orBytes_range (h : p + n ≤ buf.bytes.length) :
    Returns (orBytes buf p (List.range n) 0) p (leValue ((buf.bytes.drop p).take n)) p := by
  have := returns_orBytes (p := p) n 0 0 (by omega) (by simp)
  simpa [List.range_eq_range'] using this

/-- The word that `read_le` takes is the little-endian number that stands there. -/
theorem returns_readLe_iff {v : Nat} : Returns (readLe buf n) p v q ↔
    q = p + n ∧ p + n ≤ buf.bytes.length ∧ v = leValue ((buf.bytes.drop p).take n) := by
  have hbound := buf.allocated
  rw [readLe]
  by_cases hlen : p + n ≤ buf.bytes.length
  · have hword : p + n < 2 ^ 64 := by omega
    simp [returns_bind_iff, returns_map_iff, returns_iff (returns_orBytes_range hlen), hlen]
    grind
  · simp [returns_bind_iff, hlen]

theorem safe_readLe_iff : Safe (readLe buf n) p ↔ p + n < 2 ^ 64 := by
  have hbound := buf.allocated
  by_cases hlen : p + n ≤ buf.bytes.length
  · have hret : Returns (readLe buf n) p (leValue ((buf.bytes.drop p).take n)) (p + n) :=
      returns_readLe_iff.2 ⟨rfl, hlen, rfl⟩
    have hword : p + n < 2 ^ 64 := by omega
    exact ⟨fun _ => hword, fun _ => safe_of_returns hret⟩
  · rw [readLe]
    simp [safe_bind_iff]
    grind

theorem advances_readLe : Advances buf (readLe buf n) p := by
  simp only [readLe, advances_get_bind_iff, advances_add_bind_iff, advances_ite_iff]
  intro _
  refine ⟨fun _ => advances_refuse _, fun h => ?_⟩
  have hlen : p + n ≤ buf.bytes.length := by omega
  refine (advances_of_returns (returns_orBytes_range hlen) (.refl buf p)).bind fun v q hv => ?_
  obtain ⟨-, rfl⟩ := (returns_iff (returns_orBytes_range hlen)).1 hv
  exact (advances_advance hlen).bind fun _ _ _ => advances_pure v

/-! ## Strings with a length -/

/-- A length of eight bytes at `p` fits the word together with the position behind it. -/
def LenFits (buf : Buffer) (p : Nat) : Prop :=
  buf.bytes[p]? = some 0xFE → p + 9 ≤ buf.bytes.length →
    p + 9 + leValue ((buf.bytes.drop (p + 1)).take 8) < 2 ^ 64

theorem returns_lenencLen_iff :
    Returns (lenencLen buf first) p n q ↔
      (first < 251 ∧ n = first.toNat ∧ q = p) ∨
      (first = 0xFC ∧ Returns (readLe buf 2) p n q) ∨
      (first = 0xFD ∧ Returns (readLe buf 3) p n q) ∨
      (first = 0xFE ∧ Returns (readLe buf 8) p n q) := by
  simp only [lenencLen, returns_ite_iff, returns_pure_iff, not_returns_refuse]
  grind

theorem safe_lenencLen (h : p ≤ buf.bytes.length) :
    Safe (lenencLen buf first) p := by
  have := buf.allocated
  simp only [lenencLen, safe_ite_iff, safe_pure, safe_refuse, safe_readLe_iff]
  grind

theorem advances_lenencLen : Advances buf (lenencLen buf first) p := by
  simp [lenencLen, advances_readLe]

theorem leValue_take_lt (bs : Bytes) (n : Nat) : leValue (bs.take n) < 256 ^ n :=
  (leValue_lt _).trans_le (Nat.pow_le_pow_right (by omega) (List.length_take_le n bs))

/-- Only a length of eight bytes is large. -/
theorem lenencLen_lt (h : Returns (lenencLen buf first) p n q) (hfirst : first ≠ 0xFE) :
    n < 2 ^ 24 := by
  rcases returns_lenencLen_iff.1 h with ⟨-, rfl, -⟩ | ⟨-, h⟩ | ⟨-, h⟩ | ⟨rfl, -⟩
  · exact first.toNat_lt.trans (by norm_num)
  · obtain ⟨-, -, rfl⟩ := returns_readLe_iff.1 h
    exact (leValue_take_lt _ 2).trans (by norm_num)
  · obtain ⟨-, -, rfl⟩ := returns_readLe_iff.1 h
    exact (leValue_take_lt _ 3).trans_eq (by norm_num)
  · exact absurd rfl hfirst

theorem safe_takeBytes_iff : Safe (takeBytes buf n) p ↔ p + n < 2 ^ 64 := by
  simp [takeBytes, safe_bind_iff]
  grind

theorem advances_takeBytes : Advances buf (takeBytes buf n) p := by
  simp only [takeBytes, advances_get_bind_iff, advances_add_bind_iff, advances_ite_iff,
    advances_slice_bind_iff]
  intro _
  exact ⟨fun _ => advances_refuse _, fun h _ _ _ =>
    (advances_advance (by omega)).bind fun _ _ _ => advances_pure _⟩

theorem advances_readLenencBytes : Advances buf (readLenencBytes buf) p := by
  simp only [readLenencBytes, advances_get_bind_iff, advances_ite_iff, advances_byteAt_bind_iff]
  refine ⟨fun _ => advances_refuse _, fun hp first _ => ?_⟩
  refine (advances_advance (by omega)).bind fun _ q _ => ?_
  refine advances_ite_iff.2 ⟨fun _ => advances_pure _, fun _ => ?_⟩
  exact advances_lenencLen.bind fun len q' _ => advances_takeBytes

theorem safe_readLenencBytes_of
    (h : ∀ first, buf.bytes[p]? = some first → ∀ n q, Returns (lenencLen buf first) (p + 1) n q →
      q + n < 2 ^ 64) :
    Safe (readLenencBytes buf) p := by
  have hbound := buf.allocated
  simp only [readLenencBytes, safe_bind_iff, safe_get, returns_get_iff, safe_ite_iff]
  refine ⟨trivial, ?_⟩
  rintro _ _ ⟨rfl, rfl⟩
  refine ⟨fun _ => safe_refuse _ _, fun hp => ?_⟩
  simp
  refine ⟨by omega, fun first hfirst => ⟨by omega, fun _ _ => ?_⟩⟩
  exact ⟨safe_lenencLen (by omega), fun n q hret =>
    safe_takeBytes_iff.2 (h first hfirst n q hret)⟩

/-- The sum of the position and a length is the only thing that goes wrong. -/
theorem safe_readLenencBytes_iff : Safe (readLenencBytes buf) p ↔ LenFits buf p := by
  have hbound := buf.allocated
  constructor
  · intro h hfirst hlen
    have hp : p < buf.bytes.length := by omega
    have hfirst' : buf.bytes[p] = 0xFE := by simpa [hp] using hfirst
    have hread : Returns (readLe buf 8) (p + 1) (leValue ((buf.bytes.drop (p + 1)).take 8)) (p + 9) :=
      returns_readLe_iff.2 ⟨rfl, hlen, rfl⟩
    have hword := returns_lenencLen_iff.2 (.inr (.inr (.inr ⟨rfl, hread⟩)))
    simp [readLenencBytes, safe_bind_iff, hp, hfirst'] at h
    exact safe_takeBytes_iff.1 ((h.2 (by omega)).2 _ _ hword)
  · refine fun h => safe_readLenencBytes_of fun first hfirst n q hret => ?_
    by_cases hword : first = 0xFE
    · subst hword
      rcases returns_lenencLen_iff.1 hret with ⟨hlt, -⟩ | ⟨hno, -⟩ | ⟨hno, -⟩ | ⟨-, hread⟩
      · exact absurd hlt (by decide)
      · exact absurd hno (by decide)
      · exact absurd hno (by decide)
      · obtain ⟨rfl, hlen, rfl⟩ := returns_readLe_iff.1 hread
        exact h hfirst hlen
    · have hn := lenencLen_lt hret hword
      have hq := advances_lenencLen.returns n q hret
      have hp : p < buf.bytes.length := (List.getElem?_eq_some_iff.1 hfirst).1
      obtain ⟨-, hq⟩ := hq
      omega

/-! ## Strings with a terminator -/

/-- The position of the first terminator behind `p`, or the end. -/
def nulAt (buf : Buffer) (p : Nat) : Nat := p + ((buf.bytes.drop p).takeWhile (· ≠ 0)).length

theorem nulAt_within : Within buf p (nulAt buf p) := by
  have hle : ((buf.bytes.drop p).takeWhile (· ≠ 0)).length ≤ buf.bytes.length - p := by
    rw [← List.length_drop]
    exact (List.takeWhile_sublist _).length_le
  rw [nulAt]
  exact ⟨by omega, by omega⟩

theorem returns_skipToNul : ∀ {n p : Nat}, buf.bytes.length - p ≤ n →
    Returns (skipToNul buf n) p ⟨⟩ (nulAt buf p)
  | 0, p, h => by
    have : buf.bytes.drop p = [] := List.drop_eq_nil_of_le (by omega)
    simp [skipToNul, nulAt, this]
  | n + 1, p, h => by
    rw [skipToNul]
    refine (returns_get p).bind ?_
    by_cases hp : p < buf.bytes.length
    · have hword : p + 1 < 2 ^ 64 := by
        have := buf.allocated
        omega
      have hdrop := List.drop_eq_getElem_cons hp
      have hbyte : Returns (byteAt buf p : Reader Unit UInt8) p buf.bytes[p] p :=
        returns_byteAt_iff.2 ⟨rfl, List.getElem?_eq_getElem hp⟩
      rw [if_pos hp]
      refine (returns_get p).bind (hbyte.bind ?_)
      by_cases hb : buf.bytes[p] = 0
      · rw [if_neg (by simpa using hb), nulAt, hdrop, hb]
        exact returns_pure _ _
      · have hstep : Returns (advance 1 : Reader Unit PUnit) p ⟨⟩ (p + 1) :=
          returns_advance_iff.2 ⟨rfl, hword⟩
        have hend : nulAt buf p = nulAt buf (p + 1) := by
          rw [nulAt, nulAt, hdrop, List.takeWhile_cons_of_pos (by simpa using hb),
            List.length_cons]
          omega
        rw [if_pos hb, hend]
        exact hstep.bind (returns_skipToNul (by omega))
    · have : buf.bytes.drop p = [] := List.drop_eq_nil_of_le (by omega)
      rw [if_neg hp, nulAt, this]
      exact returns_pure _ _

variable (txt : CopyText)

theorem safe_readNulStr : Safe (readNulStr txt buf) p := by
  have hbound := buf.allocated
  have hskip := @returns_skipToNul buf _ p le_rfl
  have hin := @nulAt_within buf p
  simp [readNulStr, safe_bind_iff, safe_of_returns hskip, returns_iff hskip]
  grind [Within]

theorem advances_readNulStr : Advances buf (readNulStr txt buf) p := by
  have hskip := @returns_skipToNul buf _ p le_rfl
  rw [readNulStr, advances_get_bind_iff]
  refine (advances_of_returns hskip nulAt_within).bind fun _ q hq => ?_
  obtain ⟨-, rfl⟩ := (returns_iff hskip).1 hq
  simp only [advances_get_bind_iff, advances_ite_iff, advances_slice_bind_iff]
  exact ⟨fun _ => advances_refuse _, fun h _ _ =>
    (advances_advance (by omega)).bind fun _ _ _ => advances_pure _⟩

/-- Where `read_nul_str` leaves the position. -/
def afterNul (buf : Buffer) (p : Nat) : Nat :=
  if nulAt buf p < buf.bytes.length then nulAt buf p + 1 else nulAt buf p

theorem returns_readNulStr {s : String} (h : Returns (readNulStr txt buf) p s q) :
    q = afterNul buf p := by
  have hskip := @returns_skipToNul buf _ p le_rfl
  simp [readNulStr, returns_bind_iff, returns_map_iff, returns_iff hskip] at h
  grind [afterNul]

theorem refuses_readNulStr : Refuses (fun q => q = afterNul buf p) (readNulStr txt buf) p := by
  have hskip := @returns_skipToNul buf _ p le_rfl
  simp [readNulStr, refuses_bind_iff, refuses_of_returns hskip, returns_iff hskip]
  grind [afterNul]

/-! ## Logging in -/

/-- The flags a handshake response begins with. -/
def capsOf (buf : Buffer) : UInt32 := UInt32.ofNat (leValue (buf.bytes.take 4))

/-- Where a client sets the flag for it, the length of its proof fits. -/
def ProofFits (buf : Buffer) : Prop :=
  32 ≤ buf.bytes.length → capsOf buf &&& capAuthLenencData ≠ 0 → LenFits buf (afterNul buf 32)

theorem advances_authProof {caps : UInt32} : Advances buf (authProof txt buf caps) p := by
  simp only [authProof, advances_ite_iff, advances_get_bind_iff, advances_byteAt_bind_iff]
  refine ⟨fun _ => advances_readLenencBytes.orElse [], fun _ => ⟨fun _ => ?_, fun _ => ?_⟩⟩
  · refine ⟨fun _ => advances_refuse _, fun hp n _ => ?_⟩
    exact (advances_advance (by omega)).bind fun _ q _ => advances_takeBytes
  · exact ((advances_readNulStr txt).map utf8).orElse []

theorem safe_authProof_iff {caps : UInt32} :
    Safe (authProof txt buf caps) p ↔ (caps &&& capAuthLenencData ≠ 0 → LenFits buf p) := by
  have hbound := buf.allocated
  rw [authProof, safe_ite_iff, safe_orElse_iff, safe_readLenencBytes_iff]
  refine and_iff_left fun _ => ?_
  simp [safe_bind_iff, safe_readNulStr, safe_takeBytes_iff]
  intro _ hp
  refine ⟨hp, fun n _ => ?_⟩
  have := n.toNat_lt
  omega

theorem returns_username {s : String}
    (h : Returns (orElse (readNulStr txt buf) "" : Reader Unit String) p s q) :
    q = afterNul buf p := by
  rcases returns_orElse_iff.1 h with hok | ⟨-, e, hrefuse⟩
  · exact returns_readNulStr txt hok
  · exact refuses_readNulStr txt e q hrefuse

theorem take_four {bs : Bytes} {b0 b1 b2 b3 : UInt8} (h0 : bs[0]? = some b0)
    (h1 : bs[1]? = some b1) (h2 : bs[2]? = some b2) (h3 : bs[3]? = some b3) :
    bs.take 4 = [b0, b1, b2, b3] := by
  match bs, h0, h1, h2, h3 with
  | _ :: _ :: _ :: _ :: _, rfl, rfl, rfl, rfl => rfl

theorem safe_parseHandshakeResponse_iff :
    Safe (parseHandshakeResponse txt buf) p ↔ ProofFits buf := by
  have huser := @exists_returns_orElse _ Unit _ _ _ (@safe_readNulStr buf 32 txt) ""
  by_cases hlen : buf.bytes.length < 32
  · simp [parseHandshakeResponse, hlen, ProofFits]
  · simp [parseHandshakeResponse, hlen, ProofFits, safe_bind_iff, safe_authProof_iff,
      safe_readNulStr]
    constructor
    · intro h _ hcaps
      obtain ⟨s, q, hq⟩ := huser
      have hcaps' : ¬ UInt32.ofNat (leValue [buf.bytes[0], buf.bytes[1], buf.bytes[2],
          buf.bytes[3]]) &&& capAuthLenencData = 0 := by
        rw [← @take_four buf.bytes _ _ _ _ (by simp) (by simp) (by simp) (by simp)]
        exact hcaps
      rw [← returns_username txt hq]
      exact (((h.2 _ (by simp)).2 _ (by simp)).2 _ (by simp)).2 _ (by simp) s q hq hcaps'
    · intro h
      refine ⟨by omega, fun c0 h0 => ⟨by omega, fun c1 h1 => ⟨by omega, fun c2 h2 => ⟨by omega,
        fun c3 h3 s q hq hcaps => ?_⟩⟩⟩⟩
      rw [returns_username txt hq]
      refine h (by omega) ?_
      rw [capsOf, take_four h0 h1 h2 h3]
      exact hcaps

theorem advances_parseHandshakeResponse : Advances buf (parseHandshakeResponse txt buf) 0 := by
  simp only [parseHandshakeResponse, advances_ite_iff, advances_byteAt_bind_iff]
  refine ⟨fun _ => advances_refuse _, fun hlen _ _ _ _ _ _ _ _ => ?_⟩
  have hset : Advances buf (set (4 + 4 + 1 + 23) : Reader Unit PUnit) 0 :=
    advances_of_returns (a := ⟨⟩) rfl ⟨by omega, .inr (by omega)⟩
  refine hset.bind fun _ _ _ => ((advances_readNulStr txt).orElse "").bind fun _ _ _ => ?_
  refine (advances_authProof txt).bind fun _ _ _ => ?_
  refine Advances.bind ?_ fun _ _ _ => Advances.bind ?_ fun _ _ _ => advances_pure _
  · exact advances_ite_iff.2 ⟨fun _ => ((advances_readNulStr txt).map some).orElse none,
      fun _ => advances_pure none⟩
  · exact advances_ite_iff.2 ⟨fun _ => (advances_readNulStr txt).orElse "",
      fun _ => advances_pure ""⟩

end

end HenchDB.Wire
