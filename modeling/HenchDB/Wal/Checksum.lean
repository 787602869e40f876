import Mathlib.Data.List.Basic
import HenchDB.Wal.Log

/-!
# What a checksum detects

`crc32` takes a message byte by byte through a table, and so does `table_crc` of
the backup writer, which goes on where the last chunk ended.  Both are one shift
register that takes the message bit by bit, the least significant bit of a byte
first (`update_eq_feed`).  Where two messages differ the register keeps the
difference (`feed_xor`); 32 bits of it fit into the register and no shift clears
it (`feed_window`), so messages that differ only within 32 consecutive bits have
different checksums.

The order of the bits is the one of the register.  With the most significant bit
of a byte first, a burst of 32 bits can pass.
-/

namespace HenchDB.Wal.Checksum

/-! ## The register -/

/-- One shift, the loop body of `crcEntry`. -/
def shift (c : UInt32) : UInt32 :=
  if c &&& 1 ≠ 0 then (0xEDB88320 : UInt32) ^^^ (c >>> 1) else c >>> 1

def lowBit (c : UInt32) : Bool := c.toNat.testBit 0

theorem lowBit_xor (a b : UInt32) : lowBit (a ^^^ b) = (lowBit a ^^ lowBit b) := by
  rw [lowBit, UInt32.toNat_xor, Nat.testBit_xor, lowBit, lowBit]

theorem shift_eq (c : UInt32) :
    shift c = (if lowBit c then (0xEDB88320 : UInt32) else 0) ^^^ (c >>> 1) := by
  have hlow : c &&& 1 ≠ 0 ↔ lowBit c = true := by
    rw [Ne, ← UInt32.toNat_inj, UInt32.toNat_and, UInt32.toNat_one, Nat.and_one_is_mod,
      UInt32.toNat_zero, lowBit, Nat.testBit_zero, decide_eq_true_iff]
    omega
  simp only [shift, hlow]
  split
  · rfl
  · rw [UInt32.zero_xor]

theorem shift_xor (a b : UInt32) : shift (a ^^^ b) = shift a ^^^ shift b := by
  have hpoly : ∀ x y : Bool, (if (x ^^ y) then (0xEDB88320 : UInt32) else 0) =
      (if x then 0xEDB88320 else 0) ^^^ (if y then 0xEDB88320 else 0) := by decide
  rw [shift_eq, shift_eq, shift_eq, lowBit_xor, UInt32.shiftRight_xor, hpoly]
  ac_rfl

theorem shift_iterate_xor (a b : UInt32) : ∀ n : Nat,
    shift^[n] (a ^^^ b) = shift^[n] a ^^^ shift^[n] b
  | 0 => rfl
  | n + 1 => by rw [Function.iterate_succ_apply, shift_xor, shift_iterate_xor _ _ n]; rfl

/-- The highest bit of the polynomial tells which bit was shifted out. -/
theorem shift_eq_zero {c : UInt32} (h : shift c = 0) : c = 0 := by
  have hlt := c.toNat_lt
  rw [shift_eq] at h
  cases hlow : lowBit c with
  | true =>
    have hbit := congrArg (fun x : UInt32 => x.toNat.testBit 31) h
    rw [hlow, if_pos rfl, UInt32.toNat_xor, Nat.testBit_xor, UInt32.toNat_shiftRight] at hbit
    simp [Nat.testBit_shiftRight, Nat.testBit_lt_two_pow hlt] at hbit
    exact absurd hbit (by decide)
  | false =>
    have hhalf := congrArg UInt32.toNat h
    simp [hlow, Nat.shiftRight_eq_div_pow] at hhalf
    rw [lowBit, Nat.testBit_zero, decide_eq_false_iff_not] at hlow
    rw [← UInt32.toNat_inj, UInt32.toNat_zero]
    omega

theorem shift_iterate_eq_zero {c : UInt32} : ∀ {n : Nat}, shift^[n] c = 0 → c = 0
  | 0, h => h
  | _ + 1, h => shift_eq_zero (shift_iterate_eq_zero h)

/-- While zeros are shifted out the register is halved. -/
theorem toNat_shift {c : UInt32} (h : c.toNat % 2 = 0) : (shift c).toNat = c.toNat / 2 := by
  have hlow : lowBit c = false := by simp [lowBit, h]
  rw [shift_eq, hlow]
  simp [Nat.shiftRight_eq_div_pow]

theorem toNat_shift_iterate : ∀ {n : Nat} {c : UInt32}, c.toNat % 2 ^ n = 0 →
    (shift^[n] c).toNat = c.toNat / 2 ^ n
  | 0, c, _ => by simp
  | n + 1, c, h => by
    rw [Nat.pow_succ'] at h
    have heven : c.toNat % 2 = 0 :=
      Nat.mod_eq_zero_of_dvd ((Nat.dvd_mul_right 2 _).trans (Nat.dvd_of_mod_eq_zero h))
    have hrest : (shift c).toNat % 2 ^ n = 0 := by
      rw [toNat_shift heven]
      exact Nat.mod_eq_zero_of_dvd (Nat.dvd_div_of_mul_dvd (Nat.dvd_of_mod_eq_zero h))
    rw [Function.iterate_succ_apply, toNat_shift_iterate hrest, toNat_shift heven,
      Nat.div_div_eq_div_mul, ← Nat.pow_succ']

/-- A look at the table shifts out a whole byte. -/
theorem shift_byte (c : UInt32) : crcEntry (c &&& 0xFF) ^^^ (c >>> 8) = shift^[8] c := by
  have hlt := c.toNat_lt
  have hlow : (c &&& 0xFF).toNat = c.toNat % 2 ^ 8 := by
    rw [UInt32.toNat_and]
    exact Nat.and_two_pow_sub_one_eq_mod c.toNat 8
  have hhigh : (c >>> 8 <<< 8).toNat = c.toNat / 2 ^ 8 * 2 ^ 8 := by
    simp only [UInt32.toNat_shiftLeft, UInt32.toNat_shiftRight, Nat.shiftLeft_eq,
      Nat.shiftRight_eq_div_pow, UInt32.reduceToNat, Nat.reduceMod]
    omega
  have hsplit : c = (c &&& (0xFF : UInt32)) ^^^ (c >>> 8 <<< 8) := by
    rw [← UInt32.toNat_inj, UInt32.toNat_xor, hlow, hhigh]
    refine Nat.eq_of_testBit_eq fun i => ?_
    rw [Nat.testBit_xor, Nat.testBit_mod_two_pow, Nat.testBit_mul_two_pow, Nat.testBit_div_two_pow]
    by_cases hi : i < 8
    · simp [hi, Nat.not_le.mpr hi]
    · simp [hi, Nat.le_of_not_lt hi]
  have hshifted : shift^[8] (c >>> 8 <<< 8) = c >>> 8 := by
    rw [← UInt32.toNat_inj, toNat_shift_iterate (by rw [hhigh]; omega), hhigh]
    simp [Nat.shiftRight_eq_div_pow]
  conv_rhs => rw [hsplit, shift_iterate_xor, hshifted]
  rfl

/-! ## Messages as bits -/

def feed (c : UInt32) (bits : List Bool) : UInt32 :=
  bits.foldl (fun c b => shift (c ^^^ b.toUInt32)) c

def byteBits (b : UInt8) : List Bool := (List.range 8).map b.toNat.testBit

def messageBits (data : Bytes) : List Bool := data.flatMap byteBits

theorem feed_append (c : UInt32) (u v : List Bool) : feed c (u ++ v) = feed (feed c u) v :=
  List.foldl_append

/-- The registers of two messages keep their difference. -/
theorem feed_xor : ∀ {u v : List Bool} {a b : UInt32}, u.length = v.length →
    feed a u ^^^ feed b v = feed (a ^^^ b) (List.zipWith (· ^^ ·) u v)
  | [], [], _, _, _ => rfl
  | x :: u, y :: v, a, b, h => by
    have hbit : (x ^^ y).toUInt32 = x.toUInt32 ^^^ y.toUInt32 := by cases x <;> cases y <;> rfl
    have hstep : shift (a ^^^ b ^^^ (x ^^ y).toUInt32) =
        shift (a ^^^ x.toUInt32) ^^^ shift (b ^^^ y.toUInt32) := by
      rw [← shift_xor, hbit]
      congr 1
      ac_rfl
    have ih := feed_xor (u := u) (v := v) (a := shift (a ^^^ x.toUInt32))
      (b := shift (b ^^^ y.toUInt32)) (Nat.succ.inj h)
    rw [← hstep] at ih
    exact ih

theorem feed_zeros (c : UInt32) : ∀ n : Nat, feed c (List.replicate n false) = shift^[n] c
  | 0 => rfl
  | n + 1 => by
    rw [List.replicate_succ, Function.iterate_succ_apply, ← feed_zeros (shift c) n]
    exact congrArg (fun x => feed (shift x) _) UInt32.xor_zero

/-- The register and the message do not mix. -/
theorem feed_eq (c : UInt32) (bits : List Bool) : feed c bits = shift^[bits.length] c ^^^ feed 0 bits := by
  have hzero : List.zipWith (· ^^ ·) (List.replicate bits.length false) bits = bits := by
    induction bits with
    | nil => rfl
    | cons b bits ih => rw [List.length_cons, List.replicate_succ, List.zipWith_cons_cons, ih]; simp
  rw [← feed_zeros, feed_xor (by simp), UInt32.xor_zero, hzero]

/-- The number that has these bits, the least significant first. -/
def bitsValue : List Bool → Nat
  | [] => 0
  | b :: bits => b.toNat + 2 * bitsValue bits

theorem bitsValue_lt : ∀ bits : List Bool, bitsValue bits < 2 ^ bits.length
  | [] => Nat.one_pos
  | b :: bits => by
    have hrest := bitsValue_lt bits
    have hbit := b.toNat_le
    rw [bitsValue, List.length_cons, Nat.pow_succ]
    omega

theorem bitsValue_eq_zero : ∀ {bits : List Bool}, bitsValue bits = 0 → ∀ b ∈ bits, b = false
  | [], _ => by simp
  | b :: bits, h => by
    rw [bitsValue] at h
    have hbit : b = false := by
      cases b with
      | false => rfl
      | true => simp at h
    exact List.forall_mem_cons.mpr ⟨hbit, bitsValue_eq_zero (by omega)⟩

theorem bitsValue_testBit (x : Nat) : ∀ n : Nat,
    bitsValue ((List.range n).map x.testBit) = x % 2 ^ n
  | 0 => (Nat.mod_one x).symm
  | n + 1 => by
    have hmap : (List.range n).map (x.testBit ∘ Nat.succ) = (List.range n).map (x / 2).testBit :=
      List.map_congr_left fun i _ => Nat.testBit_succ x i
    rw [List.range_succ_eq_map, List.map_cons, List.map_map, hmap, bitsValue,
      bitsValue_testBit (x / 2) n, Nat.testBit_zero, Nat.pow_succ', Nat.mod_mul]
    congr 1
    rcases Nat.mod_two_eq_zero_or_one x with h | h <;> simp [h]

/-- Up to 32 bits fill the register from below before they are shifted out. -/
theorem feed_window : ∀ {bits : List Bool}, bits.length ≤ 32 →
    feed 0 bits = shift^[bits.length] (UInt32.ofNat (bitsValue bits))
  | [], _ => rfl
  | b :: bits, h => by
    have hlt := bitsValue_lt bits
    have hpow : 2 ^ bits.length ≤ 2 ^ 31 := Nat.pow_le_pow_right (by decide) (Nat.le_of_succ_le_succ h)
    have htwice : shift (UInt32.ofNat (2 * bitsValue bits)) = UInt32.ofNat (bitsValue bits) := by
      rw [← UInt32.toNat_inj, toNat_shift]
      · simp only [UInt32.toNat_ofNat']
        omega
      · simp only [UInt32.toNat_ofNat']
        omega
    have hbits : UInt32.ofNat (b.toNat + 2 * bitsValue bits) =
        b.toUInt32 ^^^ UInt32.ofNat (2 * bitsValue bits) := by
      have hxor : b.toNat ^^^ 2 * bitsValue bits = b.toNat + 2 * bitsValue bits := by
        refine Nat.eq_of_testBit_eq fun i => ?_
        rw [Nat.testBit_xor]
        cases i with
        | zero => cases b <;> simp
        | succ i => cases b <;> simp [Nat.testBit_succ, Nat.add_mul_div_left]
      rw [← hxor, UInt32.ofNat_xor]
      cases b <;> rfl
    have hfeed : feed 0 (b :: bits) = feed (shift b.toUInt32) bits := by
      rw [feed, List.foldl_cons, UInt32.zero_xor]
      rfl
    rw [hfeed, feed_eq, feed_window (Nat.le_of_succ_le h), ← shift_iterate_xor, bitsValue, hbits,
      List.length_cons, Function.iterate_succ_apply, shift_xor, htwice]

theorem feed_byteBits (c : UInt32) (b : UInt8) :
    feed c (byteBits b) = shift^[8] (c ^^^ b.toUInt32) := by
  have hlength : (byteBits b).length = 8 := rfl
  have hvalue : UInt32.ofNat (bitsValue (byteBits b)) = b.toUInt32 := by
    rw [byteBits, bitsValue_testBit, ← UInt32.toNat_inj]
    have := b.toNat_lt
    simp only [UInt32.toNat_ofNat', UInt8.toNat_toUInt32]
    omega
  rw [feed_eq, feed_window (by rw [hlength]; decide), hlength, hvalue, shift_iterate_xor]

/-- A look at the table takes the bits of a byte. -/
theorem update_eq_feed (c : UInt32) (b : UInt8) :
    crcEntry ((c ^^^ b.toUInt32) &&& 0xFF) ^^^ (c >>> 8) = feed c (byteBits b) := by
  have hbyte : b.toUInt32 >>> 8 = 0 := by
    have := b.toNat_lt
    rw [← UInt32.toNat_inj, UInt32.toNat_shiftRight]
    simp only [UInt8.toNat_toUInt32, UInt32.reduceToNat, Nat.reduceMod, Nat.shiftRight_eq_div_pow]
    omega
  rw [feed_byteBits, ← shift_byte, UInt32.shiftRight_xor, hbyte, UInt32.xor_zero]

theorem crc32_eq (data : Bytes) : crc32 data = feed 0xFFFFFFFF (messageBits data) ^^^ 0xFFFFFFFF := by
  have hfold : ∀ (data : Bytes) (c : UInt32),
      data.foldl (fun (crc : UInt32) b => crcEntry ((crc ^^^ b.toUInt32) &&& 0xFF) ^^^ (crc >>> 8)) c =
        feed c (messageBits data) := by
    intro data
    induction data with
    | nil => exact fun _ => rfl
    | cons b data ih =>
      intro c
      rw [List.foldl_cons, update_eq_feed, ih, ← feed_append]
      rfl
  rw [crc32, hfold]

/-! ## Bursts -/

theorem length_messageBits (data : Bytes) : (messageBits data).length = 8 * data.length := by
  induction data with
  | nil => rfl
  | cons b data ih =>
    rw [messageBits, List.flatMap_cons, List.length_append, ← messageBits, ih, List.length_cons]
    simp only [byteBits, List.length_map, List.length_range]
    omega

/-- Bits that are zero outside of a window do not leave the register clear. -/
theorem feed_burst {bits : List Bool} {s : Nat} (hset : true ∈ bits)
    (hwindow : ∀ i, bits[i]? = some true → s ≤ i ∧ i < s + 32) : feed 0 bits ≠ 0 := by
  have hbefore : true ∉ bits.take s := by
    intro hmem
    obtain ⟨i, hi⟩ := List.mem_iff_getElem?.mp hmem
    rw [List.getElem?_take] at hi
    split at hi
    · exact absurd (hwindow i hi).1 (by omega)
    · cases hi
  have hbehind : true ∉ (bits.drop s).drop 32 := by
    intro hmem
    obtain ⟨i, hi⟩ := List.mem_iff_getElem?.mp hmem
    rw [List.getElem?_drop, List.getElem?_drop] at hi
    exact absurd (hwindow _ hi).2 (by omega)
  have hzeros : ∀ l : List Bool, true ∉ l → l = List.replicate l.length false := fun l hl =>
    List.eq_replicate_iff.mpr ⟨rfl, fun b hb => Bool.eq_false_of_not_eq_true fun h => hl (h ▸ hb)⟩
  set window := (bits.drop s).take 32 with hw
  have hsplit : bits = bits.take s ++ (window ++ (bits.drop s).drop 32) := by
    rw [hw, List.take_append_drop, List.take_append_drop]
  have hin : true ∈ window := by
    rw [hsplit, List.mem_append, List.mem_append] at hset
    exact (hset.resolve_left hbefore).resolve_right hbehind
  have hlen : window.length ≤ 32 := List.length_take_le ..
  have hclear : shift^[(bits.take s).length] 0 = 0 := Function.iterate_fixed rfl _
  intro hzero
  rw [hsplit, feed_append, feed_append, hzeros _ hbefore, feed_zeros, hclear, hzeros _ hbehind,
    feed_zeros, feed_window hlen] at hzero
  have hvalue := congrArg UInt32.toNat (shift_iterate_eq_zero (shift_iterate_eq_zero hzero))
  rw [UInt32.toNat_ofNat', Nat.mod_eq_of_lt ((bitsValue_lt window).trans_le
    (Nat.pow_le_pow_right (by decide) hlen))] at hvalue
  cases bitsValue_eq_zero hvalue true hin

theorem byteBits_inj {b b' : UInt8} (h : byteBits b = byteBits b') : b = b' := by
  have hvalue := congrArg bitsValue h
  rw [byteBits, byteBits, bitsValue_testBit, bitsValue_testBit] at hvalue
  have hlt := b.toNat_lt
  have hlt' := b'.toNat_lt
  exact UInt8.toNat_inj.mp (by omega)

theorem messageBits_inj : ∀ {d d' : Bytes}, messageBits d = messageBits d' → d.length = d'.length → d = d'
  | [], [], _, _ => rfl
  | b :: d, b' :: d', h, hlen => by
    obtain ⟨hb, hd⟩ := List.append_inj h rfl
    rw [byteBits_inj hb, messageBits_inj hd (Nat.succ.inj hlen)]

/-! ## Chunks -/

/-- One entry of the table that `table_crc` builds. -/
def buildEntry : Nat → UInt32 → UInt32
  | 0, c => c
  | k + 1, c =>
    buildEntry k (if c &&& 1 ≠ 0 then (0xEDB88320 : UInt32) ^^^ (c >>> 1) else c >>> 1)

/-- `TABLE` of `table_crc`. -/
def crcTable : List UInt32 := (List.range 256).map fun i => buildEntry 8 (UInt32.ofNat i)

/-- `CrcWriter`, with what was written. -/
structure CrcWriter where
  inner : Bytes
  crc : UInt32
  count : UInt64
  active : Bool

namespace CrcWriter

def new : CrcWriter := ⟨[], 0xFFFFFFFF, 0, false⟩

def tableCrc (data : Bytes) (crc : UInt32) : UInt32 :=
  data.foldl
    (fun crc b => crcTable.getD ((crc ^^^ b.toUInt32) &&& 0xFF).toNat 0 ^^^ (crc >>> 8)) crc

/-- `CrcWriter::put` where the write succeeds. -/
def put (w : CrcWriter) (bytes : Bytes) : CrcWriter where
  inner := w.inner ++ bytes
  crc := if w.active then tableCrc bytes w.crc else w.crc
  count := w.count + UInt64.ofNat bytes.length
  active := w.active

def finishCrc (w : CrcWriter) : UInt32 := w.crc ^^^ 0xFFFFFFFF

end CrcWriter

open CrcWriter

theorem getD_crcTable {i : UInt32} (h : i.toNat < 256) : crcTable.getD i.toNat 0 = crcEntry i := by
  rw [crcTable, List.getD_eq_getElem?_getD, List.getElem?_map, List.getElem?_range h, Option.map_some,
    UInt32.ofNat_toNat]
  rfl

theorem tableCrc_eq : ∀ (data : Bytes) (crc : UInt32), tableCrc data crc = feed crc (messageBits data)
  | [], _ => rfl
  | b :: data, crc => by
    have hindex : ((crc ^^^ b.toUInt32) &&& (0xFF : UInt32)).toNat < 256 := by
      rw [UInt32.toNat_and]
      exact Nat.lt_of_le_of_lt Nat.and_le_right (by decide)
    rw [tableCrc, List.foldl_cons, getD_crcTable hindex, update_eq_feed, ← tableCrc, tableCrc_eq data,
      ← feed_append]
    rfl

theorem crc_put_chunks : ∀ (chunks : List Bytes) {w : CrcWriter}, w.active = true →
    (chunks.foldl put w).crc = feed w.crc (messageBits chunks.flatten)
  | [], _, _ => rfl
  | chunk :: chunks, w, h => by
    have hbits : messageBits (chunk :: chunks).flatten = messageBits chunk ++ messageBits chunks.flatten := by
      rw [List.flatten_cons, messageBits, List.flatMap_append]
      rfl
    have hcrc : (w.put chunk).crc = feed w.crc (messageBits chunk) := by
      rw [put, if_pos h, tableCrc_eq]
    rw [List.foldl_cons, crc_put_chunks chunks (w := w.put chunk) h, hcrc, hbits, feed_append]

/-- A burst of up to 32 bits changes the checksum, and the writer of a backup finds
the checksum of the whole, however it is cut into chunks. -/
theorem bursts_show_and_chunks_agree :
    (∀ (d d' : Bytes) (s : Nat), d'.length = d.length → d' ≠ d →
      (∀ i : Nat, (messageBits d')[i]? ≠ (messageBits d)[i]? → s ≤ i ∧ i < s + 32) →
      crc32 d ≠ crc32 d') ∧
    ∀ chunks : List Bytes,
      (chunks.foldl put { CrcWriter.new with active := true }).finishCrc = crc32 chunks.flatten := by
  constructor
  · intro d d' s hlen hne hwindow hcrc
    have hbits : (messageBits d).length = (messageBits d').length := by
      rw [length_messageBits, length_messageBits, hlen]
    rw [crc32_eq, crc32_eq, UInt32.xor_left_inj, ← UInt32.xor_eq_zero_iff, feed_xor hbits,
      UInt32.xor_self] at hcrc
    have hdiffers : ∀ i : Nat, (List.zipWith (· ^^ ·) (messageBits d) (messageBits d'))[i]? = some true ↔
        (messageBits d')[i]? ≠ (messageBits d)[i]? := by
      intro i
      rw [List.getElem?_zipWith]
      cases hi : (messageBits d)[i]? with
      | none =>
        rw [List.getElem?_eq_none_iff, hbits, ← List.getElem?_eq_none_iff] at hi
        simp [hi]
      | some b =>
        obtain ⟨hlt, -⟩ := List.getElem?_eq_some_iff.mp hi
        rw [List.getElem?_eq_getElem (hbits ▸ hlt)]
        cases b <;> simp
    refine feed_burst (s := s) ?_ (fun i hi => hwindow i ((hdiffers i).mp hi)) hcrc
    by_contra hnone
    refine hne (messageBits_inj (List.ext_getElem? fun i : Nat => ?_) hlen)
    by_contra hi
    exact hnone (List.mem_iff_getElem?.mpr ⟨i, (hdiffers i).mpr hi⟩)
  · intro chunks
    rw [finishCrc, crc_put_chunks chunks rfl, crc32_eq]
    rfl

theorem bursts_show_and_chunks_agree_bit : crc32 [1, 2, 3] ≠ crc32 [1, 6, 3] :=
  bursts_show_and_chunks_agree.1 [1, 2, 3] [1, 6, 3] 10 rfl (by decide) fun i hi => by
    have hlt : i < 24 := by
      by_contra hge
      exact hi (by rw [List.getElem?_eq_none (Nat.not_lt.mp hge), List.getElem?_eq_none (Nat.not_lt.mp hge)])
    interval_cases i <;> first | exact absurd rfl hi | decide

/-- Bits counted from the most significant one of each byte: these differ from zero
within 32 of them. -/
example : crc32 [10, 30, 233, 213, 224] = crc32 [0, 0, 0, 0, 0] := by decide +kernel

end HenchDB.Wal.Checksum
