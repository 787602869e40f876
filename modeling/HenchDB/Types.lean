import HenchDB.Lib.Codec
import HenchDB.BTree.Key

/-!
# Values and their encodings

`Datum` is a value of a row.  It has two encodings: a tagged payload encoding
for rows (`Datum.encode`) and an order-preserving one for keys (`encodeKey`).
A secondary index key is the encoded column value followed by the encoded
primary key (`encodeSecIndexKey`).

A float is its 64-bit pattern.  `decode_key` slices without checking, so a key
that is too short makes it panic; `Fault` keeps that apart from an error.
-/

namespace HenchDB

open Codec

inductive Error where
  | tableNotFound (name : String)
  | tableExists (name : String)
  | columnNotFound (name : String)
  | columnCountMismatch (expected got : Nat)
  | typeMismatch (expected got : String)
  | duplicateKey (key : String)
  | notNullViolation (column : String)
  | multiplePrimaryKeys
  | missingPrimaryKey
  | parseError (msg : String)
  | txnNotActive
  | txnConflict (msg : String)
  | io (msg : String)
  | corrupted (msg : String)
  | notSupported (msg : String)
  | indexNotFound (name : String)
  | indexExists (name : String)
  | foreignKeyViolation (msg : String)
  | invalidSchema (msg : String)
  | databaseNotFound (name : String)
  | databaseExists (name : String)
  | queryTimeout
  | readOnlyReplica
  | invalidQuery (msg : String)
  | executionError (msg : String)
  | invalidOperation (msg : String)
  | accessDenied (user command object : String)
deriving DecidableEq, Repr

/-- How a call ends without a value: an error it returns, or a panic. -/
inductive Fault where
  | err (e : Error)
  | panic
deriving DecidableEq, Repr

/-- `if let Ok(a) = ...`: an error is dropped, a panic is not. -/
def attempt {α : Type} : Except Error α → Option α
  | .ok a => some a
  | .error _ => none

/-! ## Bytes of text and numbers -/

/-- `str::as_bytes`. -/
def utf8 (s : String) : Bytes := s.toUTF8.data.toList

def fromUtf8 (bs : Bytes) : Option String := String.fromUTF8? ⟨⟨bs⟩⟩

@[simp]
theorem fromUtf8_utf8 (s : String) : fromUtf8 (utf8 s) = some s := by
  have hvalid : s.toUTF8.IsValidUTF8 := s.isValidUTF8
  show String.fromUTF8? s.toUTF8 = some s
  rw [String.fromUTF8?, dif_pos hvalid]
  rfl

theorem length_utf8_replicate (n : Nat) :
    (utf8 (String.ofList (List.replicate n 'a'))).length = n := by
  show (String.ofList (List.replicate n 'a')).toByteArray.size = n
  rw [String.toByteArray_ofList]
  induction n with
  | zero => rfl
  | succ n ih =>
    rw [List.replicate_succ, List.utf8Encode_cons, ByteArray.size_append, ih, Nat.add_comm]
    rfl

/-- `u64::to_be_bytes`. -/
def beBytes (n : Nat) : Bytes := (leBytes 8 n).reverse

/-- `u64::from_be_bytes`. -/
def beValue (bs : Bytes) : Nat := leValue bs.reverse

/-! ## Datums -/

inductive Datum where
  | null
  | int (v : Int64)
  | float (bits : UInt64)
  | text (v : String)
  | bool (v : Bool)
  | dateTime (v : Int64)
deriving DecidableEq, Repr

namespace F64

/-- The exponent is all ones and the fraction is not zero. -/
def isNaN (bits : UInt64) : Bool := 0x7FF0000000000000 < bits &&& 0x7FFFFFFFFFFFFFFF

def isZero (bits : UInt64) : Bool := bits &&& 0x7FFFFFFFFFFFFFFF = 0

/-- `a == b` on floats. -/
def eq (a b : UInt64) : Bool := !isNaN a && !isNaN b && (a = b || (isZero a && isZero b))

/-- `v >= 0.0`. -/
def nonneg (bits : UInt64) : Bool :=
  !isNaN bits && (bits &&& 0x8000000000000000 = 0 || isZero bits)

/-- The sign flipped, or every bit flipped for negative values. -/
def ordered (bits : UInt64) : UInt64 :=
  if nonneg bits then bits ^^^ 0x8000000000000000 else ~~~bits

/-- The pattern `ordered` came from. -/
def ofOrdered (bits : UInt64) : UInt64 :=
  if bits &&& 0x8000000000000000 ≠ 0 then bits ^^^ 0x8000000000000000 else ~~~bits

end F64

namespace Datum

/-- The derived `PartialEq`, which compares floats as floats. -/
def eqv : Datum → Datum → Bool
  | .null, .null => true
  | .int a, .int b => a = b
  | .float a, .float b => F64.eq a b
  | .text a, .text b => a = b
  | .bool a, .bool b => a = b
  | .dateTime a, .dateTime b => a = b
  | _, _ => false

/-- `i64::to_le_bytes`. -/
def leInt (v : Int64) : Bytes := leBytes 8 v.toUInt64.toNat

def encode : Datum → Bytes
  | .null => [0]
  | .int v => 1 :: leInt v
  | .float bits => 2 :: leBytes 8 bits.toNat
  | .text v => 3 :: (leBytes 4 (utf8 v).length ++ utf8 v)
  | .bool v => [4, if v then 1 else 0]
  | .dateTime v => 5 :: leInt v

/-- The truncation error of `take`. -/
def truncated : Error := .corrupted "datum: truncated"

/-- A signed little-endian number. -/
def takeInt : Decoder Error Int64 := do
  return Int64.ofUInt64 (UInt64.ofNat (← takeLe 8 truncated))

def decode : Decoder Error Datum := do
  let tag ← takeByte (.corrupted "datum: EOF")
  match tag with
  | 0 => return .null
  | 1 => return .int (← takeInt)
  | 2 => return .float (UInt64.ofNat (← takeLe 8 truncated))
  | 3 =>
    let len ← takeLe 4 truncated
    let bs ← takeN len truncated
    match fromUtf8 bs with
    | some v => return .text v
    | none => throw (.corrupted "utf8")
  | 4 => return .bool (leValue (← takeN 1 truncated) ≠ 0)
  | 5 => return .dateTime (← takeInt)
  | t => throw (.corrupted s!"unknown datum tag {t.toNat}")

/-- The length of a text fits its length field. -/
def Sized : Datum → Prop
  | .text v => (utf8 v).length < 2 ^ 32
  | _ => True

theorem reads_takeInt (v : Int64) : Reads takeInt (leInt v) v := by
  refine (reads_takeLe truncated (UInt64.toNat_lt v.toUInt64)).bind_pure ?_
  rw [UInt64.ofNat_toNat]
  exact .pure

/-- A datum is read back, unless its text is too long for its length field. -/
theorem reads_decode : ∀ {d : Datum}, d.Sized → Reads decode d.encode d
  | .null, _ => (reads_takeByte 0 _).bind .pure
  | .int v, _ => (reads_takeByte 1 _).bind ((reads_takeInt v).bind_pure .pure)
  | .float bits, _ => by
    refine (reads_takeByte 2 _).bind ?_
    refine (reads_takeLe truncated (UInt64.toNat_lt bits)).bind_pure ?_
    rw [UInt64.ofNat_toNat]
    exact .pure
  | .text v, h => by
    refine (reads_takeByte 3 _).bind ((reads_takeLe truncated h).bind ?_)
    refine (reads_takeN truncated rfl).bind_pure ?_
    rw [fromUtf8_utf8]
    exact .pure
  | .bool v, _ => by
    have hone : Reads (takeN 1 truncated) [if v then 1 else 0] [if v then 1 else 0] :=
      reads_takeN truncated rfl
    refine (reads_takeByte 4 _).bind (hone.bind_pure ?_)
    cases v <;> exact .pure
  | .dateTime v, _ => (reads_takeByte 5 _).bind ((reads_takeInt v).bind_pure .pure)

end Datum

/-! ## Keys -/

/-- `(v ^ i64::MIN).to_be_bytes()`. -/
def keyInt (v : Int64) : Bytes := beBytes (v.toUInt64 ^^^ 0x8000000000000000).toNat

/-- The value `keyInt` came from. -/
def ofKeyInt (bs : Bytes) : Int64 :=
  Int64.ofUInt64 (UInt64.ofNat (beValue bs) ^^^ 0x8000000000000000)

def encodeKey : Datum → Except Error Bytes
  | .int v => .ok (1 :: keyInt v)
  | .float bits => .ok (2 :: beBytes (F64.ordered bits).toNat)
  | .text v => .ok (3 :: utf8 v)
  | .bool v => .ok [4, if v then 1 else 0]
  | .dateTime v => .ok (5 :: keyInt v)
  | .null => .error (.notNullViolation "primary key")

/-- The eight bytes behind a key tag; the slice panics when they are missing. -/
def keyWord (rest : Bytes) : Except Fault Bytes :=
  if rest.length < 8 then .error .panic else .ok (rest.take 8)

def decodeKey : Bytes → Except Fault Datum
  | [] => .error (.err (.corrupted "empty key"))
  | tag :: rest =>
    match tag with
    | 1 => (keyWord rest).map fun bs => .int (ofKeyInt bs)
    | 2 => (keyWord rest).map fun bs => .float (F64.ofOrdered (UInt64.ofNat (beValue bs)))
    | 3 =>
      match fromUtf8 rest with
      | some v => .ok (.text v)
      | none => .error (.err (.corrupted "utf8 key"))
    | 4 =>
      match rest with
      | b :: _ => .ok (.bool (b ≠ 0))
      | [] => .error .panic
    | 5 => (keyWord rest).map fun bs => .dateTime (ofKeyInt bs)
    | t => .error (.err (.corrupted s!"unknown key tag {t.toNat}"))

/-- A text in a secondary key: zero bytes escaped, two zero bytes at the end. -/
def escapeText : Bytes → Bytes
  | [] => [0, 0]
  | b :: bs => if b = 0 then 0 :: 0xFF :: escapeText bs else b :: escapeText bs

/-- `encode_sec_key_prefix`, which never fails. -/
def encodeSecKeyPrefix : Datum → Bytes
  | .null => [0]
  | .int v => 1 :: keyInt v
  | .float bits => 2 :: beBytes (F64.ordered bits).toNat
  | .text v => 3 :: escapeText (utf8 v)
  | .bool v => [4, if v then 1 else 0]
  | .dateTime v => 5 :: keyInt v

def encodeSecIndexKey (sec pk : Datum) : Except Error Bytes := do
  return encodeSecKeyPrefix sec ++ (← encodeKey pk)

end HenchDB
