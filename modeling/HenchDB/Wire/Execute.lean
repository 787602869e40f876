import HenchDB.Wire.Packet

/-!
# Binary parameters

`COM_STMT_EXECUTE` sends a bitmap of the parameters that are `NULL`, the types when
they are new, and the values in a row.  `decodeParamValue` reads one value;
`decodeExecuteParams` reads the header and then each value where the one before it
ended.  `paramEnd` says where a value ends without decoding it, and `ParamsFit`
follows the values with it.
-/

namespace HenchDB.Wire

open Codec Cursor Program

/-! ## One value -/

/-- What the standard library does with texts and floats of parameters. -/
structure ParamText extends CopyText where
  /-- An `f32` as an `f64`. -/
  widen : UInt32 → UInt64

/-- The arms of `decode_param_value`. -/
inductive ParamGroup where
  | null
  | int (n : Nat)
  | float
  | double
  | decimal
  | string
  | date (withTime : Bool)
  | year
  | bit
  | geometry
  | unsupported
deriving DecidableEq, Repr

def paramGroup (typ : UInt8) : ParamGroup :=
  if typ = 0x06 then .null
  else if typ = 0x01 then .int 1
  else if typ = 0x02 then .int 2
  else if typ = 0x03 ∨ typ = 0x09 then .int 4
  else if typ = 0x08 then .int 8
  else if typ = 0x04 then .float
  else if typ = 0x05 then .double
  else if typ = 0x00 ∨ typ = 0xF6 then .decimal
  else if typ = 0x0F ∨ (0xF7 ≤ typ ∧ typ ≤ 0xFE) then .string
  else if typ = 0x0A then .date false
  else if typ = 0x07 ∨ typ = 0x0B ∨ typ = 0x0C then .date true
  else if typ = 0x0D then .year
  else if typ = 0x10 then .bit
  else if typ = 0xFF then .geometry
  else .unsupported

/-- `{typ:02X}`. -/
def hexUpper (b : UInt8) : String :=
  String.ofList [(Nat.digitChar (b.toNat / 16)).toUpper, (Nat.digitChar (b.toNat % 16)).toUpper]

/-- The message of `fail`. -/
def paramError (typ : UInt8) (what : String) : String :=
  "param type 0x" ++ hexUpper typ ++ ": " ++ what

/-- The message for a packet that ends early. -/
def truncated : String := "truncated EXECUTE packet"

def renderMysqlDate (parts : List Nat) (withTime : Bool) (micros : Option Nat) : String :=
  let two (i : Nat) : String := padded 2 (parts.getD i 0)
  let date := padded 4 (parts.getD 0 0) ++ "-" ++ two 1 ++ "-" ++ two 2
  if !withTime then date
  else
    let t := two 3 ++ ":" ++ two 4 ++ ":" ++ two 5
    match micros with
    | some m => date ++ " " ++ t ++ "." ++ padded 6 m
    | none => date ++ " " ++ t

/-- The value of an integer of `n` bytes. -/
def intValue (unsigned : Bool) (n raw : Nat) : Datum :=
  if unsigned then
    let v := raw &&& (2 ^ (8 * n) - 1)
    if 2 ^ 63 - 1 < v then .text (toString v) else .int (Int64.ofNat v)
  else
    let shift := Int64.ofNat (64 - 8 * n)
    .int ((Int64.ofNat raw <<< shift) >>> shift)

def decimalValue (txt : ParamText) (full : Bytes) : Datum :=
  let s := txt.lossy full
  match parseI64 s.toList with
  | some n => .int n
  | none =>
    match txt.parseFloat s with
    | some f => .float f
    | none => .text s

def bitValue (txt : ParamText) (full : Bytes) : Datum :=
  if full.length ≤ 8 then .int (Int64.ofNat (leValue full)) else .text (txt.lossy full)

/-- A number of `n` bytes, for which no long data may have been sent. -/
def readNumeric (typ : UInt8) (buf : Buffer) (extra : Bytes) (n : Nat) : Reader String Nat :=
  if extra ≠ [] then refuse (paramError typ "long data on numeric param")
  else orRefuse (readLe buf n) truncated

/-- A string with a length, behind the long data. -/
def readString (buf : Buffer) (extra : Bytes) : Reader String Bytes := do
  let b ← orRefuse (readLenencBytes buf) truncated
  return extra ++ b

def dateParts (buf : Buffer) : Nat → Reader String (List Nat)
  | 0 => pure []
  | n + 1 => do
    let part ← orRefuse (readLe buf 1) truncated
    return part :: (← dateParts buf n)

/-- The arm of `decode_param_value` for dates and times. -/
def readDate (typ : UInt8) (withTime : Bool) (buf : Buffer) (extra : Bytes) :
    Reader String Datum := do
  if extra ≠ [] then refuse (paramError typ "long data on date param")
  else if buf.bytes.length ≤ (← get) then refuse truncated
  else
    let len ← byteAt buf (← get)
    advance 1
    if len = 0 then return .null
    else if len ≠ 4 ∧ len ≠ 7 ∧ len ≠ 11 then refuse (paramError typ "bad date length")
    else
      let year ← orRefuse (readLe buf 2) truncated
      let parts ← dateParts buf (min (len.toNat - 2) 5)
      if len = 11 then
        let micros ← orRefuse (readLe buf 4) truncated
        return .text (renderMysqlDate (year :: parts) withTime (some micros))
      else return .text (renderMysqlDate (year :: parts) withTime none)

def decodeParamValue (txt : ParamText) (typ : UInt8) (unsigned : Bool) (buf : Buffer)
    (extra : Bytes) : Reader String Datum :=
  match paramGroup typ with
  | .null => pure .null
  | .int n => intValue unsigned n <$> readNumeric typ buf extra n
  | .float => (fun bits => .float (txt.widen (UInt32.ofNat bits))) <$> readNumeric typ buf extra 4
  | .double => (fun bits => .float (UInt64.ofNat bits)) <$> readNumeric typ buf extra 8
  | .decimal => decimalValue txt <$> readString buf extra
  | .string => (fun full => .text (txt.lossy full)) <$> readString buf extra
  | .date withTime => readDate typ withTime buf extra
  | .year => (fun y => .int (Int64.ofNat y)) <$> readNumeric typ buf extra 2
  | .bit => bitValue txt <$> readString buf extra
  | .geometry => (fun full => .text (txt.lossy full)) <$> readString buf extra
  | .unsupported => refuse ("unsupported param type 0x" ++ hexUpper typ)

/-! ## The packet -/

/-- How many parameters a statement can have: their offsets are a vector of words. -/
abbrev ParamCount := { n : Nat // n < 2 ^ 60 }

def readTypes (rest : Buffer) : List Nat → Reader String (List (UInt8 × Bool))
  | [] => pure []
  | i :: is => do
    let typ ← byteAt rest (← mul 2 i)
    let flag ← byteAt rest (← add (← mul 2 i) 1)
    return (typ, flag &&& 0x80 ≠ 0) :: (← readTypes rest is)

/-- The types of `decode_execute_params`, new or cached, and the bytes behind them. -/
def executeTypes (rest : Buffer) (flag : UInt8) (numParams : Nat)
    (cached : Option (List (UInt8 × Bool))) : Reader String (List (UInt8 × Bool) × Buffer) := do
  if flag = 1 then
    if rest.bytes.length < (← mul 2 numParams) then refuse "truncated EXECUTE param types"
    else
      let types ← readTypes rest (List.range numParams)
      let rest ← slice rest (← mul 2 numParams) rest.bytes.length
      return (types, rest)
  else
    match cached with
    | some types => pure (types, rest)
    | none => refuse "EXECUTE without param types"

/-- The bit of the parameter `i` in its byte of the bitmap. -/
def nullBit (b : UInt8) (i : Nat) : Bool := b &&& (1 <<< UInt8.ofNat (i % 8)) ≠ 0

/-- The loop of `decode_execute_params`, from the parameter `i` on. -/
def decodeParams (txt : ParamText) (bitmap rest : Buffer) (longData : List Bytes) :
    Nat → List (UInt8 × Bool) → Reader String (List Datum)
  | _, [] => pure []
  | i, (typ, unsigned) :: types => do
    let b ← byteAt bitmap (i / 8)
    let d ← (
      if nullBit b i then pure .null
      else decodeParamValue txt typ unsigned rest (longData.getD i []))
    return d :: (← decodeParams txt bitmap rest longData (i + 1) types)

/-- `decode_execute_params`; the position is its own. -/
def decodeExecuteParams (txt : ParamText) (buf : Buffer) (numParams : Nat)
    (cached : Option (List (UInt8 × Bool))) (longData : List Bytes) :
    Reader String (List Datum × List (UInt8 × Bool)) := do
  if numParams = 0 then
    if buf.bytes ≠ [] then refuse "unexpected EXECUTE tail with zero params"
    else return ([], [])
  else
    let nbytes := (← add numParams 7) / 8
    if buf.bytes.length < (← add nbytes 1) then refuse truncated
    else
      let bitmap ← slice buf 0 nbytes
      let rest ← slice buf nbytes buf.bytes.length
      let flag ← byteAt rest 0
      let rest ← slice rest 1 rest.bytes.length
      let (types, rest) ← executeTypes rest flag numParams cached
      if types.length ≠ numParams then refuse "param type count mismatch"
      else
        set 0
        let out ← decodeParams txt bitmap rest longData 0 types
        if (← get) ≠ rest.bytes.length then refuse "trailing bytes in EXECUTE packet"
        else return (out, types)

section

variable {buf : Buffer} {p : Nat}

/-! ## Where a value ends -/

/-- The end of `n` bytes at `p`, where the packet has them. -/
def wordEnd (buf : Buffer) (p n : Nat) : Option Nat :=
  if p + n ≤ buf.bytes.length then some (p + n) else none

/-- The end of a string with a length of `w` bytes. -/
def longEnd (buf : Buffer) (p w : Nat) : Option Nat :=
  (wordEnd buf p w).bind fun q => wordEnd buf q (leValue ((buf.bytes.drop p).take w))

def lenencEnd (buf : Buffer) (p : Nat) : Option Nat :=
  match buf.bytes[p]? with
  | none => none
  | some first =>
    if first < 251 then wordEnd buf (p + 1) first.toNat
    else if first = 0xFB then some (p + 1)
    else if first = 0xFC then longEnd buf (p + 1) 2
    else if first = 0xFD then longEnd buf (p + 1) 3
    else if first = 0xFE then longEnd buf (p + 1) 8
    else none

def dateEnd (buf : Buffer) (p : Nat) : Option Nat :=
  match buf.bytes[p]? with
  | none => none
  | some len =>
    if len = 0 then some (p + 1)
    else if len = 4 ∨ len = 7 ∨ len = 11 then wordEnd buf (p + 1) len.toNat
    else none

/-- What the place of a value depends on. -/
inductive ParamShape where
  | nothing
  | word (n : Nat)
  | string
  | date
  | unsupported
deriving DecidableEq, Repr

def ParamGroup.shape : ParamGroup → ParamShape
  | .null => .nothing
  | .int n => .word n
  | .float => .word 4
  | .double => .word 8
  | .year => .word 2
  | .decimal | .string | .bit | .geometry => .string
  | .date _ => .date
  | .unsupported => .unsupported

def paramEnd (typ : UInt8) (extra : Bytes) (buf : Buffer) (p : Nat) : Option Nat :=
  match (paramGroup typ).shape with
  | .nothing => some p
  | .word n => if extra = [] then wordEnd buf p n else none
  | .string => lenencEnd buf p
  | .date => if extra = [] then dateEnd buf p else none
  | .unsupported => none

/-- The position of a value fits the word together with its length. -/
def ParamFits (typ : UInt8) (extra : Bytes) (buf : Buffer) (p : Nat) : Prop :=
  match (paramGroup typ).shape with
  | .word n => extra = [] → p + n < 2 ^ 64
  | .string => LenFits buf p
  | _ => True

variable {n : Nat} {withTime : Bool} {types : List (UInt8 × Bool)}

theorem endsAt_readLe : EndsAt (readLe buf n) p (wordEnd buf p n) := by
  intro q
  simp [returns_readLe_iff, wordEnd]
  grind

theorem endsAt_takeBytes : EndsAt (takeBytes buf n) p (wordEnd buf p n) := by
  have := buf.allocated
  intro q
  simp [takeBytes, returns_bind_iff, returns_map_iff, wordEnd]
  grind

theorem endsAt_long :
    EndsAt (readLe buf n >>= takeBytes buf) p (longEnd buf p n) := by
  refine endsAt_readLe.bind fun v q hv => ?_
  obtain ⟨-, -, rfl⟩ := returns_readLe_iff.1 hv
  exact endsAt_takeBytes

theorem returns_byteAt {ε : Type} {i : Nat} (h : i < buf.bytes.length) :
    Returns (byteAt buf i : Reader ε UInt8) p buf.bytes[i] p :=
  returns_byteAt_iff.2 ⟨rfl, List.getElem?_eq_getElem h⟩

/-- Inside the packet the position has room for one more. -/
theorem returns_advance_one {ε : Type} (h : p < buf.bytes.length) :
    Returns (advance 1 : Reader ε PUnit) p ⟨⟩ (p + 1) := by
  have := buf.allocated
  exact returns_advance_iff.2 ⟨rfl, by omega⟩

theorem endsAt_readLenencBytes : EndsAt (readLenencBytes buf) p (lenencEnd buf p) := by
  rw [readLenencBytes, lenencEnd]
  refine EndsAt.after (returns_get p) ?_
  by_cases hp : buf.bytes.length ≤ p
  · rw [if_pos hp, List.getElem?_eq_none hp]
    exact endsAt_refuse () p
  · have hp' : p < buf.bytes.length := Nat.not_le.1 hp
    rw [if_neg hp, List.getElem?_eq_getElem hp']
    refine .after (returns_get p) (.after (returns_byteAt hp') (.after (returns_advance_one hp') ?_))
    generalize buf.bytes[p] = first
    rw [lenencLen]
    by_cases h251 : first < 251
    · have hnull : first ≠ 0xFB := by
        rintro rfl
        exact absurd h251 (by decide)
      simp only [if_pos h251, if_neg hnull]
      exact .after (returns_pure _ _) endsAt_takeBytes
    · by_cases hnull : first = 0xFB
      · simp only [if_neg h251, if_pos hnull]
        exact endsAt_pure [] _
      · simp only [if_neg h251, if_neg hnull]
        split_ifs with h2 h3 h8
        · exact endsAt_long
        · exact endsAt_long
        · exact endsAt_long
        · exact endsAt_refuse () _

/-! ## Where a parameter ends -/

variable {typ : UInt8} {extra : Bytes}

theorem endsAt_readNumeric : EndsAt (readNumeric typ buf extra n) p
    (if extra = [] then wordEnd buf p n else none) := by
  rw [readNumeric]
  by_cases h : extra = []
  · rw [if_neg (by simpa using h), if_pos h]
    exact endsAt_readLe.orRefuse _
  · rw [if_pos h, if_neg h]
    exact endsAt_refuse _ p

theorem endsAt_readString : EndsAt (readString buf extra) p (lenencEnd buf p) :=
  (endsAt_readLenencBytes.orRefuse truncated).bind_pure (extra ++ ·)

theorem wordEnd_add (m n : Nat) :
    wordEnd buf p (m + n) = (wordEnd buf p m).bind fun q => wordEnd buf q n := by
  by_cases h : p + m ≤ buf.bytes.length
  · rw [wordEnd, wordEnd, if_pos h, Option.bind_some, wordEnd, ← Nat.add_assoc]
  · rw [wordEnd, wordEnd, if_neg h, if_neg (by omega), Option.bind_none]

theorem wordEnd_zero (h : p ≤ buf.bytes.length) : wordEnd buf p 0 = some p := if_pos h

theorem endsAt_dateParts : ∀ (n : Nat) {p : Nat}, p ≤ buf.bytes.length →
    EndsAt (dateParts buf n) p (wordEnd buf p n)
  | 0, p, hp => by
    rw [wordEnd_zero hp]
    exact endsAt_pure [] p
  | n + 1, p, hp => by
    rw [dateParts, Nat.add_comm n, wordEnd_add]
    refine (endsAt_readLe.orRefuse truncated).bind fun v q hv => ?_
    obtain ⟨rfl, hlen, -⟩ := returns_readLe_iff.1 (returns_orRefuse_iff.1 hv)
    exact (endsAt_dateParts n hlen).bind_pure (v :: ·)

theorem endsAt_dateFields {α : Type} {k : Nat} {f : Nat → List Nat → Reader String α}
    (hf : ∀ year parts q, q ≤ buf.bytes.length → EndsAt (f year parts) q (wordEnd buf q n)) :
    EndsAt (do
      let year ← orRefuse (readLe buf 2) truncated
      let parts ← dateParts buf k
      f year parts) p (wordEnd buf p (2 + (k + n))) := by
  rw [wordEnd_add]
  refine (endsAt_readLe.orRefuse truncated).bind fun year q hyear => ?_
  obtain ⟨rfl, hlen, -⟩ := returns_readLe_iff.1 (returns_orRefuse_iff.1 hyear)
  rw [wordEnd_add]
  refine (endsAt_dateParts k hlen).bind fun parts q hparts => hf year parts q ?_
  have hq := (endsAt_dateParts k hlen q).1 ⟨parts, hparts⟩
  rw [wordEnd] at hq
  split at hq <;> simp_all

theorem endsAt_readDate : EndsAt (readDate typ withTime buf extra) p
    (if extra = [] then dateEnd buf p else none) := by
  rw [readDate]
  by_cases hextra : extra = []
  · rw [if_neg (by simpa using hextra), if_pos hextra, dateEnd]
    refine .after (returns_get p) ?_
    by_cases hp : buf.bytes.length ≤ p
    · rw [if_pos hp, List.getElem?_eq_none hp]
      exact endsAt_refuse _ p
    · have hp' : p < buf.bytes.length := Nat.not_le.1 hp
      rw [if_neg hp, List.getElem?_eq_getElem hp']
      refine .after (returns_get p) (.after (returns_byteAt hp')
        (.after (returns_advance_one hp') ?_))
      generalize buf.bytes[p] = len
      by_cases h0 : len = 0
      · simp only [if_pos h0]
        exact endsAt_pure _ _
      · simp only [if_neg h0]
        by_cases hlen : len = 4 ∨ len = 7 ∨ len = 11
        · rw [if_neg (by tauto), if_pos hlen]
          rcases hlen with rfl | rfl | rfl
          · exact endsAt_dateFields (k := 2) (n := 0) fun _ _ _ hq => by
              rw [wordEnd_zero hq]
              exact endsAt_pure _ _
          · exact endsAt_dateFields (k := 5) (n := 0) fun _ _ _ hq => by
              rw [wordEnd_zero hq]
              exact endsAt_pure _ _
          · exact endsAt_dateFields (k := 5) (n := 4) fun _ _ q _ =>
              (endsAt_readLe.orRefuse truncated).bind_pure _
        · rw [if_pos (by tauto), if_neg hlen]
          exact endsAt_refuse _ _
  · rw [if_pos hextra, if_neg hextra]
    exact endsAt_refuse _ p

theorem endsAt_decodeParamValue {txt : ParamText} {unsigned : Bool} :
    EndsAt (decodeParamValue txt typ unsigned buf extra) p (paramEnd typ extra buf p) := by
  rw [decodeParamValue, paramEnd]
  cases paramGroup typ with
  | null => exact endsAt_pure _ p
  | int n => exact endsAt_readNumeric.map _
  | float => exact endsAt_readNumeric.map _
  | double => exact endsAt_readNumeric.map _
  | decimal => exact endsAt_readString.map _
  | string => exact endsAt_readString.map _
  | date withTime => exact endsAt_readDate
  | year => exact endsAt_readNumeric.map _
  | bit => exact endsAt_readString.map _
  | geometry => exact endsAt_readString.map _
  | unsupported => exact endsAt_refuse _ p

/-! ## Soundness of a parameter -/

theorem safe_readNumeric_iff :
    Safe (readNumeric typ buf extra n) p ↔ (extra = [] → p + n < 2 ^ 64) := by
  simp [readNumeric, safe_readLe_iff]

theorem safe_readString_iff : Safe (readString buf extra) p ↔ LenFits buf p := by
  simp [readString, safe_readLenencBytes_iff]

/-- A word that begins inside the packet does not go past the machine word. -/
theorem safe_readLe_of_le (h : p ≤ buf.bytes.length) (hn : n < 2 ^ 32) :
    Safe (readLe buf n) p := by
  have := buf.allocated
  exact safe_readLe_iff.2 (by omega)

theorem safe_dateParts : ∀ (n : Nat) {p : Nat}, p ≤ buf.bytes.length → Safe (dateParts buf n) p
  | 0, p, _ => safe_pure _ p
  | n + 1, p, hp => by
    rw [dateParts]
    refine safe_bind_iff.2 ⟨safe_orRefuse_iff.2 (safe_readLe_of_le hp (by norm_num)), ?_⟩
    intro v q hv
    obtain ⟨rfl, hlen, -⟩ := returns_readLe_iff.1 (returns_orRefuse_iff.1 hv)
    exact safe_bind_iff.2 ⟨safe_dateParts n hlen, fun _ _ _ => safe_pure _ _⟩

theorem advances_dateParts : ∀ (n : Nat) {p : Nat}, Advances buf (dateParts buf n) p
  | 0, _ => advances_pure _
  | n + 1, _ => (advances_readLe.orRefuse _).bind fun _ _ _ =>
    (advances_dateParts n).bind fun _ _ _ => advances_pure _

theorem safe_readDate : Safe (readDate typ withTime buf extra) p := by
  have := buf.allocated
  simp only [readDate, safe_ite_iff, safe_bind_iff, safe_get, returns_get_iff, safe_refuse]
  refine ⟨fun _ => trivial, fun _ => ⟨trivial, ?_⟩⟩
  rintro _ _ ⟨rfl, rfl⟩
  refine ⟨fun _ => trivial, fun hp => ?_⟩
  simp
  refine ⟨by omega, fun len _ => ⟨by omega, fun _ _ _ => ?_⟩⟩
  refine ⟨safe_readLe_of_le (by omega) (by norm_num), fun year q hyear => ?_⟩
  obtain ⟨rfl, hlen, -⟩ := returns_readLe_iff.1 hyear
  refine ⟨safe_dateParts _ hlen, fun parts q hparts _ => ?_⟩
  have hq := (advances_dateParts _).returns parts q hparts
  exact safe_readLe_of_le (by obtain ⟨-, hq⟩ := hq; omega) (by norm_num)

theorem advances_readNumeric : Advances buf (readNumeric typ buf extra n) p := by
  rw [readNumeric]
  exact advances_ite_iff.2 ⟨fun _ => advances_refuse _, fun _ => advances_readLe.orRefuse _⟩

theorem advances_readString : Advances buf (readString buf extra) p :=
  (advances_readLenencBytes.orRefuse _).bind fun _ _ _ => advances_pure _

theorem advances_readDate : Advances buf (readDate typ withTime buf extra) p := by
  simp only [readDate, advances_ite_iff, advances_get_bind_iff, advances_byteAt_bind_iff]
  refine ⟨fun _ => advances_refuse _, fun _ => ⟨fun _ => advances_refuse _, fun hp len _ => ?_⟩⟩
  refine (advances_advance (by omega)).bind fun _ q _ => ?_
  simp only [advances_ite_iff]
  refine ⟨fun _ => advances_pure _, fun _ => ⟨fun _ => advances_refuse _, fun _ => ?_⟩⟩
  refine (advances_readLe.orRefuse _).bind fun year q _ => ?_
  refine (advances_dateParts _).bind fun parts q _ => ?_
  refine advances_ite_iff.2 ⟨fun _ => ?_, fun _ => advances_pure _⟩
  exact (advances_readLe.orRefuse _).bind fun _ _ _ => advances_pure _

variable {txt : ParamText} {unsigned : Bool}

theorem safe_decodeParamValue_iff :
    Safe (decodeParamValue txt typ unsigned buf extra) p ↔ ParamFits typ extra buf p := by
  rw [decodeParamValue, ParamFits]
  cases paramGroup typ with
  | null => simp [ParamGroup.shape]
  | int n => exact safe_map_iff.trans safe_readNumeric_iff
  | float => exact safe_map_iff.trans safe_readNumeric_iff
  | double => exact safe_map_iff.trans safe_readNumeric_iff
  | decimal => exact safe_map_iff.trans safe_readString_iff
  | string => exact safe_map_iff.trans safe_readString_iff
  | date withTime => simp [ParamGroup.shape, safe_readDate]
  | year => exact safe_map_iff.trans safe_readNumeric_iff
  | bit => exact safe_map_iff.trans safe_readString_iff
  | geometry => exact safe_map_iff.trans safe_readString_iff
  | unsupported => simp [ParamGroup.shape]

theorem advances_decodeParamValue :
    Advances buf (decodeParamValue txt typ unsigned buf extra) p := by
  rw [decodeParamValue]
  cases paramGroup typ with
  | null => exact advances_pure _
  | int n => exact advances_readNumeric.map _
  | float => exact advances_readNumeric.map _
  | double => exact advances_readNumeric.map _
  | decimal => exact advances_readString.map _
  | string => exact advances_readString.map _
  | date withTime => exact advances_readDate
  | year => exact advances_readNumeric.map _
  | bit => exact advances_readString.map _
  | geometry => exact advances_readString.map _
  | unsupported => exact advances_refuse _

/-! ## The values of a packet -/

variable {bitmap rest : Buffer} {longData : List Bytes}

/-- The bitmap says that the parameter `i` is `NULL`. -/
def isNull (bitmap : Buffer) (i : Nat) : Bool := nullBit (bitmap.bytes.getD (i / 8) 0) i

/-- Every value fits that the ones before it let the loop reach. -/
def ParamsFit (bitmap rest : Buffer) (longData : List Bytes) :
    Nat → List (UInt8 × Bool) → Nat → Prop
  | _, [], _ => True
  | i, (typ, _) :: types, p =>
    if isNull bitmap i then ParamsFit bitmap rest longData (i + 1) types p
    else ParamFits typ (longData.getD i []) rest p ∧
      ∀ q, paramEnd typ (longData.getD i []) rest p = some q →
        ParamsFit bitmap rest longData (i + 1) types q

theorem safe_decodeParams_iff : ∀ (i : Nat) (types : List (UInt8 × Bool)) {p : Nat},
    i + types.length ≤ 8 * bitmap.bytes.length →
      (Safe (decodeParams txt bitmap rest longData i types) p ↔
        ParamsFit bitmap rest longData i types p)
  | _, [], p, _ => by simp [decodeParams, ParamsFit]
  | i, (typ, unsigned) :: types, p, hlen => by
    rw [List.length_cons] at hlen
    have hi : i / 8 < bitmap.bytes.length := by omega
    have hrest : ∀ q, Safe (decodeParams txt bitmap rest longData (i + 1) types) q ↔
        ParamsFit bitmap rest longData (i + 1) types q :=
      fun q => safe_decodeParams_iff (i + 1) types (by omega)
    have hnull : nullBit bitmap.bytes[i / 8] i = isNull bitmap i := by
      simp [isNull, hi]
    rw [decodeParams, ParamsFit, safe_bind_iff, safe_byteAt_iff, ← hnull]
    simp only [returns_iff (returns_byteAt hi), and_imp, forall_eq_apply_imp_iff, forall_eq]
    by_cases h : nullBit bitmap.bytes[i / 8] i = true
    · simp [h, hi, hrest]
    · have hends := @endsAt_decodeParamValue rest p typ (longData.getD i []) txt unsigned
      simp only [if_neg h, safe_bind_iff, safe_decodeParamValue_iff, safe_pure, implies_true,
        and_true, hrest, hi, true_and]
      rw [hends.forall_iff]

theorem advances_decodeParams : ∀ (i : Nat) (types : List (UInt8 × Bool)) {p : Nat},
    Advances rest (decodeParams txt bitmap rest longData i types) p
  | _, [], _ => advances_pure _
  | i, (typ, unsigned) :: types, p => by
    simp only [decodeParams, advances_byteAt_bind_iff]
    intro b _
    refine Advances.bind (advances_ite_iff.2 ⟨fun _ => advances_pure _, fun _ =>
      advances_decodeParamValue⟩) fun _ _ _ => ?_
    exact (advances_decodeParams (i + 1) types).bind fun _ _ _ => advances_pure _

/-! ## The whole packet -/

/-- The type of the parameter `i` in the packet. -/
def typeAt (rest : Buffer) (i : Nat) : UInt8 × Bool :=
  (rest.bytes.getD (2 * i) 0, rest.bytes.getD (2 * i + 1) 0 &&& 0x80 ≠ 0)

theorem returns_readTypes : ∀ (is : List Nat) {p : Nat},
    (∀ i ∈ is, 2 * i + 1 < rest.bytes.length) →
      Returns (readTypes rest is) p (is.map (typeAt rest)) p
  | [], _, _ => rfl
  | i :: is, p, h => by
    have hi : 2 * i + 1 < rest.bytes.length := h i List.mem_cons_self
    have hword : 2 * i + 1 < 2 ^ 64 := by
      have := rest.allocated
      omega
    have hmul : Returns (mul 2 i : Reader String Nat) p (2 * i) p :=
      returns_mul_iff.2 ⟨rfl, rfl, by omega⟩
    have hadd : Returns (add (2 * i) 1 : Reader String Nat) p (2 * i + 1) p :=
      returns_add_iff.2 ⟨rfl, rfl, hword⟩
    have htype : typeAt rest i =
        (rest.bytes[2 * i], (rest.bytes[2 * i + 1] &&& 0x80 ≠ 0 : Bool)) := by
      simp [typeAt, hi, Nat.lt_of_succ_lt hi]
    rw [readTypes, List.map_cons, htype]
    refine hmul.bind ((returns_byteAt (by omega)).bind (hmul.bind (hadd.bind
      ((returns_byteAt hi).bind ?_))))
    exact (returns_readTypes is fun j hj => h j (List.mem_cons_of_mem i hj)).bind
      (returns_pure _ _)

/-- The types of the values and the bytes they stand in. -/
def typesOf (rest : Buffer) (flag : UInt8) (numParams : Nat)
    (cached : Option (List (UInt8 × Bool))) : Option (List (UInt8 × Bool) × Buffer) :=
  if flag = 1 then
    if rest.bytes.length < 2 * numParams then none
    else some ((List.range numParams).map (typeAt rest),
      rest.part (2 * numParams) rest.bytes.length)
  else cached.map fun types => (types, rest)

theorem returns_allTypes (h : 2 * n ≤ rest.bytes.length) :
    Returns (readTypes rest (List.range n)) p ((List.range n).map (typeAt rest)) p :=
  returns_readTypes _ fun i hi => by
    have := List.mem_range.1 hi
    omega

theorem executeTypes_spec {flag : UInt8} {n : Nat} (hn : n < 2 ^ 60)
    (cached : Option (List (UInt8 × Bool))) :
    Safe (executeTypes rest flag n cached) p ∧ ∀ r q,
      Returns (executeTypes rest flag n cached) p r q ↔
        q = p ∧ typesOf rest flag n cached = some r := by
  have hmul : Returns (mul 2 n : Reader String Nat) p (2 * n) p :=
    returns_mul_iff.2 ⟨rfl, rfl, by omega⟩
  rw [executeTypes.eq_def, typesOf]
  by_cases hflag : flag = 1
  · by_cases hlen : rest.bytes.length < 2 * n
    · simp [hflag, hlen, safe_bind_iff, returns_bind_iff, returns_iff hmul, safe_of_returns hmul]
    · have htypes := returns_allTypes (p := p) (Nat.not_lt.1 hlen)
      simp [hflag, hlen, safe_bind_iff, returns_bind_iff, returns_iff hmul, safe_of_returns hmul,
        returns_iff htypes, safe_of_returns htypes, returns_map_iff, Nat.not_lt.1 hlen]
      have hword : 2 * n < 18446744073709551616 := by omega
      simp [hword, eq_comm]
  · cases cached <;> simp [hflag, and_comm, eq_comm]

theorem advances_executeTypes {flag : UInt8} (cached : Option (List (UInt8 × Bool))) :
    Advances buf (executeTypes rest flag n cached) p := by
  rw [executeTypes.eq_def]
  refine advances_ite_iff.2 ⟨fun _ => ?_, fun _ => ?_⟩
  · simp only [advances_mul_bind_iff, advances_ite_iff]
    refine fun _ => ⟨fun _ => advances_refuse _, fun hlen => ?_⟩
    have htypes := returns_allTypes (p := p) (Nat.not_lt.1 hlen)
    refine (advances_of_returns htypes (.refl buf p)).bind fun _ q _ => ?_
    simp only [advances_mul_bind_iff, advances_slice_bind_iff, advances_pure, implies_true]
  · cases cached <;> simp

/-- Every value of the packet fits that the loop reaches. -/
def ExecuteFits (buf : Buffer) (numParams : Nat) (cached : Option (List (UInt8 × Bool)))
    (longData : List Bytes) : Prop :=
  let nbytes := (numParams + 7) / 8
  let rest := buf.part nbytes buf.bytes.length
  numParams ≠ 0 → ∀ flag, buf.bytes[nbytes]? = some flag →
    ∀ types values, typesOf (rest.part 1 rest.bytes.length) flag numParams cached =
        some (types, values) →
      types.length = numParams → ParamsFit (buf.part 0 nbytes) values longData 0 types 0

theorem part_head (buf : Buffer) (i : Nat) :
    (buf.part i buf.bytes.length).bytes[0]? = buf.bytes[i]? := by
  by_cases h : i < buf.bytes.length
  · simp [Buffer.part, h]
  · simp [Buffer.part, h]

/-- The bitmap has a bit for every parameter. -/
theorem safe_params_iff (htypes : types.length = n) (hlen : (n + 7) / 8 ≤ buf.bytes.length) :
    Safe (decodeParams txt (buf.part 0 ((n + 7) / 8)) rest longData 0 types) 0 ↔
      ParamsFit (buf.part 0 ((n + 7) / 8)) rest longData 0 types 0 := by
  refine safe_decodeParams_iff 0 types ?_
  rw [Buffer.length_part]
  omega

theorem safe_decodeExecuteParams_iff (numParams : ParamCount)
    (cached : Option (List (UInt8 × Bool))) :
    Safe (decodeExecuteParams txt buf numParams cached longData) p ↔
      ExecuteFits buf numParams cached longData := by
  obtain ⟨n, hn⟩ := numParams
  have hbound := buf.allocated
  have htypes := fun rest flag p =>
    @executeTypes_spec p rest flag _ hn cached
  by_cases h0 : n = 0
  · simp [decodeExecuteParams, h0, ExecuteFits]
  simp [decodeExecuteParams, h0, ExecuteFits, safe_bind_iff, (htypes _ _ _).1, (htypes _ _ _).2,
    part_head]
  constructor
  · intro h flag hflag types values hvalues hlen
    have hin : (n + 7) / 8 < buf.bytes.length := (List.getElem?_eq_some_iff.1 hflag).1
    rw [← safe_params_iff hlen (by omega)]
    refine (((((h.2 (by omega)).2 (by omega) hin).2 (by omega)).2 (by omega)).2 flag hflag).2
      (by omega) types values hvalues hlen
  · intro h
    refine ⟨by omega, fun _ => ⟨by omega, fun _ hin => ⟨by omega, fun _ => ⟨by omega, fun _ =>
      ⟨by omega, fun flag hflag => ⟨by omega, fun _ types values hvalues hlen => ?_⟩⟩⟩⟩⟩⟩
    rw [safe_params_iff hlen (by omega)]
    exact h flag hflag types values hvalues hlen

theorem typesOf_length {flag : UInt8} {cached : Option (List (UInt8 × Bool))} {values : Buffer}
    (h : typesOf rest flag n cached = some (types, values)) :
    values.bytes.length ≤ rest.bytes.length := by
  rw [typesOf] at h
  split_ifs at h
  · cases h
    rw [Buffer.length_part]
    omega
  · obtain ⟨_, -, heq⟩ := Option.map_eq_some_iff.1 h
    cases heq
    exact le_rfl

theorem advances_decodeExecuteParams (numParams : ParamCount)
    (cached : Option (List (UInt8 × Bool))) :
    Advances buf (decodeExecuteParams txt buf numParams cached longData) 0 := by
  obtain ⟨n, hn⟩ := numParams
  simp only [decodeExecuteParams, advances_ite_iff, advances_pure, advances_refuse,
    advances_add_bind_iff, advances_slice_bind_iff, advances_byteAt_bind_iff, implies_true,
    and_self, true_and]
  intro _ _ _ _ _ _ _ _ flag _ _ _
  refine (advances_executeTypes cached).bind fun r q hr => ?_
  obtain ⟨types, values⟩ := r
  obtain ⟨rfl, htypes⟩ := ((executeTypes_spec hn cached).2 _ q).1 hr
  have hlen : values.bytes.length ≤ buf.bytes.length := by
    refine (typesOf_length htypes).trans ?_
    simp only [Buffer.length_part]
    omega
  refine advances_ite_iff.2 ⟨fun _ => advances_refuse _, fun _ => ?_⟩
  have hset : Advances buf (set 0 : Reader String PUnit) 0 :=
    advances_of_returns (a := ⟨⟩) rfl (.refl buf 0)
  refine hset.bind fun _ q hq => ?_
  refine ((advances_decodeParams 0 types).mono hlen).bind fun out q _ => ?_
  simp

end

/-- Which packets each decoder survives, and that a value leaves the position inside. -/
theorem decoders_sound_iff (txt : ParamText) (buf : Buffer) (p : Nat) (typ : UInt8)
    (unsigned : Bool) (extra : Bytes) (numParams : ParamCount)
    (cached : Option (List (UInt8 × Bool))) (longData : List Bytes) :
    (Sound buf (readLenencBytes buf) p ↔ LenFits buf p) ∧
    Sound buf (decLenencInt buf) p ∧
    Sound buf (readNulStr txt.toCopyText buf) p ∧
    (Sound buf (parseHandshakeResponse txt.toCopyText buf) 0 ↔ ProofFits buf) ∧
    (Sound buf (decodeParamValue txt typ unsigned buf extra) p ↔ ParamFits typ extra buf p) ∧
    (Sound buf (decodeExecuteParams txt buf numParams cached longData) 0 ↔
      ExecuteFits buf numParams cached longData) :=
  ⟨(sound_iff advances_readLenencBytes).trans safe_readLenencBytes_iff,
    (sound_iff advances_decLenencInt).2 safe_decLenencInt,
    (sound_iff (advances_readNulStr _)).2 (safe_readNulStr _),
    (sound_iff (advances_parseHandshakeResponse _)).trans (safe_parseHandshakeResponse_iff _),
    (sound_iff advances_decodeParamValue).trans safe_decodeParamValue_iff,
    (sound_iff (advances_decodeExecuteParams numParams cached)).trans
      (safe_decodeExecuteParams_iff numParams cached)⟩

/-- A packet of a length of eight bytes, all ones. -/
def hugeLength : Buffer := ⟨0xFE :: List.replicate 8 0xFF, by decide⟩

/-- The length goes past the word when it is added to the position. -/
theorem hugeLength_not_sound : ¬ Sound hugeLength (readLenencBytes hugeLength) 0 := by
  intro h
  have hrun : exec (readLenencBytes hugeLength) 0 = (.error (.crash .overflow), 9) := rfl
  exact h.safe .overflow (by rw [hrun])

end HenchDB.Wire
