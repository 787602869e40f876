import HenchDB.Sql.DatetimeText
import HenchDB.Wire.Execute

/-!
# Binary times

A time leaves a server in the binary protocol as the numbers of its text, in four,
seven or eleven bytes behind their number (`encodeBinaryDatetime`), and comes back as
a parameter, whose bytes are printed as a text again.  The trip keeps every moment of
the years 0 to 9999 but one: the begin of 1970 is sent without any bytes, and a
parameter without bytes is `NULL` (`binary_datetime_iff`).
-/

namespace HenchDB.Wire

open Codec Cursor Program DateTime

def parseDatetimeComponents (s : String) : Option (Nat × Nat × Nat × Nat × Nat × Nat × Nat) :=
  match words s.toList with
  | [] => none
  | date :: rest =>
    match date.splitOn '-' with
    | [y, m, d] => do
      let y ← parseU32 y
      let m ← parseU32 m
      let d ← parseU32 d
      match rest with
      | [time] =>
        match time.splitOn ':' with
        | [h, min, sec] => do
          let h ← parseU32 h
          let min ← parseU32 min
          let s ← parseU32 ((sec.splitOn '.').headD [])
          let micro := match sec.splitOn '.' with
            | [_, ms] => (parseU32 ms).getD 0
            | _ => 0
          return (y, m, d, h, min, s, micro)
        | _ => none
      | _ => return (y, m, d, 0, 0, 0, 0)
    | _ => none

/-- A length byte and the parts in front of the last one that is not zero. -/
def encodeBinaryDatetime (micros : Int64) : Bytes :=
  if micros = 0 then [0]
  else
    match parseDatetimeComponents (formatDatetimeMicros micros) with
    | some (y, m, d, h, min, sec, micro) =>
      let date := leBytes 2 y ++ [UInt8.ofNat m, UInt8.ofNat d]
      let time := [UInt8.ofNat h, UInt8.ofNat min, UInt8.ofNat sec]
      if h = 0 ∧ min = 0 ∧ sec = 0 ∧ micro = 0 then 4 :: date
      else if micro = 0 then 7 :: (date ++ time)
      else 11 :: (date ++ time ++ leBytes 4 micro)
    | none => [0]

/-- The bytes of a time, as a packet. -/
def binaryDatetime (micros : Int64) : Buffer :=
  ⟨encodeBinaryDatetime micros, by
    have hlen : ∀ w n : Nat, (leBytes w n).length = w := fun w n => length_leBytes ..
    rw [encodeBinaryDatetime]
    split
    · decide
    · split
      · dsimp only
        split_ifs <;> simp [hlen]
      · decide⟩

/-! ## The numbers of a text -/

theorem components_printed {f : Fields} {s : String} (h : f.Accepted)
    (hyear : 0 ≤ f.year ∧ f.year ≤ 9999) (hs : s.toList = f.dateText ++ ' ' :: f.timeText) :
    parseDatetimeComponents s =
      some (f.year.toNat, f.month, f.day, f.hour, f.min, f.sec, f.micro) := by
  have hdash : ∀ {w n : Nat}, '-' ∉ paddedDigits w n := not_mem_of_digits rfl isDigit_paddedDigits
  have hcolon : ∀ {w n : Nat}, ':' ∉ paddedDigits w n := not_mem_of_digits rfl isDigit_paddedDigits
  have hdot : ∀ {w n : Nat}, '.' ∉ paddedDigits w n := not_mem_of_digits rfl isDigit_paddedDigits
  have hnum : ∀ {w n : Nat}, n < 1000000 → parseU32 (paddedDigits w n) = some n :=
    fun hn => parseU32_of_digits (digits_paddedDigits ..) (hn.trans (by decide))
  obtain ⟨-, hmonth, -, hday, hhour, hmin, hsec, hmicro⟩ := h
  rw [parseDatetimeComponents, hs, Fields.words_printed, Fields.dateText, Fields.timeText]
  simp only [splitOn_triple hdash hdash hdash, splitOn_triple hcolon hcolon Fields.colon_notMem_secText,
    hnum (show f.year.toNat < 1000000 by omega), hnum (hmonth.trans_lt (by decide)),
    hnum (hday.trans_lt (by decide)), hnum (hhour.trans (by decide)), hnum (hmin.trans (by decide))]
  rw [Fields.secText]
  split
  · rw [splitOn_pair hdot hdot]
    simp [hnum (hsec.trans (by decide)), hnum hmicro]
  · next hzero =>
    rw [List.splitOn_eq_singleton hdot]
    simp [hnum (hsec.trans (by decide)), Nat.eq_zero_of_not_pos hzero]

/-! ## Reading the bytes back -/

variable {buf : Buffer} {p : Nat} {rest : Bytes}

theorem returns_le {n v : Nat} (hn : 0 < n) (h : buf.bytes.drop p = leBytes n v ++ rest)
    (hv : v < 256 ^ n) : Returns (readLe buf n) p v (p + n) := by
  have hlen := congrArg List.length h
  rw [List.length_drop, List.length_append, length_leBytes] at hlen
  refine returns_readLe_iff.mpr ⟨rfl, by omega, ?_⟩
  rw [h, List.take_left' (length_leBytes ..), leValue_leBytes hv]

theorem drop_le {n v : Nat} (h : buf.bytes.drop p = leBytes n v ++ rest) :
    buf.bytes.drop (p + n) = rest := by
  rw [← List.drop_drop, h, List.drop_left' (length_leBytes ..)]

theorem returns_dateParts : ∀ {parts : List Nat} {p : Nat},
    buf.bytes.drop p = parts.map UInt8.ofNat ++ rest → (∀ v ∈ parts, v < 256) →
      Returns (dateParts buf parts.length) p parts (p + parts.length)
  | [], _, _, _ => returns_pure ..
  | v :: parts, p, h, hparts => by
    have hfirst : buf.bytes.drop p = leBytes 1 v ++ (parts.map UInt8.ofNat ++ rest) := h
    have hv : Returns (readLe buf 1) p v (p + 1) :=
      returns_le Nat.one_pos hfirst (hparts v (List.mem_cons_self ..))
    have hrest := returns_dateParts (drop_le hfirst) fun w hw => hparts w (List.mem_cons_of_mem _ hw)
    rw [List.length_cons, dateParts, Nat.add_comm parts.length, ← Nat.add_assoc]
    exact (returns_orRefuse_iff.mpr hv).bind (hrest.bind (returns_pure ..))

/-- A time in bytes is read as the text of its numbers. -/
theorem returns_readDate {typ len : UInt8} {year : Nat} {parts : List Nat} {micros : Option Nat}
    (hbytes : buf.bytes = len :: (leBytes 2 year ++ (parts.map UInt8.ofNat ++
      micros.elim [] (leBytes 4))))
    (hlen : len = 4 ∨ len = 7 ∨ len = 11) (hcount : parts.length = min (len.toNat - 2) 5)
    (hmicros : if len = 11 then ∃ u < 2 ^ 32, micros = some u else micros = none)
    (hyear : year < 65536) (hparts : ∀ v ∈ parts, v < 256) :
    Returns (readDate typ true buf []) 0 (.text (renderMysqlDate (year :: parts) true micros))
      buf.bytes.length := by
  have hdrop : buf.bytes.drop 1 = leBytes 2 year ++ (parts.map UInt8.ofNat ++
      micros.elim [] (leBytes 4)) := by rw [hbytes]; rfl
  have hy : Returns (readLe buf 2) 1 year 3 := returns_le Nat.two_pos hdrop hyear
  have hp : Returns (dateParts buf (min (len.toNat - 2) 5)) 3 parts (3 + parts.length) :=
    hcount ▸ returns_dateParts (drop_le hdrop) hparts
  have hm : buf.bytes.drop (3 + parts.length) = micros.elim [] (leBytes 4) := by
    rw [← List.drop_drop, drop_le hdrop, List.drop_left' (List.length_map ..)]
  have hnonzero : len ≠ 0 ∧ ¬ (len ≠ 4 ∧ len ≠ 7 ∧ len ≠ 11) := by
    rcases hlen with rfl | rfl | rfl <;> decide
  rw [readDate, if_neg (by simp)]
  refine (returns_get 0).bind ?_
  rw [if_neg (by rw [hbytes]; simp)]
  refine (returns_get 0).bind ((returns_byteAt_iff.mpr ⟨rfl, by rw [hbytes]; rfl⟩).bind
    ((returns_advance_iff (b := ⟨⟩) |>.mpr ⟨rfl, by decide⟩).bind ?_))
  rw [if_neg hnonzero.1, if_neg hnonzero.2]
  refine (returns_orRefuse_iff.mpr hy).bind (hp.bind ?_)
  split at hmicros
  · rw [if_pos ‹_›]
    obtain ⟨u, hu, rfl⟩ := hmicros
    have hm' : buf.bytes.drop (3 + parts.length) = leBytes 4 u ++ [] := by rw [hm, List.append_nil]; rfl
    have hend : buf.bytes.length = 3 + parts.length + 4 := by
      rw [hbytes]
      simp [Nat.add_comm, Nat.add_left_comm]
    rw [hend]
    exact (returns_orRefuse_iff.mpr (returns_le (by decide) hm' hu)).bind (returns_pure ..)
  · rw [if_neg ‹_›]
    subst hmicros
    have hend : buf.bytes.length = 3 + parts.length := by
      rw [hbytes]
      simp [Nat.add_comm, Nat.add_left_comm]
    rw [hend]
    exact returns_pure ..

/-! ## The round trip -/

/-- The text of the numbers of a moment is that moment. -/
theorem parse_render {m : Int64} (hyear : 0 ≤ (dateOf m).1 ∧ (dateOf m).1 ≤ 9999) {parts : List Nat}
    {micros : Option Nat} (hparts : parts.getD 0 0 = (shown m).month ∧ parts.getD 1 0 = (shown m).day ∧
      parts.getD 2 0 = (shown m).hour ∧ parts.getD 3 0 = (shown m).min ∧ parts.getD 4 0 = (shown m).sec)
    (hmicros : micros = if 0 < (shown m).micro then some (shown m).micro else none) :
    parseDatetimeStr (renderMysqlDate ((shown m).year.toNat :: parts) true micros) = some m := by
  obtain ⟨h0, h1, h2, h3, h4⟩ := hparts
  have htext : (renderMysqlDate ((shown m).year.toNat :: parts) true micros).toList =
      (shown m).dateText ++ ' ' :: (shown m).timeText := by
    rw [renderMysqlDate, hmicros, Fields.dateText, Fields.timeText, Fields.secText]
    simp only [List.getD_cons_succ, h0, h1, h2, h3, h4]
    by_cases hpos : 0 < (shown m).micro
    · simp [hpos, toList_padded, -Int.ofNat_toNat]
    · simp [hpos, toList_padded, -Int.ofNat_toNat]
  rw [parseDatetimeStr_eq, Fields.fields_printed (shown_accepted m) hyear htext, Option.map_some,
    shown_micros, Int64.ofInt_toInt]

/-- A moment of the years 0 to 9999 comes back from the bytes unless it is the begin of 1970. -/
theorem binary_datetime_iff (txt : ParamText) (unsigned : Bool) {m : Int64}
    (hyear : 0 ≤ (dateOf m).1 ∧ (dateOf m).1 ≤ 9999) :
    (∃ s, Returns (decodeParamValue txt 0x0C unsigned (binaryDatetime m) []) 0 (.text s)
        (encodeBinaryDatetime m).length ∧ parseDatetimeStr s = some m) ↔ m ≠ 0 := by
  constructor
  · rintro ⟨s, hs, -⟩ rfl
    cases hs
  · intro hm
    have hf := shown_accepted m
    have hcomp := components_printed hf hyear (toList_format hyear.1)
    have hy : (shown m).year.toNat < 65536 := by
      have := hyear.2
      show (dateOf m).1.toNat < 65536
      omega
    obtain ⟨-, hmonth, -, hday, hhour, hmin, hsec, hmicro⟩ := hf
    have hsmall : ∀ v ∈ [(shown m).month, (shown m).day, (shown m).hour, (shown m).min, (shown m).sec],
        v < 256 := by
      simp only [List.forall_mem_cons]
      exact ⟨by omega, by omega, by omega, by omega, by omega, List.forall_mem_nil _⟩
    have hbytes : (binaryDatetime m).bytes = encodeBinaryDatetime m := rfl
    rw [← hbytes]
    rw [encodeBinaryDatetime, if_neg hm, hcomp] at hbytes
    dsimp only at hbytes
    split at hbytes
    · next hzero =>
      obtain ⟨h0, h1, h2, h3⟩ := hzero
      refine ⟨_, @returns_readDate _ _ _ _ [(shown m).month, (shown m).day] none hbytes (.inl rfl) rfl
        (by decide) hy fun v hv => hsmall v ?_, parse_render hyear ⟨rfl, rfl, h0.symm, h1.symm, h2.symm⟩ ?_⟩
      · exact List.mem_of_mem_take (i := 2) hv
      · rw [h3]; rfl
    · split at hbytes
      · next hzero =>
        refine ⟨_, @returns_readDate _ _ _ _ _ none (hbytes.trans ?_) (.inr (.inl rfl)) rfl
          (by decide) hy hsmall, parse_render hyear ⟨rfl, rfl, rfl, rfl, rfl⟩ (by rw [hzero]; rfl)⟩
        simp
      · next hpos =>
        refine ⟨_, @returns_readDate _ _ _ _ _ (some _) (hbytes.trans ?_) (.inr (.inr rfl)) rfl
          ⟨_, hmicro.trans (by decide), rfl⟩ hy hsmall, parse_render hyear ⟨rfl, rfl, rfl, rfl, rfl⟩
            (if_pos (Nat.pos_of_ne_zero hpos)).symm⟩
        simp

def emptyText : ParamText :=
  ⟨⟨fun _ => none, fun _ => "", ⟨fun _ => "", fun _ => ""⟩⟩, fun _ => 0⟩

/-- A microsecond of 1970. -/
theorem binary_datetime_micro :
    ∃ s, Returns (decodeParamValue emptyText 0x0C false (binaryDatetime 1) []) 0 (.text s)
      (encodeBinaryDatetime 1).length ∧ parseDatetimeStr s = some 1 :=
  (binary_datetime_iff emptyText false (by decide)).mpr (by decide)

/-- The begin of 1970 comes back as `NULL`. -/
theorem binary_datetime_epoch :
    Returns (decodeParamValue emptyText 0x0C false (binaryDatetime 0) []) 0 .null 1 ∧
    ¬ ∀ m : Int64, 0 ≤ (dateOf m).1 ∧ (dateOf m).1 ≤ 9999 →
      ∃ s, Returns (decodeParamValue emptyText 0x0C false (binaryDatetime m) []) 0 (.text s)
        (encodeBinaryDatetime m).length ∧ parseDatetimeStr s = some m := by
  refine ⟨rfl, fun hall => ?_⟩
  obtain ⟨s, hs, -⟩ := hall 0 (by decide)
  cases hs

end HenchDB.Wire
