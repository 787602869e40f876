import HenchDB.Query.Hash

/-!
# `IN` and its subquery

`IN (SELECT ..)` looks the value up in the set of the join keys of the results, while
`IN (..)` compares it with each literal.  `NOT IN` over a subquery is false where a
result is `NULL` or not a number; over a list such a result is skipped.  Apart from
that the two agree for a value that is `confused` with no result (`inSubquery_eq`), and
every confused pair makes them differ (`confused_iff`).

A key that both a float and an integer have is that of an integral float in the range
of `i64`, which is the float of its integer (`F64.ofInt_toInt`).
-/

namespace HenchDB

namespace F64

/-! ## Floats without a fraction -/

/-- The pattern of a number with the highest bit at `e` and nothing behind the point. -/
theorem ofNat_of_significand {n m e : Nat} (hlow : 2 ^ 52 ≤ m) (hhigh : m < 2 ^ 53)
    (h : e ≤ 52 ∧ n * 2 ^ (52 - e) = m ∨ 52 < e ∧ n = m * 2 ^ (e - 52)) :
    ofNat n = (e + 1022) * 2 ^ 52 + m := by
  rcases h with ⟨he, rfl⟩ | ⟨he, rfl⟩
  · have hpow : 2 ^ e * 2 ^ (52 - e) = 2 ^ 52 := by rw [← Nat.pow_add, Nat.add_sub_cancel' he]
    have hpos : 0 < 2 ^ (52 - e) := Nat.two_pow_pos _
    have hlow' : 2 ^ e ≤ n := by
      rw [← hpow] at hlow
      exact Nat.le_of_mul_le_mul_right hlow hpos
    have hhigh' : n < 2 ^ (e + 1) := by
      have hpow' : 2 ^ (e + 1) * 2 ^ (52 - e) = 2 ^ 53 := by
        rw [Nat.pow_succ 2 e, Nat.mul_right_comm, hpow]
        rfl
      rw [← hpow'] at hhigh
      exact Nat.lt_of_mul_lt_mul_right hhigh
    have hne : n ≠ 0 := by
      have := Nat.two_pow_pos e
      omega
    have hlog : n.log2 = e := (Nat.log2_eq_iff hne).mpr ⟨hlow', hhigh'⟩
    rw [ofNat, if_neg hne, hlog]
    simp only [if_pos he]
  · have hpos : 0 < 2 ^ (e - 52) := Nat.two_pow_pos _
    have hlow' : 2 ^ e ≤ m * 2 ^ (e - 52) := by
      calc 2 ^ e = 2 ^ 52 * 2 ^ (e - 52) := by rw [← Nat.pow_add, Nat.add_sub_cancel' he.le]
        _ ≤ m * 2 ^ (e - 52) := Nat.mul_le_mul_right _ hlow
    have hhigh' : m * 2 ^ (e - 52) < 2 ^ (e + 1) := by
      calc m * 2 ^ (e - 52) < 2 ^ 53 * 2 ^ (e - 52) := Nat.mul_lt_mul_of_pos_right hhigh hpos
        _ = 2 ^ (e + 1) := by rw [← Nat.pow_add]; congr 1; omega
    have hne : m * 2 ^ (e - 52) ≠ 0 := by
      have := Nat.two_pow_pos e
      omega
    have hlog : (m * 2 ^ (e - 52)).log2 = e := (Nat.log2_eq_iff hne).mpr ⟨hlow', hhigh'⟩
    have hround : roundShift (m * 2 ^ (e - 52)) (e - 52) = m := by
      simp only [roundShift, Nat.mul_div_cancel _ hpos, Nat.mul_mod_left, Nat.mul_zero]
      rw [if_neg]
      omega
    rw [ofNat, if_neg hne, hlog]
    simp only [if_neg (by omega : ¬ e ≤ 52), hround]

variable {f : UInt64}

/-- A float in the range of `i64`. -/
theorem inRange_spec (h : inRange f = true) :
    isNaN f = false ∧ magnitude f ≤ 1086 * 2 ^ 52 := by
  have hlow : place (ofInt Int64.minValue) = -(1086 * 2 ^ 52) := by decide
  have hhigh : place (ofInt Int64.maxValue) = 1086 * 2 ^ 52 := by decide
  simp only [inRange, le, hlow, hhigh, Bool.and_eq_true, Bool.not_eq_true', decide_eq_true_eq] at h
  refine ⟨h.1.1.2, ?_⟩
  have hplace := h.1.2
  have hplace' := h.2.2
  rw [place] at hplace hplace'
  split at hplace
  · next hneg => omega
  · next hneg =>
    rw [if_neg hneg] at hplace'
    omega

/-- The magnitude of a float without a fraction is the pattern of its integer. -/
theorem ofNat_truncated (hintegral : isIntegral f = true) (hpos : magnitude f ≠ 0) :
    ofNat (truncated f) = magnitude f := by
  have hmag : magnitude f = exponent f * 2 ^ 52 + magnitude f % 2 ^ 52 := by
    rw [exponent]
    omega
  rw [isIntegral, Bool.and_eq_true, Bool.or_eq_true, decide_eq_true_eq, decide_eq_true_eq,
    decide_eq_true_eq] at hintegral
  have hint := hintegral.2
  have hfrac : magnitude f % 2 ^ 52 < 2 ^ 52 := Nat.mod_lt _ (by decide)
  have hexp : exponent f ≠ 0 := by
    intro hzero
    rw [hzero, significand, hzero, if_pos rfl, Nat.add_zero, Nat.sub_zero] at hint
    rcases hint with hint | hint
    · cases hint
    · obtain ⟨k, hk⟩ : ∃ k, k = 1075 := ⟨_, rfl⟩
      rw [← hk, Nat.mod_eq_of_lt (hfrac.trans (Nat.pow_lt_pow_right (by decide) (by omega)))] at hint
      rw [hzero, hint] at hmag
      exact hpos hmag
  have hsig : significand f = magnitude f % 2 ^ 52 + 2 ^ 52 := by rw [significand, if_neg hexp]
  have hlow : 2 ^ 52 ≤ significand f := by omega
  have hhigh : significand f < 2 ^ 53 := by omega
  rcases Nat.lt_or_ge 1075 (exponent f) with he | he
  · have hshift := ofNat_of_significand (n := significand f * 2 ^ (exponent f - 1075))
      (e := exponent f - 1023) hlow hhigh (.inr ⟨by omega, by
        rw [show exponent f - 1023 - 52 = exponent f - 1075 by omega]⟩)
    rw [truncated, if_neg (Nat.not_le_of_lt he), hshift]
    omega
  · have hdvd : 2 ^ (1075 - exponent f) ∣ significand f := by
      rcases hint with hge | hmod
      · rw [Nat.sub_eq_zero_of_le hge]
        exact one_dvd _
      · exact Nat.dvd_of_mod_eq_zero hmod
    have hk : 1075 - exponent f < 53 := by
      have hle := Nat.le_of_dvd (by omega) hdvd
      exact (Nat.pow_lt_pow_iff_right (by decide)).mp (hle.trans_lt hhigh)
    have hshift := ofNat_of_significand (n := significand f / 2 ^ (1075 - exponent f))
      (e := exponent f - 1023) hlow hhigh (.inl ⟨by omega, by
        rw [show 52 - (exponent f - 1023) = 1075 - exponent f by omega,
          Nat.div_mul_cancel hdvd]⟩)
    rw [truncated, if_pos he, hshift]
    omega

theorem truncated_le (h : magnitude f ≤ 1086 * 2 ^ 52) : truncated f ≤ 2 ^ 63 := by
  have hsig : significand f < 2 ^ 53 := by
    rw [significand]
    split <;> omega
  rw [truncated]
  split
  · exact (Nat.div_le_self _ _).trans (hsig.le.trans (by decide))
  · next hgt =>
    rcases Nat.lt_or_ge (exponent f) 1086 with he | he
    · calc significand f * 2 ^ (exponent f - 1075)
          ≤ 2 ^ 53 * 2 ^ 10 :=
            Nat.mul_le_mul hsig.le (Nat.pow_le_pow_right (by decide) (by omega))
        _ = 2 ^ 63 := by decide
    · have hexp : exponent f = 1086 := by
        rw [exponent] at he ⊢
        omega
      have hsig' : significand f = 2 ^ 52 := by
        rw [significand, hexp, if_neg (by decide)]
        rw [exponent] at hexp
        omega
      rw [hexp, hsig']
      decide

/-- A float without a fraction in the range of `i64` is that of its integer. -/
theorem ofInt_toInt (hintegral : isIntegral f = true) (hrange : inRange f = true)
    (hpos : magnitude f ≠ 0) : ofInt (toInt f) = f := by
  obtain ⟨hnan, hmag⟩ := inRange_spec hrange
  have hn := ofNat_truncated hintegral hpos
  have hle := truncated_le hmag
  have hn0 : truncated f ≠ 0 := by
    intro hzero
    rw [hzero] at hn
    exact hpos hn.symm
  have hbits : f.toNat = magnitude f + if isNegative f then 2 ^ 63 else 0 := by
    have hlt := f.toNat_lt
    rw [magnitude, isNegative]
    simp only [decide_eq_true_eq]
    split <;> omega
  refine UInt64.toNat_inj.mp ?_
  rw [toNat_ofInt, hbits, toInt, hnan]
  simp only [Bool.false_eq_true, if_false]
  cases isNegative f with
  | true =>
    have hvalue : (Int64.ofInt (-(min (truncated f) (2 ^ 63) : Nat))).toInt =
        -(truncated f : Int) := by
      rw [Nat.min_eq_left hle]
      exact Int64.toInt_ofInt_of_le (by omega) (by omega)
    rw [if_pos rfl, if_pos rfl, hvalue, Int.natAbs_neg, Int.natAbs_natCast, hn, if_pos (by omega)]
  | false =>
    have hvalue : (Int64.ofInt (min (truncated f) (2 ^ 63 - 1) : Nat)).toInt =
        (min (truncated f) (2 ^ 63 - 1) : Nat) :=
      Int64.toInt_ofInt_of_le (by omega) (by omega)
    have hpattern : ofNat (min (truncated f) (2 ^ 63 - 1)) = magnitude f := by
      rcases Nat.lt_or_ge (truncated f) (2 ^ 63) with hlt | hge
      · rw [Nat.min_eq_left (by omega), hn]
      · rw [← hn, le_antisymm hle hge]
        decide
    simp only [Bool.false_eq_true, if_false, hvalue, Int.natAbs_natCast, hpattern]
    rw [if_neg (by omega)]

end F64

/-! ## Membership -/

/-- The loop of `build_set`: the keys of the results, and whether a result has none. -/
def buildSet (results : List Datum) : List JoinKey × Bool :=
  results.foldl (fun (set, hasNullish) d =>
    match joinKey d with
    | some k => (set.insert k, hasNullish)
    | none => (set, true)) ([], false)

def evalIn (test : Datum) (set : List JoinKey) (hasNullish negated : Bool) : Bool :=
  if test = .null then false
  else
    let hit := (joinKey test).elim false set.contains
    if negated then if hit then false else !hasNullish
    else hit

/-- `test IN (SELECT ..)` on the results of the query. -/
def inSubquery (test : Datum) (results : List Datum) (negated : Bool) : Bool :=
  let (set, hasNullish) := buildSet results
  evalIn test set hasNullish negated

theorem buildSet_spec (results : List Datum) :
    (∀ k, k ∈ (buildSet results).1 ↔ ∃ d ∈ results, joinKey d = some k) ∧
      (buildSet results).2 = results.any fun d => (joinKey d).isNone := by
  have hfold : ∀ (results : List Datum) (set : List JoinKey) (b : Bool) (out : List JoinKey × Bool),
      results.foldl (fun (set, hasNullish) d =>
        match joinKey d with
        | some k => (set.insert k, hasNullish)
        | none => (set, true)) (set, b) = out →
      (∀ k, k ∈ out.1 ↔ k ∈ set ∨ ∃ d ∈ results, joinKey d = some k) ∧
        out.2 = (b || results.any fun d => (joinKey d).isNone) := by
    intro results
    induction results with
    | nil =>
      rintro set b out rfl
      simp
    | cons d results ih =>
      intro set b out h
      rw [List.foldl_cons] at h
      cases hd : joinKey d with
      | none =>
        rw [hd] at h
        obtain ⟨hmem, hflag⟩ := ih _ _ _ h
        refine ⟨fun k => ?_, ?_⟩
        · rw [hmem]
          simp [hd]
        · rw [hflag]
          simp [hd]
      | some k =>
        rw [hd] at h
        obtain ⟨hmem, hflag⟩ := ih _ _ _ h
        refine ⟨fun k' => ?_, ?_⟩
        · rw [hmem, List.mem_insert_iff]
          simp only [List.mem_cons, exists_eq_or_imp, hd, Option.some.injEq]
          grind
        · rw [hflag]
          simp [hd]
  obtain ⟨hmem, hflag⟩ := hfold results [] false _ rfl
  exact ⟨fun k => by rw [buildSet, hmem]; simp, by rw [buildSet, hflag, Bool.false_or]⟩

/-! ## Keys and equality -/

def sameMoment : Datum → Datum → Bool
  | .text s, .text s' =>
    s ≠ s' && (parseDatetimeStr s).isSome && parseDatetimeStr s = parseDatetimeStr s'
  | _, _ => false

/-- The keys of the two values do not tell what a comparison tells. -/
def confused (a b : Datum) : Bool := keySplit a b || sameMoment a b

variable {k : JoinKey} {a b : Datum}

theorem joinKey_float_spec {f : UInt64} (h : joinKey (.float f) = some k) :
    F64.isNaN f = false ∧
      (k = .float f ∨ k = .int (F64.toInt f) ∧ F64.eq (F64.ofInt (F64.toInt f)) f = true) := by
  rw [joinKey] at h
  split at h
  · cases h
  · next hnan =>
    have hnan' : F64.isNaN f = false := by simpa using hnan
    refine ⟨hnan', ?_⟩
    split at h
    · next hint =>
      cases h
      rw [Bool.and_eq_true] at hint
      refine .inr ⟨rfl, ?_⟩
      by_cases hzero : F64.magnitude f = 0
      · have hz : F64.isZero f = true := (F64.isZero_iff f).mpr hzero
        have hzero' : F64.isZero (F64.ofInt 0) = true := by decide
        rw [(joinKey_zero hz).2, F64.eq, F64.isNaN_ofInt, hnan', hz, hzero']
        simp
      · rw [F64.ofInt_toInt hint.1 hint.2 hzero, F64.eq, hnan']
        simp
    · exact .inl (Option.some.inj h).symm

theorem F64.eq_trans {f g h : UInt64} (hfg : F64.eq f g = true) (hgh : F64.eq g h = true) :
    F64.eq f h = true := by
  simp only [F64.eq] at *
  grind

section
variable {i : Int64} {f g : UInt64} {s s' : String} {t : Int64}

theorem sameValue_int_float (h : joinKey (.float f) = some (.int i)) :
    (Datum.int i).sameValue (.float f) = true := by
  obtain ⟨-, hkey | ⟨hkey, heq⟩⟩ := joinKey_float_spec h
  · cases hkey
  · obtain rfl := JoinKey.int.inj hkey
    simpa [Datum.sameValue, Datum.coercePair, Datum.eqv] using heq

theorem sameValue_float_float {k : JoinKey} (hf : joinKey (.float f) = some k)
    (hg : joinKey (.float g) = some k) : (Datum.float f).sameValue (.float g) = true := by
  have heq : F64.eq f g = true := by
    obtain ⟨hnan, rfl | ⟨rfl, hfi⟩⟩ := joinKey_float_spec hf
    · obtain ⟨-, hkey | ⟨hkey, -⟩⟩ := joinKey_float_spec hg
      · obtain rfl := JoinKey.float.inj hkey
        rw [F64.eq, hnan]
        simp
      · cases hkey
    · obtain ⟨-, hkey | ⟨hkey, hgi⟩⟩ := joinKey_float_spec hg
      · cases hkey
      · rw [← JoinKey.int.inj hkey] at hgi
        rw [F64.eq_swap] at hfi
        exact F64.eq_trans hfi hgi
  simpa [Datum.sameValue, Datum.coercePair, Datum.eqv] using heq

theorem sameValue_text_text (hkeys : joinKey (.text s) = joinKey (.text s'))
    (h : sameMoment (.text s) (.text s') = false) : (Datum.text s).sameValue (.text s') = true := by
  have heq : s = s' := by
    simp only [joinKey, Option.some.injEq] at hkeys
    simp only [sameMoment] at h
    cases hs : parseDatetimeStr s with
    | none => cases hs' : parseDatetimeStr s' <;> simp_all
    | some m => cases hs' : parseDatetimeStr s' <;> simp_all
  simp [Datum.sameValue, Datum.coercePair, Datum.eqv, heq]

theorem sameValue_text_dateTime (hkeys : joinKey (.text s) = joinKey (.dateTime t)) :
    (Datum.text s).sameValue (.dateTime t) = true := by
  simp only [joinKey, Option.some.injEq] at hkeys
  cases hs : parseDatetimeStr s with
  | none => simp [hs] at hkeys
  | some m => simp_all [Datum.sameValue, Datum.coercePair, Datum.eqv]

end

/-- Numbers, times with texts, and truth values. -/
inductive Family where
  | number
  | moment
  | truth

/-- The values whose keys may be one. -/
def Datum.family : Datum → Option Family
  | .null => none
  | .int _ | .float _ => some .number
  | .text _ | .dateTime _ => some .moment
  | .bool _ => some .truth

def JoinKey.family : JoinKey → Family
  | .int _ | .float _ => .number
  | .text _ | .dateTime _ => .moment
  | .bool _ => .truth

theorem family_of_joinKey (h : joinKey a = some k) :
    a.family = some k.family := by
  cases a with
  | null => cases h
  | float f =>
    obtain ⟨-, rfl | ⟨rfl, -⟩⟩ := joinKey_float_spec h
    · rfl
    · rfl
  | text s =>
    cases h
    cases parseDatetimeStr s <;> rfl
  | int | bool | dateTime =>
    cases h
    rfl

theorem sameValue_of_joinKey (h : confused a b = false) (ha : joinKey a = some k)
    (hb : joinKey b = some k) : a.sameValue b = true := by
  have hfamily : a.family = b.family := (family_of_joinKey ha).trans (family_of_joinKey hb).symm
  have hmoment : sameMoment a b = false := (Bool.or_eq_false_iff.mp h).2
  cases a with
  | null => cases ha
  | int i =>
    cases b with
    | int j =>
      have hij : JoinKey.int i = .int j := Option.some.inj (ha.trans hb.symm)
      simp [Datum.sameValue, Datum.coercePair, Datum.eqv, JoinKey.int.inj hij]
    | float f => exact sameValue_int_float (hb.trans ha.symm)
    | null | text | bool | dateTime => cases hfamily
  | float f =>
    cases b with
    | int j =>
      rw [Datum.sameValue_swap]
      exact sameValue_int_float (ha.trans hb.symm)
    | float g => exact sameValue_float_float ha hb
    | null | text | bool | dateTime => cases hfamily
  | text s =>
    cases b with
    | text s' => exact sameValue_text_text (ha.trans hb.symm) hmoment
    | dateTime t => exact sameValue_text_dateTime (ha.trans hb.symm)
    | null | int | float | bool => cases hfamily
  | bool v =>
    cases b with
    | bool v' =>
      have hvv : JoinKey.bool v = .bool v' := Option.some.inj (ha.trans hb.symm)
      simp [Datum.sameValue, Datum.coercePair, Datum.eqv, JoinKey.bool.inj hvv]
    | null | int | float | text | dateTime => cases hfamily
  | dateTime t =>
    cases b with
    | text s =>
      rw [Datum.sameValue_swap]
      exact sameValue_text_dateTime (hb.trans ha.symm)
    | dateTime t' =>
      have htt : JoinKey.dateTime t = .dateTime t' := Option.some.inj (ha.trans hb.symm)
      simp [Datum.sameValue, Datum.coercePair, Datum.eqv, JoinKey.dateTime.inj htt]
    | null | int | float | bool => cases hfamily

/-- Values that are not confused are equal just if they have one key. -/
theorem joinKey_eq_some_iff (h : confused a b = false) :
    (∃ k, joinKey a = some k ∧ joinKey b = some k) ↔ a.sameValue b = true := by
  constructor
  · rintro ⟨k, ha, hb⟩
    exact sameValue_of_joinKey h ha hb
  · intro hsame
    obtain ⟨k, hk⟩ := Option.isSome_iff_exists.mp (joinKey_isSome hsame)
    rw [confused, Bool.or_eq_false_iff] at h
    exact ⟨k, hk, by rw [← hk, (joinKey_eq_iff hsame).mpr h.1]⟩

/-! ## The two tests -/

/-- The values that `NOT IN` takes for unknown. -/
def unknown (d : Datum) : Bool :=
  match d with
  | .null => true
  | .float f => F64.isNaN f
  | _ => false

theorem joinKey_isNone (d : Datum) : (joinKey d).isNone = unknown d := by
  cases d with
  | float f =>
    rw [joinKey, unknown]
    split
    · next hnan => exact hnan.symm
    · next hnan =>
      have hnan' : F64.isNaN f = false := by simpa using hnan
      rw [hnan']
      split <;> rfl
  | _ => rfl

theorem inValues_eq (v : Datum) (results : List Datum) (negated : Bool) :
    inValues v results negated =
      (v ≠ .null && (results.any v.sameValue).xor negated) := by
  rw [inValues]
  by_cases hv : v = .null
  · simp [hv]
  · have hany : (results.any fun d => if d = .null then false else
        (v.coercePair d).1.eqv (v.coercePair d).2) = results.any v.sameValue := by
      refine congrArg results.any (funext fun d => ?_)
      by_cases hd : d = .null
      · simp [hd, Datum.sameValue]
      · simp [hd, hv, Datum.sameValue]
    simp only [if_neg hv, hany]
    cases negated <;> simp [hv]

theorem hit_iff {v : Datum} {results : List Datum} :
    (joinKey v).elim false (buildSet results).1.contains = true ↔
      ∃ r ∈ results, ∃ k, joinKey v = some k ∧ joinKey r = some k := by
  have hmem := (buildSet_spec results).1
  cases hk : joinKey v with
  | none => simp
  | some k =>
    rw [Option.elim_some, List.contains_iff_mem, hmem]
    simp

/-- A value that no result is confused with is in the set just if it is in the list; but
no value is taken to be outside a set with an unknown result. -/
theorem inSubquery_eq (v : Datum) (results : List Datum) (negated : Bool)
    (h : ∀ r ∈ results, confused v r = false) :
    inSubquery v results negated =
      (inValues v results negated && !(negated && results.any unknown)) := by
  have hhit : (joinKey v).elim false (buildSet results).1.contains = results.any v.sameValue := by
    rw [Bool.eq_iff_iff, hit_iff, List.any_eq_true]
    exact exists_congr fun r => and_congr_right fun hr => joinKey_eq_some_iff (h r hr)
  have hunknown : (buildSet results).2 = results.any unknown := by
    rw [(buildSet_spec results).2]
    exact congrArg results.any (funext joinKey_isNone)
  rw [inSubquery, inValues_eq]
  simp only [evalIn, hhit, hunknown]
  by_cases hv : v = .null
  · simp [hv]
  · cases negated <;> cases results.any v.sameValue <;> simp [hv]

/-- A number that is not there, and `NULL`. -/
theorem not_in_unknown :
    inSubquery (.int 2) [.float 0x3FF0000000000000, .null] true =
      (inValues (.int 2) [.float 0x3FF0000000000000, .null] true &&
        !(true && [Datum.float 0x3FF0000000000000, .null].any unknown)) :=
  inSubquery_eq (.int 2) [.float 0x3FF0000000000000, .null] true (by decide)

/-- A list with `NULL` does not have 1, `TRUE` equals 1, and the texts of one day differ. -/
theorem in_subquery_differs :
    (inSubquery (.int 1) [.null] true = false ∧ inValues (.int 1) [.null] true = true) ∧
    (inSubquery (.bool true) [.int 1] false = false ∧
      inValues (.bool true) [.int 1] false = true) ∧
    (inSubquery (.text "2024-01-01") [.text "2024-1-1"] false = true ∧
      inValues (.text "2024-01-01") [.text "2024-1-1"] false = false) := by
  decide

theorem sameValue_of_keySplit (h : keySplit a b = true) : a.sameValue b = true := by
  cases a <;> cases b <;>
    simp_all [keySplit, Datum.sameValue, Datum.coercePair, Datum.eqv, F64.eq_swap]

theorem inSubquery_singleton (v r : Datum) :
    inSubquery v [r] false = true ↔ ∃ k, joinKey v = some k ∧ joinKey r = some k := by
  have hhit : (joinKey v).elim false (buildSet [r]).1.contains = true ↔
      ∃ d ∈ [r], ∃ k, joinKey v = some k ∧ joinKey d = some k := hit_iff
  simp only [List.mem_singleton, exists_eq_left] at hhit
  rw [← hhit]
  by_cases hv : v = .null
  · simp [inSubquery, evalIn, hv, joinKey]
  · simp [inSubquery, evalIn, hv]

theorem inValues_singleton (v r : Datum) : inValues v [r] false = v.sameValue r := by
  rw [inValues_eq]
  cases v <;> simp [Datum.sameValue]

/-- Every confused pair makes a difference. -/
theorem confused_iff (v r : Datum) :
    confused v r = true ↔ inSubquery v [r] false ≠ inValues v [r] false := by
  constructor
  · intro h hagree
    have hkeys := inSubquery_singleton v r
    rw [hagree, inValues_singleton] at hkeys
    rw [confused, Bool.or_eq_true] at h
    rcases h with hsplit | hmoment
    · have hsame := sameValue_of_keySplit hsplit
      obtain ⟨k, hk, hk'⟩ := hkeys.mp hsame
      have hkept := (joinKey_eq_iff hsame).mp (hk.trans hk'.symm)
      rw [hsplit] at hkept
      cases hkept
    · cases v with
      | text s =>
        cases r with
        | text s' =>
          simp only [sameMoment, Bool.and_eq_true, decide_eq_true_eq] at hmoment
          obtain ⟨⟨hne, hsome⟩, heq⟩ := hmoment
          obtain ⟨m, hm⟩ := Option.isSome_iff_exists.mp hsome
          rw [hm] at heq
          have hsame : (Datum.text s).sameValue (.text s') = true :=
            hkeys.mpr ⟨.dateTime m, by simp [joinKey, hm], by simp [joinKey, ← heq]⟩
          have heqv := Datum.eqv_of_sameValue hsame
          simp [Datum.coercePair, Datum.eqv, hne] at heqv
        | _ => cases hmoment
      | _ => cases r <;> cases hmoment
  · intro hne
    by_contra hc
    rw [Bool.not_eq_true] at hc
    exact hne ((inSubquery_eq v [r] false (by simpa using hc)).trans (by simp))

end HenchDB
