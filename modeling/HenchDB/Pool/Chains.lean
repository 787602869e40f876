import HenchDB.Pool.Fragments

/-!
# Chains

A stored value is a chain of fragments, each but the last naming the next
(`Holds`).  Storing makes a chain of slots that were nobody's and leaves the
other records alone (`storeFrags_spec`); loading reads a chain back
(`loadFrom_holds`), and does no harm whatever it is asked to read
(`loadFrom_calm`).
-/

namespace HenchDB.Pool

open Codec Codec.Image Program Page

/-- The fragments `xs` hold `data`, the end of a value of `total` bytes. -/
inductive Holds (s : Inner) (total : Nat) : List Frag → Bytes → Prop
  | last {x chunk} : record s x = some (fragRecord total false chunk) → Holds s total [x] chunk
  | link {x y xs chunk data} :
      record s x = some (withNext (fragRecord total true chunk) y.1 y.2) →
      Holds s total (y :: xs) data → Holds s total (x :: y :: xs) (chunk ++ data)

section
variable {s s' : Inner} {total : Nat} {xs : List Frag} {data : Bytes}

theorem Holds.congr (h : Holds s total xs data) (hsame : ∀ x ∈ xs, record s' x = record s x) :
    Holds s' total xs data := by
  induction h with
  | last hx => exact .last ((hsame _ List.mem_cons_self).trans hx)
  | link hx _ ih =>
    exact .link ((hsame _ List.mem_cons_self).trans hx)
      (ih fun y hy => hsame y (List.mem_cons_of_mem _ hy))

theorem Holds.isSome (h : Holds s total xs data) : ∀ x ∈ xs, (record s x).isSome = true := by
  induction h with
  | last hx =>
    intro y hy
    rw [List.mem_singleton.mp hy, hx]
    rfl
  | link hx _ ih =>
    intro y hy
    rcases List.mem_cons.mp hy with rfl | hy
    · rw [hx]
      rfl
    · exact ih y hy

end

/-! ## Records of fragments -/

section
variable {total : Nat} {chunk : Bytes} {y : Frag}

theorem length_fragRecord (total : Nat) (chained : Bool) (chunk : Bytes) :
    (fragRecord total chained chunk).length =
      (if chained then fragChainOverhead else fragSingleOverhead) + chunk.length := by
  cases chained with
  | true =>
    simp only [fragRecord, if_pos, List.length_append, List.length_cons, List.length_nil,
      length_leBytes, fragChainOverhead]
    omega
  | false =>
    simp only [fragRecord, Bool.false_eq_true, if_false, List.length_append, List.length_cons,
      List.length_nil, length_leBytes, fragSingleOverhead]
    omega

theorem withNext_fragRecord (total : Nat) (chunk : Bytes) (p k : Nat) :
    withNext (fragRecord total true chunk) p k =
      1 :: (leBytes 8 total ++ (leBytes 8 p ++ (leBytes 4 k ++ chunk))) := by
  have hhead : ([1] ++ leBytes 8 total : Bytes).length = 9 := by simp
  have hnext : (leBytes 8 0 ++ leBytes 4 0 : Bytes).length = 12 := by simp
  have htake : (fragRecord total true chunk).take 9 = [1] ++ leBytes 8 total := by
    rw [fragRecord, if_pos rfl, List.take_left' hhead]
  have hdrop : (fragRecord total true chunk).drop 21 = chunk := by
    rw [fragRecord, if_pos rfl, if_pos rfl, show 21 = 9 + 12 from rfl, ← List.drop_drop,
      List.drop_left' hhead, List.drop_left' hnext]
  rw [withNext, htake, hdrop]
  simp only [List.append_assoc, List.cons_append, List.nil_append]

/-- A field of a record after the bytes `a`. -/
theorem leValue_field (a rest : Bytes) {w v : Nat} (hv : v < 256 ^ w) :
    leValue (((a ++ (leBytes w v ++ rest)).drop a.length).take w) = v := by
  rw [List.drop_left, List.take_left' (length_leBytes w v), leValue_leBytes hv]

theorem nextFrag_withNext (hp : y.1 < 2 ^ 64) (hk : y.2 < 2 ^ 32) :
    nextFrag (withNext (fragRecord total true chunk) y.1 y.2) = y := by
  have hpage : leValue _ = y.1 :=
    leValue_field (1 :: leBytes 8 total) (leBytes 4 y.2 ++ chunk) (show y.1 < 256 ^ 8 from hp)
  have hslot : leValue _ = y.2 :=
    leValue_field (1 :: (leBytes 8 total ++ leBytes 8 y.1)) chunk (show y.2 < 256 ^ 4 from hk)
  simp only [List.length_cons, List.length_append, length_leBytes, List.cons_append,
    List.append_assoc, Nat.reduceAdd] at hpage hslot
  rw [nextFrag, withNext_fragRecord, hpage, hslot]

theorem total_lt (h : total ≤ maxValueLen) : total < 256 ^ 8 := by
  unfold maxValueLen at h
  omega

/-- Reading the record of a chained fragment. -/
theorem readFrag_link (hp : y.1 < 2 ^ 64) (hk : y.2 < 2 ^ 32) (htotal : total ≤ maxValueLen)
    {t : Option Nat} (ht : t.any (· ≠ total) = false) :
    readFrag (withNext (fragRecord total true chunk) y.1 y.2) t = .ok (total, some y, chunk) := by
  have hsplit : withNext (fragRecord total true chunk) y.1 y.2 =
      (1 :: (leBytes 8 total ++ (leBytes 8 y.1 ++ leBytes 4 y.2))) ++ chunk := by
    rw [withNext_fragRecord]
    simp only [List.cons_append, List.append_assoc]
  have hfront : (1 :: (leBytes 8 total ++ (leBytes 8 y.1 ++ leBytes 4 y.2)) : Bytes).length =
      fragChainOverhead := by simp [fragChainOverhead]
  have hfield : leValue _ = total :=
    leValue_field [1] (leBytes 8 y.1 ++ (leBytes 4 y.2 ++ chunk)) (total_lt htotal)
  have hlen : (withNext (fragRecord total true chunk) y.1 y.2).length =
      fragChainOverhead + chunk.length := by rw [hsplit, List.length_append, hfront]
  have hdrop : (withNext (fragRecord total true chunk) y.1 y.2).drop fragChainOverhead = chunk := by
    rw [hsplit, List.drop_left' hfront]
  have hnext : nextFrag (withNext (fragRecord total true chunk) y.1 y.2) = y :=
    nextFrag_withNext hp hk
  have hflags : (withNext (fragRecord total true chunk) y.1 y.2).headD 0 = 1 := by
    rw [withNext_fragRecord]
    rfl
  have hvalue : leValue (((withNext (fragRecord total true chunk) y.1 y.2).drop 1).take 8) = total := by
    rw [withNext_fragRecord]
    exact hfield
  simp only [readFrag, hlen, hdrop, hnext, hflags, hvalue, ht]
  rw [if_neg (by unfold fragChainOverhead fragSingleOverhead; omega), if_neg (by decide),
    if_neg (by decide), if_neg (by omega), if_pos trivial, if_neg (by omega)]

theorem readFrag_last (htotal : total ≤ maxValueLen) {t : Option Nat}
    (ht : t.any (· ≠ total) = false) :
    readFrag (fragRecord total false chunk) t = .ok (total, none, chunk) := by
  have hrecord : fragRecord total false chunk = (0 :: leBytes 8 total) ++ chunk := rfl
  have hfront : (0 :: leBytes 8 total : Bytes).length = fragSingleOverhead := by
    simp [fragSingleOverhead]
  have hfield : leValue _ = total := leValue_field [0] chunk (total_lt htotal)
  have hlen : (fragRecord total false chunk).length = fragSingleOverhead + chunk.length :=
    length_fragRecord total false chunk
  have hdrop : (fragRecord total false chunk).drop fragSingleOverhead = chunk := by
    rw [hrecord, List.drop_left' hfront]
  have hflags : (fragRecord total false chunk).headD 0 = 0 := rfl
  have hvalue : leValue (((fragRecord total false chunk).drop 1).take 8) = total := hfield
  simp only [readFrag, hlen, hdrop, hflags, hvalue, ht]
  rw [if_neg (by omega), if_neg (by decide), if_neg (by decide), if_neg (by omega),
    if_neg (by decide)]

end

/-! ## Loading -/

section
variable {s : Inner} {total : Nat} {xs : List Frag} {data : Bytes}

/-- A slot with a record has a number that fits its field. -/
theorem Inv.frag_lt (h : Inv s) {x : Frag} (hx : (record s x).isSome = true) :
    x.1 < 2 ^ 64 ∧ x.2 < 2 ^ 32 := by
  obtain ⟨bytes, hbytes⟩ := Option.isSome_iff_exists.mp hx
  have hin := inFile_of_record hbytes
  obtain ⟨img, himg, hlayout⟩ := h.file.layout x.1 hin
  rw [record_of_inFile hin, himg, Option.bind_some] at hbytes
  obtain ⟨o, hslot, -⟩ := hlayout.slotOff_of_get hbytes
  refine ⟨Nat.lt_trans hin.2 h.file.nextId_lt, Nat.lt_trans (slotOff_lt hslot) ?_⟩
  have hcount := leValue_lt (slice img 16 4)
  rw [length_slice] at hcount
  exact hcount

theorem fetch_spec (h : Inv s) {x : Frag} {bytes : Bytes} (hx : record s x = some bytes)
    (hwait : ¬ Awaiting s x) : ∃ f page s', Returns (fixPage x.1) s f s' ∧ Calm s s' ∧
      Returns (image f) s' page s' ∧ Page.get page.img x.2 = some bytes := by
  obtain ⟨f, s', hfix, hcalm, hp⟩ := fixPage_spec h (inFile_of_record hx)
  obtain ⟨fr, img, hfr, himage, -, -, -, hrecord⟩ := hcalm.inv.resident_image hp
  refine ⟨f, ⟨x.1, img⟩, s', hfix, hcalm, returns_image hfr himage, ?_⟩
  rw [← hrecord, hcalm.same x hwait, hx]

/-- The loop of `load` takes one record. -/
theorem loadFrom_succ (h : Inv s) {x : Frag} {bytes : Bytes} (hx : record s x = some bytes)
    (hwait : ¬ Awaiting s x) {t : Option Nat} {next : Option Frag} {payload : Bytes}
    (hread : readFrag bytes t = .ok (total, next, payload)) (n : Nat) (out : Bytes) :
    ∃ s', Calm s s' ∧ exec (loadFrom (n + 1) x t out) s =
      exec (next.elim
        (if (out ++ payload).length ≠ total then
          throw (.err (.corrupted "overflow: length mismatch")) else pure (out ++ payload))
        fun y => loadFrom n y (some total) (out ++ payload)) s' := by
  obtain ⟨f, page, s', hfix, hcalm, himage, hget⟩ := fetch_spec h hx hwait
  refine ⟨s', hcalm, ?_⟩
  rw [loadFrom, exec_bind_ok hfix, exec_bind_ok himage,
    exec_bind_ok (returns_lift (by rw [hget]; rfl) s'), exec_bind_ok (returns_lift hread s')]
  cases next <;> rfl

/-- A chain of the state `s` is read back in any state that has its records. -/
theorem loadFrom_holds (hholds : Holds s total xs data) (htotal : total ≤ maxValueLen) :
    ∀ {s1 : Inner}, Inv s1 → (∀ x ∈ xs, record s1 x = record s x ∧ ¬ Awaiting s1 x) →
    ∀ n, xs.length ≤ n → ∀ t : Option Nat, t.any (· ≠ total) = false →
    ∀ out : Bytes, (out ++ data).length = total →
    ∀ x ∈ xs.head?, ∃ s2, Returns (loadFrom n x t out) s1 (out ++ data) s2 ∧ Calm s1 s2 := by
  induction hholds with
  | @last x chunk hx =>
    rintro s1 h1 hkept n hn t ht out hout _ ⟨⟩
    obtain ⟨n, rfl⟩ := Nat.exists_eq_add_of_le' hn
    obtain ⟨hsame, hwait⟩ := hkept x List.mem_cons_self
    obtain ⟨s2, hcalm, hrun⟩ := loadFrom_succ h1 (hsame.trans hx) hwait (readFrag_last htotal ht)
      n out
    refine ⟨s2, hrun.trans ?_, hcalm⟩
    rw [Option.elim_none, if_neg (not_not_intro hout)]
    exact returns_pure _ s2
  | @link x y xs chunk data hx hrest ih =>
    rintro s1 h1 hkept n hn t ht out hout _ ⟨⟩
    obtain ⟨n, rfl⟩ := Nat.exists_eq_add_one_of_ne_zero (Nat.ne_zero_of_lt hn)
    obtain ⟨hsame, hwait⟩ := hkept x List.mem_cons_self
    have hnext : (record s1 y).isSome = true := by
      rw [(hkept y (List.mem_cons_of_mem x List.mem_cons_self)).1]
      exact hrest.isSome y List.mem_cons_self
    obtain ⟨hpage, hslot⟩ := h1.frag_lt hnext
    obtain ⟨s2, hcalm, hrun⟩ := loadFrom_succ h1 (hsame.trans hx) hwait
      (readFrag_link hpage hslot htotal ht) n out
    have hkept2 : ∀ z ∈ y :: xs, record s2 z = record s z ∧ ¬ Awaiting s2 z := fun z hz => by
      obtain ⟨hz1, hz2⟩ := hkept z (List.mem_cons_of_mem x hz)
      exact ⟨(hcalm.same z hz2).trans hz1, fun hz' => hz2 (hcalm.awaiting z hz')⟩
    obtain ⟨s3, hload, hcalm'⟩ := ih hcalm.inv hkept2 n (Nat.le_of_succ_le_succ hn)
      (some total) (by simp) (out ++ chunk) (by rw [List.append_assoc]; exact hout) y rfl
    rw [List.append_assoc] at hload
    exact ⟨s3, hrun.trans hload, hcalm.trans hcalm'⟩

/-- Whatever is loaded, nothing happens to the records. -/
theorem loadFrom_calm (n : Nat) : ∀ {s : Inner}, Inv s → ∀ (x : Frag) (t : Option Nat) (out : Bytes),
    ∃ r s', exec (loadFrom n x t out) s = (r, s') ∧ Calm s s' := by
  induction n with
  | zero => exact fun {s} h x t out => ⟨_, s, rfl, .refl h⟩
  | succ n ih =>
    intro s h x t out
    by_cases hin : InFile s.file x.1
    · obtain ⟨f, s1, hfix, hcalm, hp⟩ := fixPage_spec h hin
      obtain ⟨fr, img, hfr, himage, -⟩ := hcalm.inv.resident_image hp
      rw [loadFrom, exec_bind_ok hfix, exec_bind_ok (returns_image hfr himage)]
      cases hget : Page.get img x.2 with
      | none => exact ⟨_, s1, rfl, hcalm⟩
      | some bytes =>
        rw [Option.elim_some, exec_bind_ok (returns_lift (a := bytes) rfl s1)]
        cases hread : readFrag bytes t with
        | error e => exact ⟨_, s1, rfl, hcalm⟩
        | ok r =>
          obtain ⟨total, next, payload⟩ := r
          rw [exec_bind_ok (returns_lift (a := (total, next, payload)) rfl s1)]
          cases next with
          | none =>
            by_cases hlen : (out ++ payload).length ≠ total
            · simp only [if_pos hlen]
              exact ⟨_, s1, rfl, hcalm⟩
            · simp only [if_neg hlen]
              exact ⟨_, s1, rfl, hcalm⟩
          | some y =>
            obtain ⟨r, s2, hrun, hcalm'⟩ := ih hcalm.inv y (some total) (out ++ payload)
            exact ⟨r, s2, hrun, hcalm.trans hcalm'⟩
    · obtain ⟨e, s', hfail, hcalm⟩ := fixPage_fails h hin
      exact ⟨.error e, s', hfail.bind, hcalm⟩

theorem load_calm (h : Inv s) (current : Nat) (x : Frag) :
    ∃ r s', exec (load current x) s = (r, s') ∧ Calm s s' := by
  obtain ⟨s1, hreclaim, hcalm⟩ := reclaimQuarantine_spec h current
  obtain ⟨r, s', hrun, hcalm'⟩ := loadFrom_calm maxChainFrags hcalm.inv x none []
  exact ⟨r, s', (exec_bind_ok hreclaim).trans hrun, hcalm.trans hcalm'⟩

/-- A chain nobody waits to free is loaded. -/
theorem load_holds (h : Inv s) {x : Frag} (hholds : Holds s data.length (x :: xs) data)
    (hwait : ∀ y ∈ x :: xs, ¬ Awaiting s y) (hshort : (x :: xs).length ≤ maxChainFrags)
    (hsmall : data.length ≤ maxValueLen) (current : Nat) :
    ∃ s', Returns (load current x) s data s' := by
  obtain ⟨s1, hreclaim, hcalm⟩ := reclaimQuarantine_spec h current
  have hkept : ∀ y ∈ x :: xs, record s1 y = record s y ∧ ¬ Awaiting s1 y := fun y hy =>
    ⟨hcalm.same y (hwait y hy), fun hy' => hwait y hy (hcalm.awaiting y hy')⟩
  obtain ⟨s', hload, -⟩ := loadFrom_holds hholds hsmall hcalm.inv hkept _ hshort none rfl [] rfl
    x rfl
  exact ⟨s', hreclaim.bind hload⟩

end

/-! ## Storing -/

/-- A chain of `data` was stored in slots that were nobody's, behind the fragment
`prev` if there is one. -/
structure Stored (s s' : Inner) (total : Nat) (prev : Option Frag) (x : Frag) (xs : List Frag)
    (data : Bytes) : Prop where
  inv : Inv s'
  awaiting : ∀ y, Awaiting s' y → Awaiting s y
  holds : Holds s' total (x :: xs) data
  settled : ∀ y ∈ x :: xs, ¬ Awaiting s' y
  unused : ∀ y ∈ x :: xs, ¬ Awaiting s y → record s y = none
  nodup : (x :: xs).Nodup
  linked : ∀ z ∈ prev, ∀ bytes, record s z = some bytes →
    record s' z = some (withNext bytes x.1 x.2)
  same : ∀ z ∉ x :: xs, z ∉ prev → ¬ Awaiting s z → record s' z = record s z

theorem Stored.before {s0 s s' : Inner} {total : Nat} {x : Frag} {xs : List Frag} {data : Bytes}
    (h : Stored s s' total none x xs data) (hcalm : Calm s0 s) :
    Stored s0 s' total none x xs data := by
  have hwait : ∀ z, ¬ Awaiting s0 z → ¬ Awaiting s z := fun z hz hz' => hz (hcalm.awaiting z hz')
  refine ⟨h.inv, fun y hy => hcalm.awaiting y (h.awaiting y hy), h.holds, h.settled,
    fun y hy hy0 => ?_, h.nodup, (fun z hz => by cases hz), fun z hz hzp hz0 => ?_⟩
  · rw [← hcalm.same y hy0, h.unused y hy (hwait y hy0)]
  · rw [h.same z hz hzp (hwait z hz0), hcalm.same z hz0]

/-- A store that failed left the records alone, but for the fragments it had. -/
structure Spared (s s' : Inner) (alloced : List Frag) : Prop where
  inv : Inv s'
  awaiting : ∀ y, Awaiting s' y → Awaiting s y
  same : ∀ z ∉ alloced, ¬ Awaiting s z → (record s z).isSome = true → record s' z = record s z

theorem Calm.spared {s s' : Inner} (h : Calm s s') : Spared s s' [] :=
  ⟨h.inv, h.awaiting, fun z _ hz _ => h.same z hz⟩

section
variable {s : Inner} {total : Nat}

/-- The fragments so far, as the loop of `store` meets them. -/
structure Begun (s : Inner) (total : Nat) (alloced : List Frag) : Prop where
  settled : ∀ x ∈ alloced, ¬ Awaiting s x
  open_ : ∀ x ∈ alloced.getLast?, ∃ chunk, record s x = some (fragRecord total true chunk)

theorem Begun.nil : Begun s total [] := by
  constructor
  · rintro x ⟨⟩
  · rintro x ⟨⟩

theorem fragRecord_fits (total : Nat) (chained : Bool) {chunk : Bytes}
    (h : chunk.length ≤ maxFragPayload) :
    (fragRecord total chained chunk).length + slotLen ≤ pageSize - 40 := by
  have hmax : maxFragPayload + fragChainOverhead + slotLen = pageSize - 40 := by decide
  have hover : fragSingleOverhead ≤ fragChainOverhead := by decide
  rw [length_fragRecord]
  split <;> omega

/-- One round of the loop: the next fragment is placed and the previous one names
it, or the store fails and rolls back. -/
theorem storeFrag_spec (order : HashOrder) (h : Inv s) {alloced : List Frag} (hbegun : Begun s total alloced)
    (chunk : Bytes) (rest : List Bytes) (hfits : chunk.length ≤ maxFragPayload) :
    (∃ x s', Placed s s' x (fragRecord total (!rest.isEmpty) chunk) ∧
      exec (storeFrags order total (chunk :: rest) alloced) s =
        exec (alloced.getLast?.forM (fun prev => patchPrevious prev x) >>= fun _ =>
          storeFrags order total rest (alloced ++ [x])) s') ∨
      ∃ e s', Fails (storeFrags order total (chunk :: rest) alloced) s (.err e) s' ∧
        Spared s s' alloced := by
  rcases insertFrag_spec h order (fragRecord_fits total (!rest.isEmpty) hfits) with
    ⟨x, s', hinsert, hplaced⟩ | ⟨e, s1, hfail, hcalm⟩
  · exact .inl ⟨x, s', hplaced, exec_bind_ok hinsert.tryCatch⟩
  · obtain ⟨s2, hroll, hinv, hawait, hsame, -⟩ := rollback_spec alloced hcalm.inv
      fun x hx hx' => hbegun.settled x hx (hcalm.awaiting x hx')
    have habandon : Fails (abandon alloced (.err e)) s1 (.err e) s2 :=
      hroll.bind_fails (fails_throw _ s2)
    refine .inr ⟨e, s2, Fails.bind (hfail.tryCatch.trans habandon), hinv,
      fun y hy => hcalm.awaiting y (hawait y hy), fun z hz hwait _ => ?_⟩
    rw [hsame z hz, hcalm.same z hwait]

/-- What `link_spec` leaves: `x` is placed and the last fragment names it. -/
structure Linked (s s' : Inner) (prev : Option Frag) (x : Frag) (bytes : Bytes) : Prop where
  inv : Inv s'
  awaiting : ∀ y, Awaiting s' y → Awaiting s y
  settled : ¬ Awaiting s' x
  written : record s' x = some bytes
  linked : ∀ z ∈ prev, ∀ old, record s z = some old → record s' z = some (withNext old x.1 x.2)
  same : ∀ z ≠ x, z ∉ prev → ¬ Awaiting s z → record s' z = record s z

theorem link_spec {s1 : Inner} {alloced : List Frag} {x : Frag} {bytes : Bytes}
    (hbegun : Begun s total alloced) (hplaced : Placed s s1 x bytes) :
    ∃ s2, Returns (alloced.getLast?.forM fun prev => patchPrevious prev x) s1 ⟨⟩ s2 ∧
      Linked s s2 alloced.getLast? x bytes := by
  cases hlast : alloced.getLast? with
  | none =>
    exact ⟨s1, returns_pure _ s1, hplaced.inv, hplaced.awaiting, hplaced.settled, hplaced.written,
      (fun z hz => by cases hz), fun z hz _ => hplaced.same z hz⟩
  | some prev =>
    obtain ⟨chunk, hprev⟩ := hbegun.open_ prev hlast
    have hwait := hbegun.settled prev (List.mem_of_getLast? hlast)
    have hne : prev ≠ x := by
      rintro rfl
      rw [hplaced.unused hwait] at hprev
      cases hprev
    have hprev1 : record s1 prev = some (fragRecord total true chunk) :=
      (hplaced.same prev hne hwait).trans hprev
    have hlen : fragChainOverhead ≤ (fragRecord total true chunk).length := by
      rw [length_fragRecord]
      exact Nat.le_add_right ..
    obtain ⟨s2, hpatch, hchanged⟩ := patchPrevious_spec hplaced.inv hprev1 hlen
      (fun h => hwait (hplaced.awaiting prev h)) x
    refine ⟨s2, hpatch, hchanged.inv, fun y hy => hplaced.awaiting y (hchanged.awaiting y hy),
      fun hx => hplaced.settled (hchanged.awaiting x hx), ?_, fun z hz old hold => ?_,
      fun z hzx hzp hz => ?_⟩
    · rw [hchanged.same x (Ne.symm hne) hplaced.settled, hplaced.written]
    · cases hz
      rw [hprev] at hold
      cases hold
      exact hchanged.written
    · have hzp' : z ≠ prev := fun heq => hzp (heq ▸ rfl)
      rw [hchanged.same z hzp' fun h => hz (hplaced.awaiting z h), hplaced.same z hzx hz]

/-- A chain with one more fragment in front. -/
theorem Linked.stored {s2 s3 : Inner} {prev : Option Frag} {x y : Frag} {ys : List Frag}
    {chunk data : Bytes} (hlinked : Linked s s2 prev x (fragRecord total true chunk))
    (hunused : ¬ Awaiting s x → record s x = none)
    (hprev : ∀ z ∈ prev, z ≠ x ∧ (record s2 z).isSome = true ∧ ¬ Awaiting s z)
    (hstored : Stored s2 s3 total (some x) y ys data) :
    Stored s s3 total prev x (y :: ys) (chunk ++ data) := by
  have hwait2 : ∀ z, ¬ Awaiting s z → ¬ Awaiting s2 z := fun z hz h => hz (hlinked.awaiting z h)
  have hfresh : ∀ z, (record s2 z).isSome = true → ¬ Awaiting s2 z → z ∉ y :: ys :=
    fun z hsome hwait hz => by
      rw [hstored.unused z hz hwait] at hsome
      cases hsome
  have hx : x ∉ y :: ys := hfresh x (by rw [hlinked.written]; rfl) hlinked.settled
  refine ⟨hstored.inv, fun z hz => hlinked.awaiting z (hstored.awaiting z hz),
    .link (hstored.linked x rfl _ hlinked.written) hstored.holds, fun z hz => ?_,
    fun z hz hwait => ?_, List.nodup_cons.mpr ⟨hx, hstored.nodup⟩, fun z hz old hold => ?_,
    fun z hz hzp hwait => ?_⟩
  · rcases List.mem_cons.mp hz with rfl | hz
    · exact fun h => hlinked.settled (hstored.awaiting z h)
    · exact hstored.settled z hz
  · rcases List.mem_cons.mp hz with rfl | hz
    · exact hunused hwait
    · have hnone := hstored.unused z hz (hwait2 z hwait)
      have hzx : z ≠ x := fun heq => hx (heq ▸ hz)
      have hzp : z ∉ prev := fun hzp => by
        have := (hprev z hzp).2.1
        rw [hnone] at this
        cases this
      rw [← hlinked.same z hzx hzp hwait, hnone]
  · obtain ⟨hzx, hsome, hwait⟩ := hprev z hz
    have hzx' : z ∉ some x := fun h => hzx (Option.some.inj h).symm
    rw [hstored.same z (hfresh z hsome (hwait2 z hwait)) hzx' (hwait2 z hwait),
      hlinked.linked z hz old hold]
  · rw [List.mem_cons, not_or] at hz
    have hzx' : z ∉ some x := fun h => hz.1 (Option.some.inj h).symm
    rw [hstored.same z hz.2 hzx' (hwait2 z hwait), hlinked.same z hz.1 hzp hwait]

/-- Storing chunks makes a chain of them, or leaves the other records alone. -/
theorem storeFrags_spec (order : HashOrder) (rest : List Bytes) :
    ∀ {s : Inner} {alloced : List Frag} {chunk : Bytes},
    Inv s → Begun s total alloced → (∀ c ∈ chunk :: rest, c.length ≤ maxFragPayload) →
    (∃ x xs s', Returns (storeFrags order total (chunk :: rest) alloced) s (alloced ++ x :: xs) s' ∧
      Stored s s' total alloced.getLast? x xs (chunk :: rest).flatten ∧ xs.length = rest.length) ∨
      ∃ e s', Fails (storeFrags order total (chunk :: rest) alloced) s (.err e) s' ∧
        Spared s s' alloced := by
  induction rest with
  | nil =>
    intro s alloced chunk h hbegun hfits
    rcases storeFrag_spec order h hbegun chunk [] (hfits chunk List.mem_cons_self) with
      ⟨x, s1, hplaced, hrun⟩ | hfail
    · obtain ⟨s2, hlink, hlinked⟩ := link_spec hbegun hplaced
      refine .inl ⟨x, [], s2, hrun.trans (hlink.bind (returns_pure _ s2)), ⟨hlinked.inv,
        hlinked.awaiting, ?_, fun y hy => ?_, fun y hy hwait => ?_, List.nodup_singleton x,
        hlinked.linked, fun z hz => hlinked.same z fun hzx => hz (hzx ▸ List.mem_cons_self)⟩, rfl⟩
      · rw [List.flatten_cons, List.flatten_nil, List.append_nil]
        exact .last hlinked.written
      · rw [List.mem_singleton.mp hy]
        exact hlinked.settled
      · rw [List.mem_singleton.mp hy] at hwait ⊢
        exact hplaced.unused hwait
    · exact .inr hfail
  | cons chunk' rest ih =>
    intro s alloced chunk h hbegun hfits
    rcases storeFrag_spec order h hbegun chunk (chunk' :: rest)
      (hfits chunk List.mem_cons_self) with ⟨x, s1, hplaced, hrun⟩ | hfail
    · obtain ⟨s2, hlink, hlinked⟩ := link_spec hbegun hplaced
      have hlast : (alloced ++ [x]).getLast? = some x := List.getLast?_concat
      have hbegun2 : Begun s2 total (alloced ++ [x]) := by
        refine ⟨fun y hy hwait => ?_, fun y hy => ?_⟩
        · rcases List.mem_append.mp hy with hy | hy
          · exact hbegun.settled y hy (hlinked.awaiting y hwait)
          · exact hlinked.settled (List.mem_singleton.mp hy ▸ hwait)
        · rw [hlast, Option.mem_some_iff] at hy
          exact ⟨chunk, hy ▸ hlinked.written⟩
      have hprev : ∀ z ∈ alloced.getLast?, z ≠ x ∧ (record s2 z).isSome = true ∧
          ¬ Awaiting s z := by
        intro z hz
        obtain ⟨c, hc⟩ := hbegun.open_ z hz
        have hwait := hbegun.settled z (List.mem_of_getLast? hz)
        refine ⟨?_, by rw [hlinked.linked z hz _ hc]; rfl, hwait⟩
        rintro rfl
        rw [hplaced.unused hwait] at hc
        cases hc
      rcases ih hlinked.inv hbegun2 fun c hc => hfits c (List.mem_cons_of_mem chunk hc) with
        ⟨y, ys, s3, hstore, hstored, hlen⟩ | ⟨e, s3, hfail, hspared⟩
      · refine .inl ⟨x, y :: ys, s3, hrun.trans (hlink.bind ?_), ?_, by rw [List.length_cons, hlen,
          List.length_cons]⟩
        · rw [List.append_assoc, List.singleton_append] at hstore
          exact hstore
        · exact hlinked.stored hplaced.unused hprev (hlast ▸ hstored)
      · refine .inr ⟨e, s3, hrun.trans (hlink.bind_fails hfail), hspared.inv,
          fun y hy => hlinked.awaiting y (hspared.awaiting y hy), fun z hz hwait hsome => ?_⟩
        have hzx : z ≠ x := by
          rintro rfl
          rw [hplaced.unused hwait] at hsome
          cases hsome
        have hsame := hlinked.same z hzx (fun hlast => hz (List.mem_of_getLast? hlast)) hwait
        rw [hspared.same z _ (fun h => hwait (hlinked.awaiting z h)) (by rw [hsame]; exact hsome),
          hsame]
        rw [List.mem_append, List.mem_singleton, not_or]
        exact ⟨hz, hzx⟩
    · exact .inr hfail

end

end HenchDB.Pool
