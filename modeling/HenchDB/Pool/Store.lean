import HenchDB.Pool.Chains

/-!
# The pool as a store

What the three calls of the pool do to the chains of the live values (`Kept`):
`store` adds one, `load` changes none, `free` gives one up.  So in every run a
live locator loads what was stored under it (`load_live`).
-/

namespace HenchDB.Pool

open Program Page

/-! ## Chunks -/

section
variable {data : Bytes}

theorem flatten_chunks (data : Bytes) : (chunks data).flatten = data := by
  fun_induction chunks data with
  | case1 data h => rw [List.flatten_cons, List.flatten_nil, List.append_nil]
  | case2 data h ih => rw [List.flatten_cons, ih, List.take_append_drop]

theorem length_chunk_le (data : Bytes) : ∀ c ∈ chunks data, c.length ≤ maxFragPayload := by
  fun_induction chunks data with
  | case1 data h =>
    intro c hc
    rw [List.mem_singleton.mp hc]
    exact h
  | case2 data h ih =>
    intro c hc
    rcases List.mem_cons.mp hc with rfl | hc
    · exact (List.length_take_le ..)
    · exact ih c hc

theorem length_chunks_le (data : Bytes) :
    (chunks data).length * maxFragPayload ≤ data.length + maxFragPayload := by
  fun_induction chunks data with
  | case1 data h =>
    rw [List.length_singleton, Nat.one_mul]
    exact Nat.le_add_left ..
  | case2 data h ih =>
    rw [List.length_cons, Nat.add_mul, Nat.one_mul]
    rw [List.length_drop] at ih
    omega

theorem length_chunks_le_max (h : data.length ≤ maxValueLen) :
    (chunks data).length ≤ maxChainFrags := by
  have hlen := length_chunks_le data
  have hmax : maxFragPayload = 262075 := by decide
  rw [hmax] at hlen
  unfold maxValueLen at h
  unfold maxChainFrags
  omega

theorem chunks_eq_cons (data : Bytes) : ∃ c cs, chunks data = c :: cs := by
  rw [chunks]
  split
  · exact ⟨_, _, rfl⟩
  · exact ⟨_, _, rfl⟩

end

/-! ## Calls -/

section
variable {s : Inner}

/-- A value is stored as a chain of its own, or the call fails and spares the others. -/
theorem store_spec (h : Inv s) (order : HashOrder) (current : Nat) (data : Bytes) :
    (∃ x xs s', Returns (store order current data) s x s' ∧
      Stored s s' data.length none x xs data ∧ (x :: xs).length ≤ maxChainFrags ∧
      data.length ≤ maxValueLen) ∨
      ∃ e s', Fails (store order current data) s (.err e) s' ∧ Spared s s' [] := by
  have hspared : Spared s s [] := ⟨h, fun _ hy => hy, fun _ _ _ _ => rfl⟩
  by_cases hempty : data.length = 0
  · refine .inr ⟨.io "cannot page empty value", s, ?_, hspared⟩
    rw [store, if_pos hempty]
    exact fails_throw _ s
  by_cases hlarge : maxValueLen < data.length
  · refine .inr ⟨.io "overflow value too large", s, ?_, hspared⟩
    rw [store, if_neg hempty, if_pos hlarge]
    exact fails_throw _ s
  obtain ⟨s1, hreclaim, hcalm⟩ := reclaimQuarantine_spec h current
  obtain ⟨c, cs, hchunks⟩ := chunks_eq_cons data
  have hfits : ∀ d ∈ c :: cs, d.length ≤ maxFragPayload := hchunks ▸ length_chunk_le data
  rw [store, if_neg hempty, if_neg hlarge, hchunks]
  rcases storeFrags_spec order cs hcalm.inv .nil hfits with
    ⟨x, xs, s', hstore, hstored, hlen⟩ | ⟨e, s', hfail, hspared'⟩
  · rw [← hchunks, flatten_chunks] at hstored
    refine .inl ⟨x, xs, s', hreclaim.bind (hstore.bind (returns_pure _ s')),
      hstored.before hcalm, ?_, Nat.not_lt.mp hlarge⟩
    have := length_chunks_le_max (Nat.not_lt.mp hlarge)
    rw [List.length_cons, hlen]
    rwa [hchunks, List.length_cons] at this
  · refine .inr ⟨e, s', hreclaim.bind_fails hfail.bind, hspared'.inv,
      fun y hy => hcalm.awaiting y (hspared'.awaiting y hy), fun z hz hwait hsome => ?_⟩
    rw [hspared'.same z hz (fun hz' => hwait (hcalm.awaiting z hz'))
      (by rw [hcalm.same z hwait]; exact hsome), hcalm.same z hwait]

/-! ## Giving a chain up -/

/-- The record behind a resident fragment is looked at, and nothing changes. -/
theorem residentNext_spec (h : Inv s) (x : Frag) : ∃ next, Returns (residentNext x) s next s ∧
    ∀ y ∈ next, ∃ bytes, record s x = some bytes ∧ bytes.headD 0 = 1 ∧ nextFrag bytes = y := by
  cases hp : s.index x.1 with
  | none =>
    refine ⟨none, (returns_get s).bind ?_, fun y hy => by cases hy⟩
    rw [hp]
    exact returns_pure _ s
  | some f =>
    obtain ⟨fr, img, hfr, himage, -, -, -, hrecord⟩ := h.resident_image hp
    cases hget : Page.get img x.2 with
    | none =>
      refine ⟨none, (returns_get s).bind ?_, fun y hy => by cases hy⟩
      rw [hp]
      refine (returns_image hfr himage).bind ?_
      rw [hget]
      exact returns_pure _ s
    | some bytes =>
      by_cases hchained : bytes.headD 0 = 1 ∧ fragChainOverhead ≤ bytes.length
      · refine ⟨some (nextFrag bytes), (returns_get s).bind ?_, fun y hy => ?_⟩
        · rw [hp]
          refine (returns_image hfr himage).bind ?_
          rw [hget]
          simp only [if_pos hchained]
          exact returns_pure _ s
        · exact ⟨bytes, (hrecord x.2).trans hget, hchained.1, Option.some.inj hy⟩
      · refine ⟨none, (returns_get s).bind ?_, fun y hy => by cases hy⟩
        rw [hp]
        refine (returns_image hfr himage).bind ?_
        rw [hget]
        simp only [if_neg hchained]
        exact returns_pure _ s

/-- Of a chain, the fragments up to the first whose page is not resident are found. -/
theorem chainFrom_spec (h : Inv s) {total : Nat} {data : Bytes} {xs : List Frag}
    (hholds : Holds s total xs data) : ∀ n, ∀ x ∈ xs.head?, ∃ found,
      Returns (chainFrom n x) s found s ∧ found.Sublist xs.tail := by
  induction hholds with
  | @last x chunk hx =>
    rintro n _ ⟨⟩
    cases n with
    | zero => exact ⟨[], returns_pure _ s, List.nil_sublist _⟩
    | succ n =>
      obtain ⟨next, hnext, hrecord⟩ := residentNext_spec h x
      cases next with
      | none => exact ⟨[], hnext.bind (returns_pure _ s), List.nil_sublist _⟩
      | some y =>
        obtain ⟨bytes, hbytes, hhead, -⟩ := hrecord y rfl
        rw [hx] at hbytes
        cases hbytes
        cases hhead
  | @link x y xs chunk data hx hrest ih =>
    rintro n _ ⟨⟩
    cases n with
    | zero => exact ⟨[], returns_pure _ s, List.nil_sublist _⟩
    | succ n =>
      obtain ⟨next, hnext, hrecord⟩ := residentNext_spec h x
      cases next with
      | none => exact ⟨[], hnext.bind (returns_pure _ s), List.nil_sublist _⟩
      | some z =>
        obtain ⟨bytes, hbytes, -, hz⟩ := hrecord z rfl
        rw [hx] at hbytes
        cases hbytes
        obtain ⟨hpage, hslot⟩ := h.frag_lt (hrest.isSome y List.mem_cons_self)
        rw [nextFrag_withNext hpage hslot] at hz
        subst hz
        obtain ⟨found, hfound, hsub⟩ := ih n y rfl
        exact ⟨y :: found, hnext.bind (hfound.bind (returns_pure _ s)), hsub.cons_cons y⟩

/-- A freed chain waits, in whole or in part; the records are as before. -/
theorem free_spec (h : Inv s) {total : Nat} {data : Bytes} {x : Frag} {xs : List Frag}
    (hholds : Holds s total (x :: xs) data) (hsettled : ∀ y ∈ x :: xs, ¬ Awaiting s y)
    (epoch : Nat) : ∃ s', Returns (free epoch x) s ⟨⟩ s' ∧ Inv s' ∧
      (∀ y, Awaiting s' y → Awaiting s y ∨ y ∈ x :: xs) ∧ ∀ y, record s' y = record s y := by
  obtain ⟨found, hfound, hsub⟩ := chainFrom_spec h hholds maxChainFrags x rfl
  set frags := ((x :: found).mergeSort fragLe).dedup with hfrags
  have hmem : ∀ y ∈ frags, y ∈ x :: xs := fun y hy => by
    rw [hfrags, List.mem_dedup, (List.mergeSort_perm _ _).mem_iff] at hy
    exact (hsub.cons_cons x).subset hy
  set s' : Inner := { s with quarantine := s.quarantine ++ [⟨frags, epoch⟩] } with hs'
  have hquarantined : quarantined s' = quarantined s ++ frags := by
    rw [hs', quarantined, quarantined, List.flatMap_append, List.flatMap_cons, List.flatMap_nil,
      List.append_nil]
  have hawait : ∀ y, Awaiting s' y → Awaiting s y ∨ y ∈ frags := by
    rintro y (hy | hy)
    · rw [hquarantined] at hy
      exact (List.mem_append.mp hy).imp_left .inl
    · exact .inl (.inr hy)
  refine ⟨s', hfound.bind (returns_modify _ s), ⟨h.file, ⟨h.frames.nonempty, h.frames.resident,
    h.frames.owner, h.frames.cooling⟩, h.known, fun y hy => ?_, ?_, h.pendingNodup, fun y hy => ?_⟩,
    fun y hy => (hawait y hy).imp_right (hmem y), fun y => rfl⟩
  · rcases hawait y hy with hy | hy
    · exact h.occupied y hy
    · exact hholds.isSome y (hmem y hy)
  · rw [hquarantined]
    refine h.nodup.append (List.nodup_dedup _) fun y hy hy' => ?_
    exact hsettled y (hmem y hy') (.inl hy)
  · rw [hquarantined, List.mem_append] at hy
    rcases hy with hy | hy
    · exact h.apart y hy
    · exact fun hpend => hsettled y (hmem y hy) (.inr hpend)

end

/-! ## Runs -/

/-- Runs of the pool over a page file; `live` are the values stored and not freed,
by their locators.  Only live locators are freed; any locator may be loaded. -/
inductive Run : Inner → (Frag → Option Bytes) → Prop
  | opened {file frames} : FileOk file → frames ≠ 0 → Run (.opened file frames) fun _ => none
  | stored {s live order current data x s'} : Run s live →
      Returns (store order current data) s x s' → Run s' (Function.update live x (some data))
  | notStored {s live order current data e s'} : Run s live →
      Fails (store order current data) s e s' → Run s' live
  | loaded {s live current x r s'} : Run s live → exec (load current x) s = (r, s') → Run s' live
  | freed {s live epoch x data r s'} : Run s live → live x = some data →
      exec (free epoch x) s = (r, s') → Run s' (Function.update live x none)

/-- The live values have chains of their own, `chain x` behind the fragment `x`. -/
structure Kept (s : Inner) (live : Frag → Option Bytes) (chain : Frag → List Frag) : Prop where
  inv : Inv s
  holds : ∀ {x data}, live x = some data → Holds s data.length (x :: chain x) data
  settled : ∀ {x data}, live x = some data → ∀ y ∈ x :: chain x, ¬ Awaiting s y
  short : ∀ {x data}, live x = some data → (x :: chain x).length ≤ maxChainFrags
  small : ∀ {x data}, live x = some data → data.length ≤ maxValueLen
  apart : ∀ {x x' data data'}, x ≠ x' → live x = some data → live x' = some data' →
    ∀ y ∈ x :: chain x, y ∉ x' :: chain x'

theorem inv_opened {file : PageFile} (hfile : FileOk file) {frames : Nat} (hframes : frames ≠ 0) :
    Inv (.opened file frames) := by
  refine ⟨hfile, ⟨by simpa [Inner.opened] using hframes, (fun hp => by cases hp),
    fun hf hp => ?_, fun f hf => (by cases hf)⟩, (fun e he => by cases he), fun x hx => ?_,
    List.nodup_nil, fun p => List.nodup_nil, fun x hx => by cases hx⟩
  · have hunused := (List.mem_replicate.mp (List.mem_of_getElem? hf)).2
    rw [hunused] at hp
    cases hp
  · rcases hx with hx | hx
    · cases hx
    · cases hx

section
variable {s s' : Inner} {live : Frag → Option Bytes} {chain : Frag → List Frag}

/-- What spares the records keeps the live values. -/
theorem Kept.spared (h : Kept s live chain) (hspared : Spared s s' []) : Kept s' live chain := by
  refine ⟨hspared.inv, fun hx => (h.holds hx).congr fun y hy => ?_, fun hx y hy hwait =>
    h.settled hx y hy (hspared.awaiting y hwait), h.short, h.small, h.apart⟩
  exact hspared.same y List.not_mem_nil (h.settled hx y hy) ((h.holds hx).isSome y hy)

theorem Kept.stored (h : Kept s live chain) {x : Frag} {xs : List Frag} {data : Bytes}
    (hstored : Stored s s' data.length none x xs data)
    (hshort : (x :: xs).length ≤ maxChainFrags) (hsmall : data.length ≤ maxValueLen) :
    Kept s' (Function.update live x (some data)) (Function.update chain x xs) := by
  -- a slot of a live value holds a record and does not wait, so it was not taken
  have hold : ∀ {z d}, live z = some d → ∀ y ∈ z :: chain z, y ∉ x :: xs := by
    intro z d hz y hy hy'
    have hsome := (h.holds hz).isSome y hy
    rw [hstored.unused y hy' (h.settled hz y hy)] at hsome
    cases hsome
  have hcases : ∀ {z d}, Function.update live x (some data) z = some d →
      (z = x ∧ d = data) ∨ (z ≠ x ∧ live z = some d) := by
    intro z d hz
    rw [Function.update_apply] at hz
    split at hz
    · next heq => exact .inl ⟨heq, (Option.some.inj hz).symm⟩
    · next hne => exact .inr ⟨hne, hz⟩
  refine ⟨hstored.inv, fun {z d} hz => ?_, fun {z d} hz y hy => ?_, fun {z d} hz => ?_,
    fun {z d} hz => ?_, fun {z z' d d'} hne hz hz' y hy => ?_⟩
  · rcases hcases hz with ⟨rfl, rfl⟩ | ⟨hzx, hz⟩
    · rw [Function.update_self]
      exact hstored.holds
    · rw [Function.update_of_ne hzx]
      exact (h.holds hz).congr fun y hy =>
        hstored.same y (hold hz y hy) (by simp) (h.settled hz y hy)
  · rcases hcases hz with ⟨rfl, rfl⟩ | ⟨hzx, hz⟩
    · rw [Function.update_self] at hy
      exact hstored.settled y hy
    · rw [Function.update_of_ne hzx] at hy
      exact fun hwait => h.settled hz y hy (hstored.awaiting y hwait)
  · rcases hcases hz with ⟨rfl, rfl⟩ | ⟨hzx, hz⟩
    · rw [Function.update_self]
      exact hshort
    · rw [Function.update_of_ne hzx]
      exact h.short hz
  · rcases hcases hz with ⟨-, rfl⟩ | ⟨-, hz⟩
    · exact hsmall
    · exact h.small hz
  · rcases hcases hz with ⟨rfl, rfl⟩ | ⟨hzx, hlive⟩
    · rcases hcases hz' with ⟨rfl, -⟩ | ⟨hzx', hlive'⟩
      · exact absurd rfl hne
      · rw [Function.update_self] at hy
        rw [Function.update_of_ne hzx']
        exact fun hy' => hold hlive' y hy' hy
    · rw [Function.update_of_ne hzx] at hy
      rcases hcases hz' with ⟨rfl, -⟩ | ⟨hzx', hlive'⟩
      · rw [Function.update_self]
        exact hold hlive y hy
      · rw [Function.update_of_ne hzx']
        exact h.apart hne hlive hlive' y hy

theorem Kept.freed (h : Kept s live chain) {x : Frag} {data : Bytes} (hx : live x = some data)
    (hinv : Inv s') (hawait : ∀ y, Awaiting s' y → Awaiting s y ∨ y ∈ x :: chain x)
    (hrecord : ∀ y, record s' y = record s y) : Kept s' (Function.update live x none) chain := by
  have hcases : ∀ {z d}, Function.update live x none z = some d → z ≠ x ∧ live z = some d := by
    intro z d hz
    rw [Function.update_apply] at hz
    split at hz
    · cases hz
    · next hne => exact ⟨hne, hz⟩
  refine ⟨hinv, fun hz => (h.holds (hcases hz).2).congr fun y _ => hrecord y,
    fun hz y hy hwait => ?_, fun hz => h.short (hcases hz).2, fun hz => h.small (hcases hz).2,
    fun hne hz hz' => h.apart hne (hcases hz).2 (hcases hz').2⟩
  obtain ⟨hzx, hz⟩ := hcases hz
  rcases hawait y hwait with hwait | hy'
  · exact h.settled hz y hy hwait
  · exact h.apart hzx hz hx y hy hy'

variable {data : Bytes} {x : Frag}

/-- A value that is stored is kept beside the others. -/
theorem Kept.store (h : Kept s live chain) {order : HashOrder} {current : Nat}
    (hrun : Returns (store order current data) s x s') :
    ∃ chain', Kept s' (Function.update live x (some data)) chain' := by
  rcases store_spec h.inv order current data with
    ⟨x', xs, s'', hstore, hstored, hshort, hsmall⟩ | ⟨e, s'', hfail, -⟩
  · cases hrun.symm.trans hstore
    exact ⟨_, h.stored hstored hshort hsmall⟩
  · cases hrun.symm.trans hfail

/-- A value that is freed is no longer kept, and the others are. -/
theorem Kept.free (h : Kept s live chain) (hx : live x = some data) (epoch : Nat) :
    ∃ s', Returns (free epoch x) s ⟨⟩ s' ∧ Kept s' (Function.update live x none) chain := by
  obtain ⟨s', hrun, hinv, hawait, hrecord⟩ :=
    free_spec h.inv (h.holds hx) (h.settled hx) epoch
  exact ⟨s', hrun, h.freed hx hinv hawait hrecord⟩

theorem Kept.load (h : Kept s live chain) (hx : live x = some data) (current : Nat) :
    ∃ s', Returns (load current x) s data s' :=
  load_holds h.inv (h.holds hx) (h.settled hx) (h.short hx) (h.small hx) current

theorem Run.kept (h : Run s live) : ∃ chain, Kept s live chain := by
  induction h with
  | opened hfile hframes =>
    exact ⟨fun _ => [], inv_opened hfile hframes, (fun hx => by cases hx), (fun hx => by cases hx),
      (fun hx => by cases hx), (fun hx => by cases hx), fun _ hx => by cases hx⟩
  | @stored s live order current data x s' _ hstore ih =>
    obtain ⟨chain, hkept⟩ := ih
    exact hkept.store hstore
  | @notStored s live order current data e s' _ hstore ih =>
    obtain ⟨chain, hkept⟩ := ih
    rcases store_spec hkept.inv order current data with
      ⟨x', xs, s'', hrun, -⟩ | ⟨e, s'', hfail, hspared⟩
    · cases hstore.symm.trans hrun
    · cases hstore.symm.trans hfail
      exact ⟨chain, hkept.spared hspared⟩
  | @loaded s live current x r s' _ hload ih =>
    obtain ⟨chain, hkept⟩ := ih
    obtain ⟨r', s'', hrun, hcalm⟩ := load_calm hkept.inv current x
    cases hload.symm.trans hrun
    exact ⟨chain, hkept.spared hcalm.spared⟩
  | @freed s live epoch x data r s' _ hx hfree ih =>
    obtain ⟨chain, hkept⟩ := ih
    obtain ⟨s'', hrun, hfreed⟩ := hkept.free hx epoch
    cases hfree.symm.trans hrun
    exact ⟨chain, hfreed⟩

/-- A live locator loads the bytes that were stored under it. -/
theorem load_live (h : Run s live) {x : Frag} {data : Bytes} (hx : live x = some data)
    (current : Nat) : ∃ s', Returns (load current x) s data s' := by
  obtain ⟨chain, hkept⟩ := h.kept
  exact hkept.load hx current

/-- In every run a page is mapped to the frame that has it, and the live values have
chains apart, none of which waits to be reused. -/
theorem run_bookkeeping (h : Run s live) :
    (∀ p f, s.index p = some f ↔ ∃ fr, s.frames[f]? = some fr ∧ fr.page = some p) ∧
      ∃ chain : Frag → List Frag, ∀ x data, live x = some data →
        Holds s data.length (x :: chain x) data ∧ ∀ y ∈ x :: chain x, ¬ Awaiting s y ∧
          ∀ x' data', x ≠ x' → live x' = some data' → y ∉ x' :: chain x' := by
  obtain ⟨chain, hkept⟩ := h.kept
  have hframes := hkept.inv.frames
  refine ⟨fun p f => ⟨fun hp => ?_, fun ⟨fr, hfr, hp⟩ => hframes.owner hfr hp⟩, chain,
    fun x data hx => ⟨hkept.holds hx, fun y hy => ⟨hkept.settled hx y hy, fun x' data' hne hx' =>
      hkept.apart hne hx hx' y hy⟩⟩⟩
  obtain ⟨fr, -, hfr, hpage, -⟩ := hframes.resident hp
  exact ⟨fr, hfr, hpage⟩

/-! ## The first value -/

/-- `PageFile::open` of a file that does not exist. -/
def PageFile.fresh : PageFile where
  pages := Function.update (fun _ => none) 0 (some (superblockImage 1))
  nextId := 1

theorem fileOk_fresh : FileOk .fresh := by
  refine ⟨by decide, by decide, fun p hp => ?_⟩
  exact absurd (Nat.lt_one_iff.mp hp.2) hp.1

/-- A value that no page in use has room for goes to a fresh page. -/
theorem store_fresh (h : Inv s) (hquarantine : s.quarantine = []) (hroom : s.file.nextId ≠ 2 ^ 64 - 1)
    (hpos : data ≠ []) (hsmall : data.length ≤ maxFragPayload)
    (hfull : ∀ e ∈ s.freeMap, e.2 < data.length + 17) (order : HashOrder) (current : Nat) :
    ∃ s', Returns (store order current data) s (s.file.nextId, 0) s' ∧
      s'.file.nextId = s.file.nextId + 1 ∧ s'.quarantine = [] ∧
      s'.freeMap = putFree s.freeMap s.file.nextId (pageSize - 57 - data.length) := by
  have hempty : ¬ data.length = 0 := fun h => hpos (List.eq_nil_of_length_eq_zero h)
  have hmax : ¬ maxValueLen < data.length := by
    have : maxFragPayload ≤ maxValueLen := by decide
    omega
  have hreclaim : Returns (reclaimQuarantine current) s ⟨⟩ s := by
    obtain ⟨file, frames, index, cooling, quarantine, pendingFree, freeMap, rng⟩ := s
    obtain rfl : quarantine = [] := hquarantine
    exact (returns_get _).bind ((returns_modify _ _).bind (returns_pure _ _))
  obtain ⟨s', hfresh, -, hnext, hquar, hmap⟩ := insertFresh_spec h
    (fragRecord_fits data.length false hsmall) hroom
  have hrecord : (fragRecord data.length false data).length = data.length + 9 := by
    rw [length_fragRecord, if_neg (by decide), fragSingleOverhead, Nat.add_comm]
  have hfrag : Returns (insertFrag order (fragRecord data.length false data)) s
      (s.file.nextId, 0) s' := by
    refine (returns_get s).bind ?_
    cases hbest : bestFit ((fragRecord data.length false data).length + slotLen)
        (order.visit s.freeMap) with
    | none => exact hfresh
    | some e =>
      obtain ⟨hmem, hfits⟩ := bestFit_spec hbest
      have := hfull e ((order.perm _).mem_iff.mp hmem)
      rw [hrecord] at hfits
      unfold slotLen at hfits
      omega
  rw [hrecord] at hmap
  have hleft : pageSize - 48 - (data.length + 9) = pageSize - 57 - data.length := by omega
  refine ⟨s', ?_, hnext, hquar.trans hquarantine, hleft ▸ hmap⟩
  rw [store, if_neg hempty, if_neg hmax, chunks, if_pos hsmall]
  exact hreclaim.bind (Returns.bind (hfrag.tryCatch.bind ((returns_pure _ s').bind
    (returns_pure _ s'))) (returns_pure _ s'))

def HashOrder.listed : HashOrder := ⟨id, fun l => .refl l⟩

/-- A row of 2000 bytes and a value that needs a page of its own. -/
def smallValue : Bytes := List.replicate 2000 7

def pageValue : Bytes := List.replicate maxFragPayload 9

theorem length_smallValue : smallValue.length = 2000 := List.length_replicate

theorem length_pageValue : pageValue.length = maxFragPayload := List.length_replicate

/-- Both are stored in a pool of one frame, so that the second page evicts the first. -/
theorem exists_two_values : ∃ s, Run s
    (Function.update (Function.update (fun _ => none) (1, 0) (some smallValue)) (2, 0)
      (some pageValue)) := by
  have hopened : Run (.opened .fresh 1) fun _ => none := .opened fileOk_fresh Nat.one_ne_zero
  have hsmall : smallValue ≠ [] := List.ne_nil_of_length_pos (by rw [length_smallValue]; decide)
  have hlarge : pageValue ≠ [] := List.ne_nil_of_length_pos (by rw [length_pageValue]; decide)
  obtain ⟨s1, hstore1, hnext1, hquar1, hmap1⟩ := store_fresh
    (inv_opened fileOk_fresh Nat.one_ne_zero) rfl (by decide) hsmall
    (by rw [length_smallValue]; decide) (fun e he => by cases he) .listed 0
  have hrun1 := hopened.stored hstore1
  obtain ⟨chain1, hkept1⟩ := hrun1.kept
  obtain ⟨s2, hstore2, -⟩ := store_fresh hkept1.inv hquar1 (by rw [hnext1]; decide) hlarge
    (by rw [length_pageValue]) (fun e he => by
      rw [hmap1, length_smallValue] at he
      rw [length_pageValue]
      cases List.mem_singleton.mp he
      decide) .listed 0
  have hrun2 := hrun1.stored hstore2
  rw [hnext1] at hrun2
  exact ⟨s2, hrun2⟩

/-- The row is loaded although its page has been evicted. -/
theorem load_live_evicted : ∃ s live s', Run s live ∧ live (2, 0) = some pageValue ∧
    live (1, 0) = some smallValue ∧ Returns (load 0 (1, 0)) s smallValue s' := by
  obtain ⟨s, hrun⟩ := exists_two_values
  obtain ⟨s', hload⟩ := load_live hrun (x := (1, 0)) rfl 0
  exact ⟨s, _, s', hrun, rfl, rfl, hload⟩

/-- The row has been loaded again and freed; the other value keeps its chain. -/
theorem run_bookkeeping_freed : ∃ s live, Run s live ∧ live (1, 0) = none ∧
    (∀ p f, s.index p = some f ↔ ∃ fr, s.frames[f]? = some fr ∧ fr.page = some p) ∧
    ∃ chain : Frag → List Frag, Holds s maxFragPayload ((2, 0) :: chain (2, 0)) pageValue ∧
      ∀ y ∈ (2, 0) :: chain (2, 0), ¬ Awaiting s y := by
  obtain ⟨s, hrun⟩ := exists_two_values
  have hloaded : Run (exec (load 0 (1, 0)) s).2 _ := .loaded hrun rfl
  have hfreed : Run (exec (free 0 (1, 0)) (exec (load 0 (1, 0)) s).2).2 _ :=
    .freed hloaded (x := (1, 0)) rfl rfl
  obtain ⟨hindex, chain, hchain⟩ := run_bookkeeping hfreed
  obtain ⟨hholds, hapart⟩ := hchain (2, 0) _ rfl
  rw [length_pageValue] at hholds
  exact ⟨_, _, hfreed, rfl, hindex, chain, hholds, fun y hy => (hapart y hy).1⟩

end

end HenchDB.Pool
