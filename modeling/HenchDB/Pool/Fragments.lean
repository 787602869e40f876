import HenchDB.Pool.Faults

/-!
# Placing fragments

A fragment goes to a slot that nobody uses, on a page that has room or on a
fresh one (`Placed`, `insertFrag_spec`).  Writing the next fragment into an
earlier one changes that record only (`patchPrevious_spec`).
-/

namespace HenchDB.Pool

open Codec Codec.Image Program Page

/-- The slot `x`, which was not waiting, holds `bytes` now; otherwise it was calm. -/
structure Changed (s s' : Inner) (x : Frag) (bytes : Bytes) : Prop where
  inv : Inv s'
  awaiting : ∀ y, Awaiting s' y → Awaiting s y
  settled : ¬ Awaiting s' x
  written : record s' x = some bytes
  same : ∀ y, y ≠ x → ¬ Awaiting s y → record s' y = record s y
  inFile : ∀ p, InFile s.file p → InFile s'.file p

/-- The slot `x` was nobody's and holds `bytes` now. -/
structure Placed (s s' : Inner) (x : Frag) (bytes : Bytes) : Prop extends Changed s s' x bytes where
  unused : ¬ Awaiting s x → record s x = none

section
variable {s s' s'' : Inner} {x : Frag} {bytes : Bytes}

theorem Changed.before (h : Changed s' s'' x bytes) (hcalm : Calm s s') : Changed s s'' x bytes :=
  ⟨h.inv, fun y hy => hcalm.awaiting y (h.awaiting y hy), h.settled, h.written,
    fun y hyx hy => (h.same y hyx fun hy' => hy (hcalm.awaiting y hy')).trans (hcalm.same y hy),
    fun p hp => h.inFile p (hcalm.inFile p hp)⟩

theorem Placed.before (h : Placed s' s'' x bytes) (hcalm : Calm s s') : Placed s s'' x bytes :=
  ⟨h.toChanged.before hcalm, fun hx =>
    (hcalm.same x hx).symm.trans (h.unused fun hx' => hx (hcalm.awaiting x hx'))⟩

theorem Placed.after (h : Placed s s' x bytes) (hcalm : Calm s' s'') : Placed s s'' x bytes := by
  refine ⟨⟨hcalm.inv, fun y hy => h.awaiting y (hcalm.awaiting y hy),
    fun hx => h.settled (hcalm.awaiting x hx), (hcalm.same x h.settled).trans h.written,
    fun y hyx hy => ?_, fun p hp => hcalm.inFile p (h.inFile p hp)⟩, h.unused⟩
  exact (hcalm.same y fun hy' => hy (h.awaiting y hy')).trans (h.same y hyx hy)

end

section
variable {s : Inner} {frag : Bytes}

variable {p : PageId} {file : PageFile}

/-- A record that is put on a resident page. -/
theorem Inv.insert (h : Inv s) {f k : Nat} {fr : Frame} {img img' : Image}
    {freeMap : List (PageId × Nat)} (hp : s.index p = some f) (hfr : s.frames[f]? = some fr)
    (hfile : s.file.pages p = some img) (hlayout : Page.Layout p img)
    (hinsert : Page.insert img frag = some (img', k))
    (hknown : ∀ e ∈ freeMap, e.1 = p ∨ e ∈ s.freeMap) :
    Placed s (s.rewritten f fr p img' freeMap) (p, k) frag := by
  obtain ⟨-, -, -, -, -, -, hin⟩ := h.frames.resident hp
  obtain ⟨hlayout', hnone, hsome, hother⟩ := Page.insert_spec hlayout hinsert
  have hold : ∀ j, record s (p, j) = Page.get img j := fun j => by
    rw [record_of_inFile hin, hfile, Option.bind_some]
  have hwait : ¬ Awaiting s (p, k) := fun hk => by
    have := h.occupied _ hk
    rw [hold, hnone] at this
    cases this
  obtain ⟨hinv, hself, hsame⟩ := h.rewriteSlot hp hfr hold hlayout' hknown hother hwait
  exact ⟨⟨hinv, fun y hy => hy, hwait, hself.trans hsome, fun y hyx _ => hsame y hyx,
    fun q hq => hq⟩, fun _ => by rw [hold, hnone]⟩

theorem Inv.noteFree (h : Inv s) (hin : InFile s.file p) (n : Nat) :
    Calm s { s with freeMap := putFree s.freeMap p n } := by
  refine ⟨⟨h.file, ⟨h.frames.nonempty, h.frames.resident, h.frames.owner, h.frames.cooling⟩,
    fun e he => ?_, h.occupied, h.nodup, h.pendingNodup, h.apart⟩, fun _ hx => hx, fun _ _ => rfl,
    fun _ hq => hq⟩
  rcases mem_putFree he with rfl | he
  · exact hin
  · exact h.known e he

theorem insertOn_spec (h : Inv s) (hin : InFile s.file p) (frag : Bytes) :
    (∃ x s', Returns (insertOn p frag) s (some x) s' ∧ Placed s s' x frag) ∨
      ∃ s', Returns (insertOn p frag) s none s' ∧ Calm s s' := by
  obtain ⟨f, s1, hfix, hcalm, hp⟩ := fixPage_spec h hin
  obtain ⟨fr, img, hfr, himage, hfile, hlayout, hin1, -⟩ := hcalm.inv.resident_image hp
  cases hinsert : Page.insert img frag with
  | some r =>
    obtain ⟨img', k⟩ := r
    have hknown : ∀ e ∈ putFree s1.freeMap p (Page.freeSpace img'), e.1 = p ∨ e ∈ s1.freeMap :=
      fun e he => mem_putFree he
    refine .inl ⟨(p, k), _, hfix.bind ((returns_image hfr himage).bind ?_),
      (hcalm.inv.insert hp hfr hfile hlayout hinsert hknown).before hcalm⟩
    rw [hinsert]
    exact (returns_setImage _ hfr).bind ((returns_writePage hin1).bind
      ((returns_modify _ _).bind (returns_pure _ _)))
  | none =>
    refine .inr ⟨_, hfix.bind ((returns_image hfr himage).bind ?_),
      hcalm.trans (hcalm.inv.noteFree hin1 (Page.freeSpace img))⟩
    rw [hinsert]
    exact (returns_modify _ _).bind (returns_pure _ _)

/-! ## Fresh pages -/

def PageFile.grown (file : PageFile) : PageFile where
  pages := Function.update
    (Function.update file.pages 0 (some (superblockImage (file.nextId + 1)))) file.nextId
    (some (Page.create file.nextId).img)
  nextId := file.nextId + 1

theorem PageFile.allocPage_eq (h : file.nextId ≠ 2 ^ 64 - 1) :
    file.allocPage = .ok (file.nextId, file.grown) := by
  rw [allocPage, if_neg h, grown]

theorem PageFile.grown_pages (h : InFile file p) :
    file.grown.pages p = file.pages p := by
  rw [grown]
  exact (Function.update_of_ne (Nat.ne_of_lt h.2) ..).trans (Function.update_of_ne h.1 ..)

theorem PageFile.grown_pages_self (file : PageFile) :
    file.grown.pages file.nextId = some (Page.create file.nextId).img := Function.update_self ..

theorem inFile_grown (h : InFile file.grown p) :
    InFile file p ∨ p = file.nextId := by
  rcases Nat.lt_succ_iff_lt_or_eq.mp h.2 with hlt | heq
  · exact .inl ⟨h.1, hlt⟩
  · exact .inr heq

/-- A fresh page has no records, and is nobody's. -/
theorem Inv.grow (h : Inv s) (hroom : s.file.nextId ≠ 2 ^ 64 - 1) :
    Calm s { s with file := s.file.grown } ∧ InFile s.file.grown s.file.nextId ∧
      s.index s.file.nextId = none := by
  have hin : ∀ p, InFile s.file p → InFile s.file.grown p := fun p hp =>
    ⟨hp.1, Nat.lt_succ_of_lt hp.2⟩
  have hnew : InFile s.file.grown s.file.nextId := ⟨h.file.nextId_pos, Nat.lt_succ_self _⟩
  have hrecord : ∀ x, record { s with file := s.file.grown } x = record s x := by
    intro x
    by_cases hx : InFile s.file x.1
    · rw [record_of_inFile hx, record_of_inFile (hin _ hx), PageFile.grown_pages hx]
    · have hout : record s x = none := by
        refine Option.eq_none_iff_forall_not_mem.mpr fun data hdata => hx (inFile_of_record hdata)
      rw [hout]
      refine Option.eq_none_iff_forall_not_mem.mpr fun data hdata => ?_
      rcases inFile_grown (inFile_of_record hdata) with hx' | hx'
      · exact hx hx'
      · rw [Option.mem_def, record_of_inFile (by rw [hx']; exact hnew), hx',
          PageFile.grown_pages_self, Option.bind_some, Page.get_create] at hdata
        cases hdata
  have hindex : s.index s.file.nextId = none := by
    refine Option.eq_none_iff_forall_not_mem.mpr fun f hf => ?_
    obtain ⟨-, -, -, -, -, -, hlt⟩ := h.frames.resident hf
    exact Nat.lt_irrefl _ hlt.2
  have hfile : FileOk s.file.grown := by
    refine ⟨?_, Nat.succ_ne_zero _, fun p hp => ?_⟩
    · have hsucc : ∀ n : Nat, n < 2 ^ 64 → n ≠ 2 ^ 64 - 1 → n + 1 < 2 ^ 64 := by omega
      exact hsucc _ h.file.nextId_lt hroom
    · rcases inFile_grown hp with hp | rfl
      · rw [PageFile.grown_pages hp]
        exact h.file.layout p hp
      · exact ⟨_, PageFile.grown_pages_self _, Page.layout_create h.file.nextId_lt⟩
  refine ⟨⟨⟨hfile, ⟨h.frames.nonempty, fun {p f} hp => ?_, h.frames.owner, h.frames.cooling⟩,
    fun e he => hin _ (h.known e he), fun x hx => ?_, h.nodup, h.pendingNodup, h.apart⟩,
    fun _ hx => hx, fun x _ => hrecord x, hin⟩, hnew, hindex⟩
  · obtain ⟨fr, img, hfr, hpage, himage, hpages, hp⟩ := h.frames.resident hp
    exact ⟨fr, img, hfr, hpage, himage, (PageFile.grown_pages hp).trans hpages, hin _ hp⟩
  · rw [hrecord]
    exact h.occupied x hx

/-- A fragment that fits a page is put on a fresh one, unless the file is
exhausted. -/
theorem insertFresh_spec (h : Inv s) (hfits : frag.length + slotLen ≤ pageSize - 40)
    (hroom : s.file.nextId ≠ 2 ^ 64 - 1) :
    ∃ s', Returns (insertFresh frag) s (s.file.nextId, 0) s' ∧
      Placed s s' (s.file.nextId, 0) frag ∧ s'.file.nextId = s.file.nextId + 1 ∧
      s'.quarantine = s.quarantine ∧
      s'.freeMap = putFree s.freeMap s.file.nextId (pageSize - 48 - frag.length) := by
  obtain ⟨hgrow, hin, habsent⟩ := h.grow hroom
  set p := s.file.nextId with hp
  obtain ⟨f, s2, fr, hvictim, hframes, hsame, hfr, hfree⟩ := victimFrame_spec hgrow.inv.frames
  have hcalm := hgrow.trans (hgrow.inv.sameStore hframes hsame)
  have hin2 : InFile s2.file p := by
    rw [hsame.file]
    exact hin
  have himg : s2.file.pages p = some (Page.create p).img := by
    rw [hsame.file]
    exact Function.update_self ..
  have hlayout := Page.layout_create h.file.nextId_lt
  -- nothing waits on the fresh page, so faulting it in changes nothing
  have hpend : s2.pendingFree p = [] := by
    refine List.eq_nil_iff_forall_not_mem.mpr fun k hk => ?_
    have hrecord := hcalm.inv.occupied (p, k) (.inr hk)
    rw [record_of_inFile hin2, himg, Option.bind_some, Page.get_create] at hrecord
    cases hrecord
  have hfault := hcalm.inv.fault hfr hfree (hsame.absent p habsent) hin2 himg hlayout
  rw [hpend, freePending] at hfault
  set s3 := s2.faulted f p (Page.create p).img with hs3
  have hlt := (List.getElem?_eq_some_iff.mp hfr).1
  obtain ⟨img, k, hinsert⟩ : ∃ img k, Page.insert (Page.create p).img frag = some (img, k) :=
    Page.insert_isSome (by rw [Page.freeSpace_create]; exact hfits)
  obtain rfl := Page.insert_create hinsert
  have hknown : ∀ e ∈ putFree s2.freeMap p (Page.freeSpace img), e.1 = p ∨ e ∈ s3.freeMap :=
    fun e he => by
      rcases List.mem_cons.mp he with rfl | he
      · exact .inl rfl
      · exact .inr (List.mem_cons_of_mem _ he)
  have hframe : s3.frames[f]? = some ⟨some p, some (Page.create p), false⟩ :=
    List.getElem?_set_self hlt
  have hplaced := hfault.inv.insert (Function.update_self ..) hframe
    (s2.file.put_pages_self p _) hlayout hinsert hknown
  have hend : s3.rewritten f ⟨some p, some (Page.create p), false⟩ p img
        (putFree s2.freeMap p (Page.freeSpace img)) =
      { s2 with
        file := s2.file.put p img
        frames := s2.frames.set f ⟨some p, some ⟨p, img⟩, false⟩
        index := Function.update s2.index p (some f)
        freeMap := putFree s2.freeMap p (Page.freeSpace img) } := by
    rw [Inner.rewritten, hs3, Inner.faulted]
    simp only [List.set_set, PageFile.put, Function.update_idem, ← hpend, Function.update_eq_self]
  rw [hend] at hplaced
  obtain ⟨s5, hcool, hframes5, hsame5⟩ := maybeCool_spec hplaced.inv.frames
  have hnext : s5.file.nextId = p + 1 := by
    rw [hsame5.file, PageFile.put_nextId, hsame.file, PageFile.grown]
  refine ⟨s5, ?_, ((hplaced.before hfault).before hcalm).after
    (hplaced.inv.sameStore hframes5 hsame5), hnext, hsame5.quarantine.trans hsame.quarantine, ?_⟩
  swap
  · rw [hsame5.freeMap, ← Page.freeSpace_insert_create hinsert, ← hsame.freeMap]
  have hwrite : Returns (writePage ⟨p, img⟩)
      { s2 with freeMap := putFree s2.freeMap p (Page.freeSpace img) } ⟨⟩ _ := returns_writePage hin2
  exact (returns_get s).bind ((returns_lift (PageFile.allocPage_eq hroom) s).bind
    ((returns_modify _ s).bind (hvictim.bind ((returns_unwrap hinsert s2).bind
      ((returns_modify _ s2).bind (hwrite.bind ((returns_modify _ _).bind
        ((returns_modify _ _).bind (hcool.bind (returns_pure _ _))))))))))

theorem insertFresh_fails (hroom : s.file.nextId = 2 ^ 64 - 1) (frag : Bytes) :
    Fails (insertFresh frag) s (.err (.io "page file exhausted")) s :=
  (returns_get s).bind_fails (fails_lift (by rw [PageFile.allocPage, if_pos hroom]) s).bind

/-! ## Inserting a fragment -/

theorem bestFit_spec {need : Nat} {map : List (PageId × Nat)} {e : PageId × Nat}
    (h : bestFit need map = some e) : e ∈ map ∧ need ≤ e.2 := by
  have hfold : ∀ (l : List (PageId × Nat)) (best : Option (PageId × Nat)),
      l.foldl (fun best entry =>
          if need ≤ entry.2 ∧ entry.2 < (best.elim (2 ^ 64 - 1) Prod.snd) then some entry else best)
        best = some e → (e ∈ l ∧ need ≤ e.2) ∨ best = some e := by
    intro l
    induction l with
    | nil => exact fun best h => .inr h
    | cons entry l ih =>
      intro best h
      rcases ih _ h with ⟨hmem, hfits⟩ | hbest
      · exact .inl ⟨List.mem_cons_of_mem entry hmem, hfits⟩
      · dsimp only at hbest
        split at hbest
        · next hentry =>
          cases hbest
          exact .inl ⟨List.mem_cons_self, hentry.1⟩
        · exact .inr hbest
  rcases hfold map none h with hmem | hnone
  · exact hmem
  · cases hnone

/-- A fragment is placed on a fresh page or the file is exhausted. -/
theorem insertFresh_total (h : Inv s) (hfits : frag.length + slotLen ≤ pageSize - 40) :
    (∃ x s', Returns (insertFresh frag) s x s' ∧ Placed s s' x frag) ∨
      ∃ e s', Fails (insertFresh frag) s (.err e) s' ∧ Calm s s' := by
  by_cases hroom : s.file.nextId = 2 ^ 64 - 1
  · exact .inr ⟨_, s, insertFresh_fails hroom frag, .refl h⟩
  · obtain ⟨s', hinsert, hplaced, -⟩ := insertFresh_spec h hfits hroom
    exact .inl ⟨_, s', hinsert, hplaced⟩

/-- A fragment is placed, or nothing happened. -/
theorem insertFrag_spec (h : Inv s) (order : HashOrder)
    (hfits : frag.length + slotLen ≤ pageSize - 40) :
    (∃ x s', Returns (insertFrag order frag) s x s' ∧ Placed s s' x frag) ∨
      ∃ e s', Fails (insertFrag order frag) s (.err e) s' ∧ Calm s s' := by
  cases hbest : bestFit (frag.length + slotLen) (order.visit s.freeMap) with
  | none =>
    have hrun : exec (insertFrag order frag) s = exec (insertFresh frag) s := by
      rw [insertFrag, exec_bind_ok (returns_get s), hbest]
    simp only [Returns, Fails, hrun]
    exact insertFresh_total h hfits
  | some e =>
    obtain ⟨p, n⟩ := e
    have hin : InFile s.file p :=
      h.known _ ((order.perm s.freeMap).mem_iff.mp (bestFit_spec hbest).1)
    rcases insertOn_spec h hin frag with ⟨x, s', hinsert, hplaced⟩ | ⟨s1, hinsert, hcalm⟩
    · refine .inl ⟨x, s', (returns_get s).bind ?_, hplaced⟩
      rw [hbest]
      exact hinsert.bind (returns_pure x s')
    · have hrun : exec (insertFrag order frag) s = exec (insertFresh frag) s1 := by
        rw [insertFrag, exec_bind_ok (returns_get s), hbest]
        exact exec_bind_ok hinsert
      simp only [Returns, Fails, hrun]
      rcases insertFresh_total hcalm.inv hfits with ⟨x, s', hfresh, hplaced⟩ |
        ⟨e, s', hfresh, hcalm'⟩
      · exact .inl ⟨x, s', hfresh, hplaced.before hcalm⟩
      · exact .inr ⟨e, s', hfresh, hcalm.trans hcalm'⟩

/-! ## Changing a record -/

theorem patchPrevious_spec (h : Inv s) {x : Frag} {bytes : Bytes} (hx : record s x = some bytes)
    (hlen : fragChainOverhead ≤ bytes.length) (hwait : ¬ Awaiting s x) (next : Frag) :
    ∃ s', Returns (patchPrevious x next) s ⟨⟩ s' ∧
      Changed s s' x (withNext bytes next.1 next.2) := by
  obtain ⟨p, k⟩ := x
  have hin := inFile_of_record hx
  obtain ⟨f, s1, hfix, hcalm, hp⟩ := fixPage_spec h hin
  obtain ⟨fr, img, hfr, himage, -, hlayout, hin1, hrecord⟩ := hcalm.inv.resident_image hp
  have hget : Page.get img k = some bytes := by
    rw [← hrecord, hcalm.same _ hwait, hx]
  obtain ⟨img', hpatch, hlayout', hself, hother⟩ :=
    Page.patchNext_spec hlayout hget hlen next.1 next.2
  have hwait1 : ¬ Awaiting s1 (p, k) := fun hk => hwait (hcalm.awaiting _ hk)
  obtain ⟨hinv, hself', hsame⟩ := hcalm.inv.rewriteSlot hp hfr hrecord hlayout'
    (fun e he => .inr he) hother hwait1
  have hchanged : Changed s1 (s1.rewritten f fr p img' s1.freeMap) (p, k)
      (withNext bytes next.1 next.2) :=
    ⟨hinv, fun y hy => hy, hwait1, hself'.trans hself, fun y hyx _ => hsame y hyx, fun q hq => hq⟩
  refine ⟨_, hfix.bind ((returns_image hfr himage).bind ?_), hchanged.before hcalm⟩
  rw [hpatch]
  exact (returns_setImage _ hfr).bind (returns_tryWritePage hin1)

/-- Rolling a fragment back changes at most its own slot. -/
theorem rollbackFrag_spec (h : Inv s) {x : Frag} (hwait : ¬ Awaiting s x) :
    ∃ s', Returns (rollbackFrag x) s ⟨⟩ s' ∧ Inv s' ∧ (∀ y, Awaiting s' y → Awaiting s y) ∧
      (∀ y ≠ x, record s' y = record s y) ∧ (∀ p, InFile s.file p → InFile s'.file p) := by
  obtain ⟨p, k⟩ := x
  cases hp : s.index p with
  | none =>
    refine ⟨s, (returns_get s).bind ?_, h, fun _ hy => hy, fun _ _ => rfl, fun _ hq => hq⟩
    rw [hp]
    exact returns_pure _ s
  | some f =>
    obtain ⟨fr, img, hfr, himage, -, hlayout, hin, hrecord⟩ := h.resident_image hp
    have hfreed : Page.Layout p ((Page.freeSlot img k).getD img) ∧
        ∀ j ≠ k, Page.get ((Page.freeSlot img k).getD img) j = Page.get img j := by
      cases hfree : Page.freeSlot img k with
      | none => exact ⟨hlayout, fun _ _ => rfl⟩
      | some img' =>
        obtain ⟨hlayout', -, hother⟩ := Page.freeSlot_spec hlayout hfree
        exact ⟨hlayout', hother⟩
    obtain ⟨hinv, -, hsame⟩ := h.rewriteSlot hp hfr hrecord hfreed.1 (fun e he => .inr he)
      hfreed.2 hwait
    refine ⟨_, (returns_get s).bind ?_, hinv, fun _ hy => hy, hsame, fun _ hq => hq⟩
    rw [hp]
    exact (returns_image hfr himage).bind ((returns_setImage _ hfr).bind
      (returns_tryWritePage hin))

theorem rollback_spec (xs : List Frag) : ∀ {s : Inner}, Inv s → (∀ x ∈ xs, ¬ Awaiting s x) →
    ∃ s', Returns (rollback xs) s ⟨⟩ s' ∧ Inv s' ∧ (∀ y, Awaiting s' y → Awaiting s y) ∧
      (∀ y ∉ xs, record s' y = record s y) ∧ (∀ p, InFile s.file p → InFile s'.file p) := by
  induction xs with
  | nil => exact fun {s} h _ => ⟨s, returns_pure _ _, h, fun _ hy => hy, fun _ _ => rfl,
      fun _ hp => hp⟩
  | cons x xs ih =>
    intro s h hwait
    obtain ⟨s1, hfrag, h1, hawait1, hsame1, hin1⟩ :=
      rollbackFrag_spec h (hwait x List.mem_cons_self)
    obtain ⟨s2, hrest, h2, hawait2, hsame2, hin2⟩ := ih h1 fun y hy hy1 =>
      hwait y (List.mem_cons_of_mem x hy) (hawait1 y hy1)
    refine ⟨s2, hfrag.bind hrest, h2, fun y hy => hawait1 y (hawait2 y hy), fun y hy => ?_,
      fun p hp => hin2 p (hin1 p hp)⟩
    rw [List.mem_cons, not_or] at hy
    rw [hsame2 y hy.2, hsame1 y hy.1]

end

end HenchDB.Pool
