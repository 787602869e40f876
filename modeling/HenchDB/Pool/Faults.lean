import HenchDB.Pool.Slots

/-!
# Faults and fragments

Fixing a page is calm, and so is everything else the pool does to place or read
a fragment, but for the record it is about: `insertFrag_spec` and
`patchPrevious_spec` say which slot changed and that it was not somebody else's.
-/

namespace HenchDB.Pool

open Codec Codec.Image Program

section
variable {s : Inner}

/-! ## Fixing a page -/

variable {p : PageId} {f : Nat}

/-- The listed slots are free afterwards, the others are as before. -/
theorem freePending_spec (slots : List Nat) : ∀ {img : Image}, Page.Layout p img →
    Page.Layout p (freePending img slots).1 ∧
      (∀ k ∈ slots, Page.get (freePending img slots).1 k = none) ∧
      (∀ k ∉ slots, Page.get (freePending img slots).1 k = Page.get img k) ∧
      (∀ k, Page.get img k = none → Page.get (freePending img slots).1 k = none) ∧
      ((freePending img slots).2 = false → (freePending img slots).1 = img) := by
  induction slots with
  | nil => exact fun {img} h => ⟨h, by simp, fun _ _ => rfl, fun _ hk => hk, fun _ => rfl⟩
  | cons k slots ih =>
    intro img h
    cases hfree : Page.freeSlot img k with
    | none =>
      obtain ⟨hl, hgone, hsame, hstays, hclean⟩ := ih h
      have hk := (Page.freeSlot_eq_none_iff h).mp hfree
      simp only [freePending, hfree]
      refine ⟨hl, fun j hj => ?_, fun j hj => hsame j fun hmem => hj (.tail _ hmem), hstays,
        hclean⟩
      rcases List.mem_cons.mp hj with rfl | hj
      · exact hstays j hk
      · exact hgone j hj
    | some img' =>
      obtain ⟨h', hnone, hother⟩ := Page.freeSlot_spec h hfree
      obtain ⟨hl, hgone, hsame, hstays, -⟩ := ih h'
      simp only [freePending, hfree]
      refine ⟨hl, fun j hj => ?_, fun j hj => ?_, fun j hj => hstays j ?_, fun hdirty => ?_⟩
      · rcases List.mem_cons.mp hj with rfl | hj
        · exact hstays j hnone
        · exact hgone j hj
      · rw [List.mem_cons, not_or] at hj
        rw [hsame j hj.2, hother j hj.1]
      · by_cases hjk : j = k
        · rw [hjk, hnone]
        · rw [hother j hjk, hj]
      · cases hdirty

/-- The state after a page is read into frame `f` with its slots freed. -/
def Inner.faulted (s : Inner) (f : Nat) (p : PageId) (img : Image) : Inner :=
  { s with
    file := s.file.put p img
    frames := s.frames.set f ⟨some p, some ⟨p, img⟩, false⟩
    index := Function.update s.index p (some f)
    pendingFree := Function.update s.pendingFree p []
    freeMap := putFree s.freeMap p (Page.freeSpace img) }

/-- A page of the file that is not resident is read into a frame without a page. -/
theorem Inv.fault (h : Inv s) {fr : Frame} {img : Image} (hfr : s.frames[f]? = some fr)
    (hfree : fr.page = none) (hp : s.index p = none) (hin : InFile s.file p)
    (himg : s.file.pages p = some img) (hlayout : Page.Layout p img) :
    Calm s (s.faulted f p (freePending img (s.pendingFree p)).1) := by
  obtain ⟨hlayout', hgone, hkept, -⟩ := freePending_spec (s.pendingFree p) hlayout
  set img' := (freePending img (s.pendingFree p)).1
  have hold : ∀ k, record s (p, k) = Page.get img k := fun k => by
    rw [record_of_inFile hin, himg, Option.bind_some]
  have hrecord : ∀ x, record (s.faulted f p img') x =
      if x.1 = p then Page.get img' x.2 else record s x := record_put hin rfl rfl
  have hframes : FramesOk (s.faulted f p img') := by
    have hput : FramesOk { s with file := s.file.put p img' } := by
      refine ⟨h.frames.nonempty, fun {q f'} hq => ?_, h.frames.owner, h.frames.cooling⟩
      obtain ⟨fr', imgq, hfr', hpage, himage, hfile, hinq⟩ := h.frames.resident hq
      have hqp : q ≠ p := by
        rintro rfl
        rw [hp] at hq
        cases hq
      exact ⟨fr', imgq, hfr', hpage, himage, (PageFile.put_pages_of_ne hqp).trans hfile, hinq⟩
    have hinst := hput.install hfr hfree hp (s.file.put_pages_self p img') hin
    exact ⟨hinst.nonempty, hinst.resident, hinst.owner, hinst.cooling⟩
  have hpend : ∀ q k, k ∈ (s.faulted f p img').pendingFree q → q ≠ p ∧ k ∈ s.pendingFree q := by
    intro q k hk
    simp only [Inner.faulted, Function.update_apply] at hk
    split at hk
    · cases hk
    · next hq => exact ⟨hq, hk⟩
  have hawait : ∀ x, Awaiting (s.faulted f p img') x → Awaiting s x := by
    rintro x (hx | hx)
    · exact .inl hx
    · exact .inr (hpend x.1 x.2 hx).2
  have hsame : ∀ x, (x.1 = p → x.2 ∉ s.pendingFree p) → record (s.faulted f p img') x = record s x :=
    fun x hx => by
      rw [hrecord]
      split
      · next hxp =>
        rw [hkept x.2 (hx hxp), ← hold, ← hxp]
      · rfl
  refine ⟨⟨h.file.put hlayout', hframes, fun e he => ?_, fun x hx => ?_, h.nodup, fun q => ?_,
    fun x hx hxp => h.apart x hx (hpend x.1 x.2 hxp).2⟩, hawait, fun x hx => hsame x fun hxp hk =>
      hx (.inr (hxp ▸ hk)), fun q hq => hq⟩
  · rcases mem_putFree he with rfl | he
    · exact hin
    · exact h.known e he
  · have hrest : x.1 = p → x.2 ∉ s.pendingFree p := fun hxp hk => by
      rcases hx with hx | hx
      · exact h.apart x hx (hxp ▸ hk)
      · exact (hpend x.1 x.2 hx).1 hxp
    rw [hsame x hrest]
    exact h.occupied x (hawait x hx)
  · simp only [Inner.faulted, Function.update_apply]
    split
    · exact List.nodup_nil
    · exact h.pendingNodup q

/-- A page that did not change need not be written. -/
theorem returns_writeDirty {dirty : Bool} {page : Page} (hin : InFile s.file page.id)
    (hclean : dirty = false → s.file.pages page.id = some page.img) :
    Returns (writeDirty dirty page) s ⟨⟩ { s with file := s.file.put page.id page.img } := by
  cases dirty with
  | true => exact returns_writePage hin
  | false =>
    have hput : s.file.put page.id page.img = s.file := by
      rw [PageFile.put, ← hclean rfl, Function.update_eq_self]
    rw [hput]
    exact returns_pure _ _

theorem returns_install {img : Image} (hin : InFile s.file p) (himg : s.file.pages p = some img)
    (hlayout : Page.Layout p img) :
    Returns (install f p ⟨p, img⟩) s ⟨⟩
      (s.faulted f p (freePending img (s.pendingFree p)).1) := by
  obtain ⟨-, -, -, -, hclean⟩ := freePending_spec (s.pendingFree p) hlayout
  have hwrite : Returns (writeDirty (freePending img (s.pendingFree p)).2 ⟨p, _⟩)
      { s with pendingFree := Function.update s.pendingFree p [] } ⟨⟩ _ :=
    returns_writeDirty hin fun hdirty => by
      show s.file.pages p = some (freePending img (s.pendingFree p)).1
      rw [hclean hdirty, himg]
  exact (returns_get s).bind ((returns_modify _ s).bind (hwrite.bind
    ((returns_modify _ _).bind ((returns_modify _ _).bind (returns_modify _ _)))))

theorem reheat_spec (h : Inv s) {fr : Frame} (hfr : s.frames[f]? = some fr) :
    ∃ s', Returns (reheat f fr) s ⟨⟩ s' ∧ Calm s s' ∧ s'.index = s.index := by
  cases hcool : fr.cooling with
  | false =>
    refine ⟨s, ?_, .refl h, rfl⟩
    rw [reheat, hcool]
    exact returns_pure _ _
  | true =>
    have hkept : ∀ x ∈ s.cooling.filter fun x => x ≠ f, x < s.frames.length :=
      fun x hx => h.frames.cooling x (List.mem_of_mem_filter hx)
    refine ⟨_, ?_, h.sameStore (h.frames.touch hfr false hkept s.rng) ⟨rfl, rfl, rfl, rfl,
      fun _ hq => hq⟩, rfl⟩
    rw [reheat, hcool]
    exact (returns_modify _ s).bind (returns_modify _ _)

theorem fixPage_spec (h : Inv s) (hin : InFile s.file p) :
    ∃ f s', Returns (fixPage p) s f s' ∧ Calm s s' ∧ s'.index p = some f := by
  cases hp : s.index p with
  | some f =>
    obtain ⟨fr, img, hfr, -⟩ := h.frames.resident hp
    obtain ⟨s', hheat, hcalm, hindex⟩ := reheat_spec h hfr
    refine ⟨f, s', (returns_get s).bind ?_, hcalm, by rw [hindex, hp]⟩
    rw [hp]
    exact (returns_frame hfr).bind (hheat.bind (returns_pure _ _))
  | none =>
    obtain ⟨f, s1, fr, hvictim, hframes1, hsame1, hfr, hfree⟩ := victimFrame_spec h.frames
    have hcalm1 := h.sameStore hframes1 hsame1
    have hin1 : InFile s1.file p := hcalm1.inFile p hin
    obtain ⟨img, himg, hlayout⟩ := hcalm1.inv.file.layout p hin1
    have hp1 := hsame1.absent p hp
    have hread : s1.file.readPage p = .ok ⟨p, img⟩ := by
      have hrange : ¬ (p = 0 ∨ s1.file.nextId ≤ p) := by
        rintro (h0 | hle)
        · exact hin1.1 h0
        · exact absurd hin1.2 (Nat.not_lt.mpr hle)
      rw [PageFile.readPage, if_neg hrange, himg]
      exact hlayout.verify
    refine ⟨f, s1.faulted f p (freePending img (s1.pendingFree p)).1, (returns_get s).bind ?_,
      hcalm1.trans (hcalm1.inv.fault hfr hfree hp1 hin1 himg hlayout), Function.update_self ..⟩
    rw [hp]
    exact hvictim.bind ((returns_get s1).bind ((returns_lift hread s1).bind
      ((returns_install hin1 himg hlayout).bind (returns_pure _ _))))

theorem fixPage_fails (h : Inv s) (hout : ¬ InFile s.file p) :
    ∃ e s', Fails (fixPage p) s e s' ∧ Calm s s' := by
  have hp : s.index p = none := by
    refine Option.eq_none_iff_forall_not_mem.mpr fun f hf => hout ?_
    obtain ⟨-, -, -, -, -, -, hin⟩ := h.frames.resident hf
    exact hin
  obtain ⟨f, s1, fr, hvictim, hframes1, hsame1, -, -⟩ := victimFrame_spec h.frames
  have hread : s1.file.readPage p = .error (.corrupted "page: id out of range") := by
    rw [PageFile.readPage, if_pos]
    rw [hsame1.file]
    by_contra hrange
    rw [not_or, Nat.not_le] at hrange
    exact hout hrange
  refine ⟨.err (.corrupted "page: id out of range"), s1, (returns_get s).bind_fails ?_,
    h.sameStore hframes1 hsame1⟩
  rw [hp]
  exact hvictim.bind_fails ((returns_get s1).bind_fails (fails_lift hread s1).bind)

end

end HenchDB.Pool
