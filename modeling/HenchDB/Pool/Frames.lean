import HenchDB.Pool.Buffer

/-!
# Frames

What fixing and evicting pages does.  A resident page is in one frame, which
holds the image the page file has (`FramesOk`), so dropping a frame loses
nothing.  Choosing a frame to reuse leaves the stored records, the freed slots
and the free map alone (`victimFrame_spec`).
-/

namespace HenchDB.Pool

open Codec Codec.Image Program

def InFile (file : PageFile) (p : PageId) : Prop := p ≠ 0 ∧ p < file.nextId

structure FileOk (file : PageFile) : Prop where
  nextId_lt : file.nextId < 2 ^ 64
  nextId_pos : file.nextId ≠ 0
  layout : ∀ p, InFile file p → ∃ img, file.pages p = some img ∧ Page.Layout p img

/-- Resident pages have one frame each, with the image of the file. -/
structure FramesOk (s : Inner) : Prop where
  nonempty : s.frames.length ≠ 0
  resident : ∀ {p f}, s.index p = some f → ∃ fr img, s.frames[f]? = some fr ∧ fr.page = some p ∧
    fr.image = some ⟨p, img⟩ ∧ s.file.pages p = some img ∧ InFile s.file p
  owner : ∀ {f fr p}, s.frames[f]? = some fr → fr.page = some p → s.index p = some f
  cooling : ∀ f ∈ s.cooling, f < s.frames.length

/-- At most pages were evicted. -/
structure SameStore (s s' : Inner) : Prop where
  file : s'.file = s.file
  quarantine : s'.quarantine = s.quarantine
  pendingFree : s'.pendingFree = s.pendingFree
  freeMap : s'.freeMap = s.freeMap
  absent : ∀ p, s.index p = none → s'.index p = none

theorem SameStore.refl (s : Inner) : SameStore s s := ⟨rfl, rfl, rfl, rfl, fun _ h => h⟩

theorem SameStore.trans {s s' s'' : Inner} (h : SameStore s s') (h' : SameStore s' s'') :
    SameStore s s'' :=
  ⟨h'.file.trans h.file, h'.quarantine.trans h.quarantine, h'.pendingFree.trans h.pendingFree,
    h'.freeMap.trans h.freeMap, fun p hp => h'.absent p (h.absent p hp)⟩

/-- The generator does not matter. -/
theorem SameStore.of_rng {s s1 s' : Inner} {rng : UInt64} (h : SameStore s1 s')
    (hs : s1 = { s with rng := rng }) : SameStore s s' := by
  subst hs
  exact ⟨h.file, h.quarantine, h.pendingFree, h.freeMap, h.absent⟩

/-! ## Commands -/

section
variable {s : Inner} {f : Nat} {fr : Frame}

variable {α : Type} {page : Page} {p : PageId}

theorem returns_unwrap {x : Option α} {a : α} (h : x = some a) (s : Inner) :
    Returns (unwrap x) s a s := by
  rw [h]
  exact returns_pure a s

theorem returns_lift {x : Except Error α} {a : α} (h : x = .ok a) (s : Inner) :
    Returns (lift x) s a s := by
  rw [h]
  exact returns_pure a s

theorem fails_lift {x : Except Error α} {e : Error} (h : x = .error e) (s : Inner) :
    Fails (lift x) s (.err e) s := by
  rw [h]
  exact fails_throw _ s

theorem returns_frame (h : s.frames[f]? = some fr) : Returns (frame f) s fr s :=
  (returns_get s).bind (returns_unwrap h s)

theorem returns_image (h : s.frames[f]? = some fr) (himage : fr.image = some page) :
    Returns (image f) s page s :=
  (returns_frame h).bind (returns_unwrap himage s)

theorem returns_setImage (page : Page) (h : s.frames[f]? = some fr) :
    Returns (setImage f page) s ⟨⟩
      { s with frames := s.frames.set f { fr with image := some page } } :=
  (returns_frame h).bind (returns_modify _ s)

theorem returns_writePage (h : InFile s.file page.id) :
    Returns (writePage page) s ⟨⟩
      { s with file := { s.file with
          pages := Function.update s.file.pages page.id (some page.img) } } := by
  refine (returns_get s).bind ((returns_lift ?_ s).bind (returns_modify _ s))
  have hrange : ¬ (page.id = 0 ∨ s.file.nextId ≤ page.id) := by
    rintro (h0 | hle)
    · exact h.1 h0
    · exact absurd h.2 (Nat.not_lt.mpr hle)
  rw [PageFile.writePage, if_neg hrange]

theorem returns_tryWritePage (h : InFile s.file page.id) :
    Returns (tryWritePage page) s ⟨⟩
      { s with file := { s.file with
          pages := Function.update s.file.pages page.id (some page.img) } } := by
  have hrange : ¬ (page.id = 0 ∨ s.file.nextId ≤ page.id) := by
    rintro (h0 | hle)
    · exact h.1 h0
    · exact absurd h.2 (Nat.not_lt.mpr hle)
  have hwrite : (s.file.writePage page).toOption.getD s.file =
      { s.file with pages := Function.update s.file.pages page.id (some page.img) } := by
    rw [PageFile.writePage, if_neg hrange]
    rfl
  rw [← hwrite]
  exact returns_modify _ s

/-! ## Frames changed one at a time -/

theorem FramesOk.touch (h : FramesOk s) (hfr : s.frames[f]? = some fr) (b : Bool)
    {cooling : List Nat} (hcooling : ∀ x ∈ cooling, x < s.frames.length) (rng : UInt64) :
    FramesOk { s with frames := s.frames.set f { fr with cooling := b }, cooling := cooling,
                      rng := rng } := by
  have hlt := (List.getElem?_eq_some_iff.mp hfr).1
  refine ⟨by simpa using h.nonempty, fun {p f'} hp => ?_, fun {f' fr' p} hf' hp => ?_,
    by simpa using hcooling⟩
  · obtain ⟨fr', img, hfr', hpage, himage, hfile⟩ := h.resident hp
    by_cases hf : f = f'
    · subst hf
      rw [hfr] at hfr'
      cases hfr'
      exact ⟨{ fr with cooling := b }, img, List.getElem?_set_self hlt, hpage, himage, hfile⟩
    · exact ⟨fr', img, by rw [List.getElem?_set_ne hf]; exact hfr', hpage, himage, hfile⟩
  · by_cases hf : f = f'
    · subst hf
      simp only [List.getElem?_set_self hlt, Option.some.injEq] at hf'
      subst hf'
      exact h.owner hfr hp
    · simp only [List.getElem?_set_ne hf] at hf'
      exact h.owner hf' hp

theorem FramesOk.drop (h : FramesOk s) (hfr : s.frames[f]? = some fr) {cooling : List Nat}
    (hcooling : ∀ x ∈ cooling, x < s.frames.length) (index : PageId → Option Nat)
    (hindex : ∀ p, index p = if fr.page = some p then none else s.index p) :
    FramesOk { s with frames := s.frames.set f .unused, index := index, cooling := cooling } := by
  have hlt := (List.getElem?_eq_some_iff.mp hfr).1
  refine ⟨by simpa using h.nonempty, fun {p f'} hp => ?_, fun {f' fr' p} hf' hp => ?_,
    by simpa using hcooling⟩
  · simp only [hindex] at hp
    split at hp
    · cases hp
    · next hne =>
      obtain ⟨fr', img, hfr', hpage, hrest⟩ := h.resident hp
      have hf : f ≠ f' := by
        rintro rfl
        rw [hfr] at hfr'
        cases hfr'
        exact hne hpage
      exact ⟨fr', img, by rw [List.getElem?_set_ne hf]; exact hfr', hpage, hrest⟩
  · by_cases hf : f = f'
    · subst hf
      simp only [List.getElem?_set_self hlt, Option.some.injEq] at hf'
      subst hf'
      cases hp
    · simp only [List.getElem?_set_ne hf] at hf'
      have howner := h.owner hf' hp
      simp only [hindex]
      rw [if_neg]
      · exact howner
      · intro hpage
        have := h.owner hfr hpage
        rw [howner] at this
        exact hf (Option.some.inj this).symm

/-- A page that is not resident put into a frame without one. -/
theorem FramesOk.install (h : FramesOk s) (hfr : s.frames[f]? = some fr) (hfree : fr.page = none)
    {img : Image} (hp : s.index p = none) (hfile : s.file.pages p = some img)
    (hin : InFile s.file p) :
    FramesOk { s with frames := s.frames.set f ⟨some p, some ⟨p, img⟩, false⟩,
                      index := Function.update s.index p (some f) } := by
  have hlt := (List.getElem?_eq_some_iff.mp hfr).1
  refine ⟨by simpa using h.nonempty, fun {q f'} hq => ?_, fun {f' fr' q} hf' hq => ?_,
    fun x hx => by simpa using h.cooling x hx⟩
  · by_cases hpq : q = p
    · subst hpq
      simp only [Function.update_self, Option.some.injEq] at hq
      subst hq
      exact ⟨_, img, List.getElem?_set_self hlt, rfl, rfl, hfile, hin⟩
    · simp only [Function.update_of_ne hpq] at hq
      obtain ⟨fr', img', hfr', hpage, hrest⟩ := h.resident hq
      have hf : f ≠ f' := by
        rintro rfl
        rw [hfr] at hfr'
        cases hfr'
        rw [hfree] at hpage
        cases hpage
      exact ⟨fr', img', by rw [List.getElem?_set_ne hf]; exact hfr', hpage, hrest⟩
  · by_cases hf : f = f'
    · subst hf
      simp only [List.getElem?_set_self hlt, Option.some.injEq] at hf'
      subst hf'
      cases hq
      exact Function.update_self ..
    · simp only [List.getElem?_set_ne hf] at hf'
      have howner := h.owner hf' hq
      have hqp : q ≠ p := by
        rintro rfl
        rw [hp] at howner
        cases howner
      simp only [Function.update_of_ne hqp]
      exact howner

/-- A resident page changed in its frame and in the file. -/
theorem FramesOk.rewrite (h : FramesOk s) (hp : s.index p = some f) (hfr : s.frames[f]? = some fr)
    (img : Image) :
    FramesOk { s with
      frames := s.frames.set f { fr with image := some ⟨p, img⟩ }
      file := { s.file with pages := Function.update s.file.pages p (some img) } } := by
  have hlt := (List.getElem?_eq_some_iff.mp hfr).1
  obtain ⟨fr0, img0, hfr0, hpage0, himage0, hfile0, hin0⟩ := h.resident hp
  rw [hfr] at hfr0
  cases hfr0
  refine ⟨by simpa using h.nonempty, fun {q f'} hq => ?_, fun {f' fr' q} hf' hq => ?_,
    fun x hx => by simpa using h.cooling x hx⟩
  · obtain ⟨fr', img', hfr', hpage, himage, hfile, hin⟩ := h.resident hq
    by_cases hf : f = f'
    · subst hf
      rw [hfr] at hfr'
      cases hfr'
      have hqp : q = p := Option.some.inj (hpage.symm.trans hpage0)
      subst hqp
      exact ⟨_, img, List.getElem?_set_self hlt, hpage0, rfl, Function.update_self .., hin⟩
    · have hqp : q ≠ p := by
        rintro rfl
        rw [hp] at hq
        exact hf (Option.some.inj hq)
      refine ⟨fr', img', by rw [List.getElem?_set_ne hf]; exact hfr', hpage, himage, ?_, hin⟩
      simp only [Function.update_of_ne hqp]
      exact hfile
  · by_cases hf : f = f'
    · subst hf
      simp only [List.getElem?_set_self hlt, Option.some.injEq] at hf'
      subst hf'
      exact h.owner hfr hq
    · simp only [List.getElem?_set_ne hf] at hf'
      exact h.owner hf' hq

end

/-! ## Choosing a frame -/

section
variable {s : Inner}

theorem nextRand_spec (h : FramesOk s) : ∃ v s', Returns nextRand s v s' ∧
    v < s.frames.length ∧ ∃ rng, s' = { s with rng := rng } := by
  refine ⟨(nextRng s.rng).toNat % s.frames.length, { s with rng := nextRng s.rng },
    (returns_get s).bind ((returns_modify _ s).bind ?_),
    Nat.mod_lt _ (Nat.pos_of_ne_zero h.nonempty), _, rfl⟩
  rw [if_neg h.nonempty]
  exact returns_pure _ _

theorem FramesOk.rng (h : FramesOk s) (rng : UInt64) : FramesOk { s with rng := rng } :=
  ⟨h.nonempty, h.resident, h.owner, h.cooling⟩

theorem cool_spec (h : FramesOk s) {v : Nat} (hv : v < s.frames.length) :
    ∃ s', Returns (cool v) s ⟨⟩ s' ∧ FramesOk s' ∧ SameStore s s' ∧ s'.cooling = s.cooling ++ [v] := by
  have hfr : s.frames[v]? = some s.frames[v] := List.getElem?_eq_getElem hv
  have hcooling : ∀ x ∈ s.cooling ++ [v], x < s.frames.length := fun x hx => by
    rcases List.mem_append.mp hx with hx | hx
    · exact h.cooling x hx
    · rwa [List.mem_singleton.mp hx]
  exact ⟨_, (returns_frame hfr).bind ((returns_modify _ s).bind (returns_modify _ _)),
    h.touch hfr true hcooling s.rng, ⟨rfl, rfl, rfl, rfl, fun _ hp => hp⟩, rfl⟩

/-- Dropping a frame makes it free. -/
theorem dropFrame_spec (h : FramesOk s) {f : Nat} {rest : List Nat} (hf : f < s.frames.length)
    (hrest : ∀ x ∈ rest, x < s.frames.length) :
    ∃ s', Returns (dropFrame f) { s with cooling := rest } ⟨⟩ s' ∧ FramesOk s' ∧ SameStore s s' ∧
      s'.frames[f]? = some .unused := by
  have hfr : s.frames[f]? = some s.frames[f] := List.getElem?_eq_getElem hf
  have hset : (s.frames.set f .unused)[f]? = some .unused := List.getElem?_set_self hf
  cases hpage : (s.frames[f]).page with
  | none =>
    refine ⟨_, (returns_frame (s := { s with cooling := rest }) hfr).bind ?_,
      h.drop hfr hrest s.index fun p => ?_, ⟨rfl, rfl, rfl, rfl, fun _ hp => hp⟩,
      hset⟩
    · rw [hpage]
      exact (returns_pure _ _).bind (returns_modify _ _)
    · rw [hpage, if_neg (by simp)]
  | some p =>
    refine ⟨_, (returns_frame (s := { s with cooling := rest }) hfr).bind ?_,
      h.drop hfr hrest (Function.update s.index p none) fun q => ?_,
      ⟨rfl, rfl, rfl, rfl, fun q hq => ?_⟩, hset⟩
    · rw [hpage]
      exact (returns_modify _ _).bind (returns_modify _ _)
    · rw [hpage, Function.update_apply]
      simp only [Option.some.injEq, eq_comm]
    · simp only [Function.update_apply]
      split
      · rfl
      · exact hq

theorem dropCooling_spec (h : FramesOk s) (hcooling : s.cooling ≠ []) :
    ∃ f s', Returns dropCooling s f s' ∧ FramesOk s' ∧ SameStore s s' ∧
      s'.frames[f]? = some .unused := by
  obtain ⟨f, rest, hc⟩ := List.exists_cons_of_ne_nil hcooling
  have hmem : ∀ x ∈ f :: rest, x < s.frames.length := fun x hx => h.cooling x (hc ▸ hx)
  obtain ⟨s', hdrop, hrest⟩ := dropFrame_spec h (hmem f List.mem_cons_self)
    fun x hx => hmem x (List.mem_cons_of_mem f hx)
  refine ⟨f, s', (returns_get s).bind ?_, hrest⟩
  rw [hc]
  exact (returns_modify _ s).bind (hdrop.bind (returns_pure _ _))

/-- A frame without a page is found or made; nothing stored changes. -/
theorem victimFrame_spec (h : FramesOk s) : ∃ f s' fr, Returns victimFrame s f s' ∧ FramesOk s' ∧
    SameStore s s' ∧ s'.frames[f]? = some fr ∧ fr.page = none := by
  cases hfind : s.frames.findIdx? (fun fr => fr.page.isNone) with
  | some i =>
    obtain ⟨hi, hnone, -⟩ := List.findIdx?_eq_some_iff_getElem.mp hfind
    refine ⟨i, s, s.frames[i], (returns_get s).bind ?_, h, .refl s,
      List.getElem?_eq_getElem hi, Option.isNone_iff_eq_none.mp hnone⟩
    rw [hfind]
    exact returns_pure i s
  | none =>
    by_cases hempty : s.cooling = []
    · obtain ⟨v, s1, hrand, hv, rng, rfl⟩ := nextRand_spec h
      obtain ⟨s2, hcool, h2, hsame2, hcooling⟩ := cool_spec (h.rng rng) hv
      obtain ⟨f, s3, hdrop, h3, hsame3, hfr⟩ := dropCooling_spec h2
        (by rw [hcooling]; exact List.append_ne_nil_of_right_ne_nil _ (by simp))
      refine ⟨f, s3, .unused, (returns_get s).bind ?_, h3,
        (hsame2.of_rng rfl).trans hsame3, hfr, rfl⟩
      rw [hfind, hempty]
      exact hrand.bind (hcool.bind hdrop)
    · obtain ⟨f, s', hdrop, h', hsame, hfr⟩ := dropCooling_spec h hempty
      refine ⟨f, s', .unused, (returns_get s).bind ?_, h', hsame, hfr, rfl⟩
      rw [hfind]
      simp only [List.isEmpty_iff, if_neg hempty]
      exact (returns_pure _ _).bind hdrop

theorem sampleCool_spec (n : Nat) : ∀ {s : Inner}, FramesOk s →
    ∃ s', Returns (sampleCool n) s ⟨⟩ s' ∧ FramesOk s' ∧ SameStore s s' := by
  induction n with
  | zero => exact fun {s} h => ⟨s, returns_pure _ _, h, .refl s⟩
  | succ n ih =>
    intro s h
    obtain ⟨v, s1, hrand, hv, rng, rfl⟩ := nextRand_spec h
    have hfr : s.frames[v]? = some s.frames[v] := List.getElem?_eq_getElem hv
    have hnext : ∃ s', Returns (if (s.frames[v]).page.isSome && !(s.frames[v]).cooling then cool v
        else sampleCool n) { s with rng := rng } ⟨⟩ s' ∧ FramesOk s' ∧ SameStore s s' := by
      split
      · obtain ⟨s', hcool, h', hsame, -⟩ := cool_spec (h.rng rng) hv
        exact ⟨s', hcool, h', hsame.of_rng rfl⟩
      · obtain ⟨s', hrest, h', hsame⟩ := ih (h.rng rng)
        exact ⟨s', hrest, h', hsame.of_rng rfl⟩
    obtain ⟨s', hret, h', hsame⟩ := hnext
    exact ⟨s', hrand.bind ((returns_frame (s := { s with rng := rng }) hfr).bind hret), h', hsame⟩

theorem maybeCool_spec (h : FramesOk s) :
    ∃ s', Returns maybeCool s ⟨⟩ s' ∧ FramesOk s' ∧ SameStore s s' := by
  by_cases hlt : s.cooling.length < s.frames.length
  · obtain ⟨s', hsample, h', hsame⟩ := sampleCool_spec 4 h
    refine ⟨s', (returns_get s).bind ?_, h', hsame⟩
    rw [if_pos hlt]
    exact hsample
  · refine ⟨s, (returns_get s).bind ?_, h, .refl s⟩
    rw [if_neg hlt]
    exact returns_pure _ _

end

end HenchDB.Pool
