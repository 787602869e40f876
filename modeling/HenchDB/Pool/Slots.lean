import HenchDB.Pool.Frames

/-!
# Slots

A slot of the page file is free, waits to be freed, or is somebody's record.
`Inv` keeps the waiting slots apart: each holds a record, and waits once, in
quarantine or at its page.  What the pool does on its own account (`Calm`) frees
waiting slots and touches no other record.
-/

namespace HenchDB.Pool

open Codec Codec.Image Program

def record (s : Inner) (x : Frag) : Option Bytes :=
  if x.1 = 0 ∨ s.file.nextId ≤ x.1 then none
  else (s.file.pages x.1).bind fun img => Page.get img x.2

def quarantined (s : Inner) : List Frag := s.quarantine.flatMap Quarantined.frags

def Awaiting (s : Inner) (x : Frag) : Prop := x ∈ quarantined s ∨ x.2 ∈ s.pendingFree x.1

/-- The invariant of the pool. -/
structure Inv (s : Inner) : Prop where
  file : FileOk s.file
  frames : FramesOk s
  known : ∀ e ∈ s.freeMap, InFile s.file e.1
  occupied : ∀ x, Awaiting s x → (record s x).isSome = true
  nodup : (quarantined s).Nodup
  pendingNodup : ∀ p, (s.pendingFree p).Nodup
  apart : ∀ x ∈ quarantined s, x.2 ∉ s.pendingFree x.1

/-- Waiting slots may have been freed, and nothing else happened to the records. -/
structure Calm (s s' : Inner) : Prop where
  inv : Inv s'
  awaiting : ∀ x, Awaiting s' x → Awaiting s x
  same : ∀ x, ¬ Awaiting s x → record s' x = record s x
  inFile : ∀ p, InFile s.file p → InFile s'.file p

theorem Calm.refl {s : Inner} (h : Inv s) : Calm s s := ⟨h, fun _ h => h, fun _ _ => rfl, fun _ h => h⟩

theorem Calm.trans {s s' s'' : Inner} (h : Calm s s') (h' : Calm s' s'') : Calm s s'' :=
  ⟨h'.inv, fun x hx => h.awaiting x (h'.awaiting x hx),
    fun x hx => (h'.same x fun hx' => hx (h.awaiting x hx')).trans (h.same x hx),
    fun p hp => h'.inFile p (h.inFile p hp)⟩

section
variable {s s' : Inner}

theorem record_of_inFile {x : Frag} (h : InFile s.file x.1) :
    record s x = (s.file.pages x.1).bind fun img => Page.get img x.2 := by
  rw [record, if_neg]
  rintro (h0 | hle)
  · exact h.1 h0
  · exact absurd h.2 (Nat.not_lt.mpr hle)

theorem inFile_of_record {x : Frag} {data : Bytes} (h : record s x = some data) :
    InFile s.file x.1 := by
  rw [record] at h
  split at h
  · cases h
  · next hrange =>
    rw [not_or, Nat.not_le] at hrange
    exact hrange

theorem record_congr (h : s'.file = s.file) (x : Frag) : record s' x = record s x := by
  rw [record, record, h]

theorem Inv.sameStore (h : Inv s) (hframes : FramesOk s') (hsame : SameStore s s') : Calm s s' := by
  have hquarantined : quarantined s' = quarantined s := by rw [quarantined, hsame.quarantine, quarantined]
  have hawait : ∀ x, Awaiting s' x ↔ Awaiting s x := fun x => by
    rw [Awaiting, Awaiting, hquarantined, hsame.pendingFree]
  refine ⟨⟨hsame.file ▸ h.file, hframes, ?_, ?_, ?_, ?_, ?_⟩, fun x => (hawait x).mp,
    fun x _ => record_congr hsame.file x, fun p hp => hsame.file ▸ hp⟩
  · rw [hsame.freeMap, hsame.file]
    exact h.known
  · intro x hx
    rw [record_congr hsame.file]
    exact h.occupied x ((hawait x).mp hx)
  · rw [hquarantined]
    exact h.nodup
  · rw [hsame.pendingFree]
    exact h.pendingNodup
  · rw [hquarantined, hsame.pendingFree]
    exact h.apart

/-! ## Rewriting a page -/

def PageFile.put (file : PageFile) (p : PageId) (img : Image) : PageFile :=
  { file with pages := Function.update file.pages p (some img) }

@[simp]
theorem PageFile.put_nextId (file : PageFile) (p : PageId) (img : Image) :
    (file.put p img).nextId = file.nextId := rfl

@[simp]
theorem PageFile.put_pages_self (file : PageFile) (p : PageId) (img : Image) :
    (file.put p img).pages p = some img := Function.update_self ..

variable {file : PageFile} {p : PageId} {img : Image} {f : Nat} {freeMap : List (PageId × Nat)}

theorem PageFile.put_pages_of_ne {q : PageId} (h : q ≠ p) :
    (file.put p img).pages q = file.pages q := Function.update_of_ne h ..

theorem record_put (hp : InFile file p) (hs : s.file = file) (hs' : s'.file = file.put p img)
    (x : Frag) :
    record s' x = if x.1 = p then Page.get img x.2 else record s x := by
  by_cases hx : x.1 = p
  · subst hx
    have hin : InFile s'.file x.1 := by rw [hs']; exact hp
    rw [record_of_inFile hin, hs', if_pos rfl, PageFile.put_pages_self, Option.bind_some]
  · rw [if_neg hx, record, record, hs', hs, PageFile.put_nextId, PageFile.put_pages_of_ne hx]

theorem FileOk.put (h : FileOk file) (hlayout : Page.Layout p img) : FileOk (file.put p img) := by
  refine ⟨h.nextId_lt, h.nextId_pos, fun q hq => ?_⟩
  by_cases hqp : q = p
  · subst hqp
    exact ⟨img, file.put_pages_self q img, hlayout⟩
  · obtain ⟨img', himg', hl⟩ := h.layout q hq
    exact ⟨img', (PageFile.put_pages_of_ne hqp).trans himg', hl⟩

theorem mem_putFree {map : List (PageId × Nat)} {n : Nat} {e : PageId × Nat}
    (h : e ∈ putFree map p n) : e.1 = p ∨ e ∈ map := by
  rw [putFree, List.mem_cons] at h
  rcases h with rfl | h
  · exact .inl rfl
  · exact .inr (List.mem_of_mem_filter h)

theorem Inv.resident_image (h : Inv s) (hp : s.index p = some f) :
    ∃ fr img, s.frames[f]? = some fr ∧ fr.image = some ⟨p, img⟩ ∧ s.file.pages p = some img ∧
      Page.Layout p img ∧ InFile s.file p ∧ ∀ k, record s (p, k) = Page.get img k := by
  obtain ⟨fr, img, hfr, -, himage, hfile, hin⟩ := h.frames.resident hp
  obtain ⟨img', hfile', hlayout⟩ := h.file.layout p hin
  rw [hfile] at hfile'
  cases hfile'
  refine ⟨fr, img, hfr, himage, hfile, hlayout, hin, fun k => ?_⟩
  rw [record_of_inFile hin, hfile, Option.bind_some]

/-- The state with a resident page rewritten and its free space noted. -/
def Inner.rewritten (s : Inner) (f : Nat) (fr : Frame) (p : PageId) (img : Image)
    (freeMap : List (PageId × Nat)) : Inner :=
  { s with
    frames := s.frames.set f { fr with image := some ⟨p, img⟩ }
    file := s.file.put p img
    freeMap := freeMap }

/-- Rewriting keeps the invariant if the waiting slots keep their records. -/
theorem Inv.rewrite (h : Inv s) {fr : Frame} (hp : s.index p = some f)
    (hfr : s.frames[f]? = some fr) (hlayout : Page.Layout p img)
    (hfree : ∀ e ∈ freeMap, e.1 = p ∨ e ∈ s.freeMap)
    (hawait : ∀ k, Awaiting s (p, k) → (Page.get img k).isSome = true) :
    Inv (s.rewritten f fr p img freeMap) ∧
      ∀ x, record (s.rewritten f fr p img freeMap) x =
        if x.1 = p then Page.get img x.2 else record s x := by
  have hin := (h.frames.resident hp).choose_spec.choose_spec.2.2.2.2
  have hrecord : ∀ x, record (s.rewritten f fr p img freeMap) x =
      if x.1 = p then Page.get img x.2 else record s x := record_put hin rfl rfl
  have hframes := h.frames.rewrite hp hfr img
  refine ⟨⟨h.file.put hlayout, ⟨hframes.nonempty, hframes.resident, hframes.owner,
    hframes.cooling⟩, fun e he => ?_, fun x hx => ?_, h.nodup, h.pendingNodup, h.apart⟩, hrecord⟩
  · rcases hfree e he with rfl | he
    · exact hin
    · exact h.known e he
  · rw [hrecord]
    split
    · next hx1 =>
      subst hx1
      exact hawait x.2 hx
    · exact h.occupied x hx

/-- A slot that does not wait may change in any way. -/
theorem Inv.rewriteSlot (h : Inv s) {k : Nat} {fr : Frame} {img' : Image} (hp : s.index p = some f)
    (hfr : s.frames[f]? = some fr) (hold : ∀ j, record s (p, j) = Page.get img j)
    (hlayout : Page.Layout p img') (hfree : ∀ e ∈ freeMap, e.1 = p ∨ e ∈ s.freeMap)
    (hother : ∀ j ≠ k, Page.get img' j = Page.get img j) (hwait : ¬ Awaiting s (p, k)) :
    Inv (s.rewritten f fr p img' freeMap) ∧
      record (s.rewritten f fr p img' freeMap) (p, k) = Page.get img' k ∧
      ∀ y ≠ (p, k), record (s.rewritten f fr p img' freeMap) y = record s y := by
  obtain ⟨hinv, hrecord⟩ := h.rewrite hp hfr hlayout hfree fun j hj => by
    have hjk : j ≠ k := by
      rintro rfl
      exact hwait hj
    rw [hother j hjk, ← hold]
    exact h.occupied _ hj
  refine ⟨hinv, by rw [hrecord, if_pos rfl], fun y hy => ?_⟩
  rw [hrecord]
  split
  · next hyp =>
    have hyk : y.2 ≠ k := fun hk => hy (Prod.ext hyp hk)
    rw [hother _ hyk, ← hold, ← hyp]
  · rfl

end

/-! ## Freeing slots -/

section
variable {s : Inner}

/-- The state with a slot to be freed on the next fault of its page. -/
def Inner.deferred (s : Inner) (x : Frag) : Inner :=
  { s with pendingFree := Function.update s.pendingFree x.1 (s.pendingFree x.1 ++ [x.2]) }

/-- A slot past its horizon is freed, or waits for its page. -/
theorem release_spec (h : Inv s) {x : Frag} (hx : (record s x).isSome = true)
    (hwait : ¬ Awaiting s x) : ∃ s', Returns (release x) s ⟨⟩ s' ∧ Inv s' ∧
      (∀ y, Awaiting s' y → Awaiting s y ∨ y = x) ∧ (∀ y ≠ x, record s' y = record s y) ∧
      (∀ p, InFile s.file p → InFile s'.file p) := by
  obtain ⟨p, k⟩ := x
  cases hp : s.index p with
  | some f =>
    obtain ⟨fr, img, hfr, himage, -, hlayout, hin, hrecord⟩ := h.resident_image hp
    obtain ⟨img', hfree⟩ : ∃ img', Page.freeSlot img k = some img' := by
      refine Option.ne_none_iff_exists'.mp fun hnone => ?_
      rw [hrecord, (Page.freeSlot_eq_none_iff hlayout).mp hnone] at hx
      cases hx
    obtain ⟨hlayout', -, hother⟩ := Page.freeSlot_spec hlayout hfree
    have hknown : ∀ e ∈ putFree s.freeMap p (Page.freeSpace img'), e.1 = p ∨ e ∈ s.freeMap :=
      fun e he => mem_putFree he
    obtain ⟨hinv, -, hsame⟩ := h.rewriteSlot hp hfr hrecord hlayout' hknown hother hwait
    refine ⟨_, (returns_get s).bind ?_, hinv, fun y hy => .inl hy, hsame, fun q hq => hq⟩
    rw [hp]
    refine (returns_image hfr himage).bind ?_
    rw [hfree]
    exact (returns_setImage _ hfr).bind ((returns_modify _ _).bind (returns_tryWritePage hin))
  | none =>
    have hnew : ∀ y, Awaiting (s.deferred (p, k)) y → Awaiting s y ∨ y = (p, k) := by
      rintro y (hy | hy)
      · exact .inl (.inl hy)
      · simp only [Inner.deferred, Function.update_apply] at hy
        split at hy
        · next hyp =>
          rcases List.mem_append.mp hy with hy | hy
          · exact .inl (.inr (hyp ▸ hy))
          · exact .inr (Prod.ext hyp (List.mem_singleton.mp hy))
        · exact .inl (.inr hy)
    refine ⟨s.deferred (p, k), (returns_get s).bind ?_, ⟨h.file, ?_, h.known,
      fun y hy => ?_, h.nodup, fun q => ?_, fun y hy hpend => ?_⟩, hnew, fun y _ => rfl,
      fun q hq => hq⟩
    · rw [hp]
      exact returns_modify _ s
    · exact ⟨h.frames.nonempty, h.frames.resident, h.frames.owner, h.frames.cooling⟩
    · rcases hnew y hy with hy | rfl
      · exact h.occupied y hy
      · exact hx
    · simp only [Inner.deferred, Function.update_apply]
      split
      · next hq =>
        subst hq
        refine List.Nodup.append (h.pendingNodup q) (List.nodup_singleton k) ?_
        rw [List.disjoint_singleton]
        exact fun hmem => hwait (.inr hmem)
      · exact h.pendingNodup q
    · rcases hnew y (.inr hpend) with hold | rfl
      · simp only [Inner.deferred, Function.update_apply] at hpend
        split at hpend
        · next hyp =>
          rcases List.mem_append.mp hpend with hpend | hpend
          · exact h.apart y hy (hyp ▸ hpend)
          · have hyx : y = (p, k) := Prod.ext hyp (List.mem_singleton.mp hpend)
            exact hwait (.inl (hyx ▸ hy))
        · exact h.apart y hy hpend
      · exact hwait (.inl hy)

/-- Slots past their horizon, one after the other. -/
theorem release_all (xs : List Frag) : ∀ {s : Inner}, Inv s → xs.Nodup →
    (∀ x ∈ xs, (record s x).isSome = true ∧ ¬ Awaiting s x) →
    ∃ s', Returns (xs.forM release) s ⟨⟩ s' ∧ Inv s' ∧
      (∀ y, Awaiting s' y → Awaiting s y ∨ y ∈ xs) ∧ (∀ y ∉ xs, record s' y = record s y) ∧
      (∀ p, InFile s.file p → InFile s'.file p) := by
  induction xs with
  | nil => exact fun {s} h _ _ => ⟨s, returns_pure _ _, h, fun _ hy => .inl hy, fun _ _ => rfl,
      fun _ hp => hp⟩
  | cons x xs ih =>
    intro s h hnodup hxs
    obtain ⟨hx, hnodup⟩ := List.nodup_cons.mp hnodup
    obtain ⟨hsome, hwait⟩ := hxs x List.mem_cons_self
    obtain ⟨s1, hrel, h1, hawait1, hsame1, hin1⟩ := release_spec h hsome hwait
    have hrest : ∀ y ∈ xs, (record s1 y).isSome = true ∧ ¬ Awaiting s1 y := fun y hy => by
      have hyx : y ≠ x := fun heq => hx (heq ▸ hy)
      have hold := hxs y (List.mem_cons_of_mem x hy)
      refine ⟨by rw [hsame1 y hyx]; exact hold.1, fun hnew => ?_⟩
      rcases hawait1 y hnew with hnew | rfl
      · exact hold.2 hnew
      · exact hyx rfl
    obtain ⟨s2, hall, h2, hawait2, hsame2, hin2⟩ := ih h1 hnodup hrest
    refine ⟨s2, hrel.bind hall, h2, fun y hy => ?_, fun y hy => ?_,
      fun p hp => hin2 p (hin1 p hp)⟩
    · rcases hawait2 y hy with hy | hy
      · rcases hawait1 y hy with hy | rfl
        · exact .inl hy
        · exact .inr List.mem_cons_self
      · exact .inr (List.mem_cons_of_mem x hy)
    · rw [List.mem_cons, not_or] at hy
      rw [hsame2 y hy.2, hsame1 y hy.1]

theorem reclaimQuarantine_spec (h : Inv s) (current : Nat) :
    ∃ s', Returns (reclaimQuarantine current) s ⟨⟩ s' ∧ Calm s s' := by
  set past := (s.quarantine.filter fun q => q.epoch + 1 < current).flatMap Quarantined.frags
    with hpast
  set kept : Inner :=
    { s with quarantine := s.quarantine.filter fun q => ¬ q.epoch + 1 < current } with hkept
  have hsplit : (past ++ quarantined kept).Perm (quarantined s) := by
    rw [hpast, hkept, quarantined, quarantined, ← List.flatMap_append]
    refine List.Perm.flatMap_right _ ?_
    have := List.filter_append_perm (fun q : Quarantined => decide (q.epoch + 1 < current))
      s.quarantine
    simpa only [decide_not] using this
  have hnodup : (past ++ quarantined kept).Nodup := hsplit.nodup_iff.mpr h.nodup
  have hmem : ∀ y, y ∈ past ∨ y ∈ quarantined kept ↔ y ∈ quarantined s := fun y => by
    rw [← List.mem_append, hsplit.mem_iff]
  have hkeptInv : Inv kept := by
    refine ⟨h.file, ⟨h.frames.nonempty, h.frames.resident, h.frames.owner, h.frames.cooling⟩,
      h.known, fun x hx => ?_, (List.nodup_append.mp hnodup).2.1, h.pendingNodup, fun x hx => ?_⟩
    · rcases hx with hx | hx
      · exact h.occupied x (.inl ((hmem x).mp (.inr hx)))
      · exact h.occupied x (.inr hx)
    · exact h.apart x ((hmem x).mp (.inr hx))
  obtain ⟨s', hall, hinv, hawait, hsame, hin⟩ := release_all past hkeptInv
    (List.nodup_append.mp hnodup).1 fun x hx => by
      have hq := (hmem x).mp (.inl hx)
      refine ⟨h.occupied x (.inl hq), ?_⟩
      rintro (hx' | hx')
      · exact (List.nodup_append.mp hnodup).2.2 x hx x hx' rfl
      · exact h.apart x hq hx'
  refine ⟨s', (returns_get s).bind ((returns_modify _ s).bind hall), hinv, fun x hx => ?_,
    fun x hx => ?_, hin⟩
  · rcases hawait x hx with (hx | hx) | hx
    · exact .inl ((hmem x).mp (.inr hx))
    · exact .inr hx
    · exact .inl ((hmem x).mp (.inl hx))
  · exact hsame x fun hx' => hx (.inl ((hmem x).mp (.inl hx')))

end

end HenchDB.Pool
