import Mathlib.Data.List.Nodup
import HenchDB.Pool.Page

/-!
# Compaction

`Page::compact` copies the records that a page has and packs them at its end, slot by
slot.  They are apart and lie behind the directory, so they fit there
(`sum_length_le`), and every slot keeps its record (`compact_spec`).  With the specs
of the other two operations a page has the records that a list of calls leaves
(`slotted_page`).
-/

namespace HenchDB.Pool

open Codec Codec.Image

/-- Intervals that are apart are together no longer than one around them. -/
theorem sum_length_le {α : Type} {p len : α → Nat} {a b : Nat} {l : List α}
    (hin : ∀ e ∈ l, a ≤ p e ∧ p e + len e ≤ b)
    (hapart : l.Pairwise fun e e' => p e + len e ≤ p e' ∨ p e' + len e' ≤ p e) :
    (l.map len).sum ≤ b - a := by
  have hnodup : (l.flatMap fun e => List.range' (p e) (len e)).Nodup := by
    refine List.nodup_flatMap.mpr ⟨fun e _ => List.nodup_range' .., hapart.imp fun h x hx hx' => ?_⟩
    have hlo := List.mem_range'_1.mp hx
    have hhi := List.mem_range'_1.mp hx'
    omega
  have hsub : (l.flatMap fun e => List.range' (p e) (len e)) ⊆ List.range' a (b - a) := by
    intro x hx
    obtain ⟨e, he, hx⟩ := List.mem_flatMap.mp hx
    have hbounds := hin e he
    have hx := List.mem_range'_1.mp hx
    exact List.mem_range'_1.mpr (by omega)
  simpa [List.length_flatMap] using (List.subperm_of_subset hnodup hsub).length_le

namespace Page

/-! ## Packing -/

def writeSlot (img : Image) (slot off len : Nat) : Image :=
  writeU32 (writeU32 img (headerLen + slot * slotLen) off) (headerLen + slot * slotLen + 4) len

/-- What `compact` collects of a slot; `none` where the source panics. -/
def liveRecord (img : Image) (s : Nat) : Option (Option (Nat × Bytes)) :=
  match slotOff img s with
  | none => none
  | some (o, l) =>
    if o ≠ 0 ∨ l ≠ 0 then
      if pageSize < o + l then none else some (some (s, slice img o l))
    else some none

def packRecord (st : Image × Nat) (e : Nat × Bytes) : Option (Image × Nat) :=
  if st.2 < e.2.length then none
  else
    let start := st.2 - e.2.length
    some (writeSlot (patch st.1 start e.2) e.1 start e.2.length, start)

def compact (img : Image) : Option Image := do
  let count := slotCount img
  let live ← (List.range count).mapM (liveRecord img)
  let (img, start) ← live.reduceOption.foldlM packRecord (img, pageSize)
  let dirEnd := headerLen + count * slotLen
  if start < dirEnd then none
  else some (updateChecksum (writeU32 (patch img dirEnd (List.replicate (start - dirEnd) 0)) 20 start))

/-- The records of a page, slot by slot. -/
def live (img : Image) : List (Nat × Bytes) :=
  (List.range (slotCount img)).filterMap fun s => (get img s).map (s, ·)

section
variable {id : PageId} {img cur : Image} {s start : Nat} {done : List (Nat × Bytes)}

theorem mem_live {e : Nat × Bytes} : e ∈ live img ↔ get img e.1 = some e.2 := by
  rw [live, List.mem_filterMap]
  constructor
  · rintro ⟨s, -, hs⟩
    obtain ⟨data, hget, rfl⟩ := Option.map_eq_some_iff.mp hs
    exact hget
  · intro hget
    refine ⟨e.1, List.mem_range.mpr ?_, by rw [hget]; rfl⟩
    cases hs : slotOff img e.1 with
    | none => simp [get, hs] at hget
    | some x => exact slotOff_lt hs

/-- Every slot is listed once. -/
theorem live_pairwise : (live img).Pairwise fun e e' => e.1 ≠ e'.1 := by
  refine List.Pairwise.filterMap _ (fun a a' hne b hb b' hb' => ?_) List.nodup_range
  obtain ⟨_, -, rfl⟩ := Option.map_eq_some_iff.mp hb
  obtain ⟨_, -, rfl⟩ := Option.map_eq_some_iff.mp hb'
  exact hne

theorem liveRecord_eq (hl : Layout id img) (hs : s < slotCount img) :
    liveRecord img s = some ((get img s).map (s, ·)) := by
  have hdir := hl.dir_le
  have hstart := hl.start_le
  have hbase : headerLen + s * slotLen + slotLen ≤ pageSize := by
    unfold slotLen at *
    omega
  rw [liveRecord, hl.get_eq]
  cases hslot : slotOff img s with
  | none =>
    rw [slotOff, if_neg (by omega), if_neg (by omega)] at hslot
    cases hslot
  | some x =>
    obtain ⟨o, l⟩ := x
    by_cases hused : o = 0 ∧ l = 0
    · simp [hused]
    · have hin := hl.inside hslot (by omega)
      rw [Option.bind_some, if_neg hused]
      dsimp only
      rw [if_pos (by omega), if_neg (by omega)]
      rfl

/-- What is collected are the records of the page. -/
theorem mapM_liveRecord (hl : Layout id img) :
    ∃ found, (List.range (slotCount img)).mapM (liveRecord img) = some found ∧
      found.reduceOption = live img := by
  have hall : ∀ l : List Nat, (∀ s ∈ l, s < slotCount img) →
      l.mapM (liveRecord img) = some (l.map fun s => (get img s).map (s, ·)) := by
    intro l hlt
    induction l with
    | nil => rfl
    | cons s l ih =>
      rw [List.mapM_cons, liveRecord_eq hl (hlt s List.mem_cons_self),
        ih fun t ht => hlt t (List.mem_cons_of_mem _ ht)]
      rfl
  refine ⟨_, hall _ fun s hs => List.mem_range.mp hs, ?_⟩
  exact List.filterMap_map

/-- The records of a page fit behind its directory. -/
theorem sum_live_le (hl : Layout id img) :
    ((live img).map fun e => e.2.length).sum ≤ pageSize - (headerLen + slotCount img * slotLen) := by
  have hpos : ∀ e ∈ live img, slotOff img e.1 = some (((slotOff img e.1).getD (0, 0)).1, e.2.length) ∧
      (((slotOff img e.1).getD (0, 0)).1 ≠ 0 ∨ e.2.length ≠ 0) := by
    intro e he
    obtain ⟨o, hs, hused, -⟩ := hl.slotOff_of_get (mem_live.mp he)
    rw [hs]
    exact ⟨rfl, hused⟩
  have hdir := hl.dir_le
  refine sum_length_le (p := fun e => ((slotOff img e.1).getD (0, 0)).1) (fun e he => ?_) ?_
  · have hin := hl.inside (hpos e he).1 (hpos e he).2
    omega
  · refine live_pairwise.imp_of_mem fun he he' hne => ?_
    exact hl.apart hne (hpos _ he).1 (hpos _ he').1 (hpos _ he).2 (hpos _ he').2

/-! ## The packed page -/

/-- The records `done` are packed from `start` on, and the other slots are as before. -/
structure Packed (img : Image) (done : List (Nat × Bytes)) (cur : Image) (start : Nat) : Prop where
  header : slice cur 0 20 = slice img 0 20
  sum : start + (done.map fun e => e.2.length).sum = pageSize
  kept : ∀ s, (∀ e ∈ done, e.1 ≠ s) → slotOff cur s = slotOff img s
  placed : ∀ e ∈ done, ∃ o, slotOff cur e.1 = some (o, e.2.length) ∧
    slice cur o e.2.length = e.2 ∧ start ≤ o ∧ o + e.2.length ≤ pageSize
  apart : ∀ {e e' o l o' l'}, e ∈ done → e' ∈ done → e.1 ≠ e'.1 → slotOff cur e.1 = some (o, l) →
    slotOff cur e'.1 = some (o', l') → o + l ≤ o' ∨ o' + l' ≤ o

theorem slotOff_updateChecksum (img : Image) (s : Nat) :
    slotOff (updateChecksum img) s = slotOff img s :=
  slotOff_congr (number_updateChecksum (.inl (by decide)))
    (number_updateChecksum (.inr (by unfold headerLen; omega)))
    (number_updateChecksum (.inr (by unfold headerLen; omega)))

theorem slice_writeSlot {k o l off n : Nat}
    (h : off + n ≤ headerLen + k * slotLen ∨ headerLen + k * slotLen + slotLen ≤ off) :
    slice (writeSlot img k o l) off n = slice img off n := by
  have hslotLen : slotLen = 8 := rfl
  rw [writeSlot, writeU32, slice_patch_of_disjoint, writeU32, slice_patch_of_disjoint]
  · rw [length_leBytes]
    omega
  · rw [length_leBytes]
    omega

/-- The slots of an image that agrees with another one up to the end of the directory. -/
theorem slotOff_of_slices {img img' : Image} (hcount : slotCount img' = slotCount img)
    (hs : s < slotCount img → ∀ off, headerLen + s * slotLen ≤ off →
      off + 4 ≤ headerLen + s * slotLen + slotLen → slice img' off 4 = slice img off 4) :
    slotOff img' s = slotOff img s := by
  have hslotLen : slotLen = 8 := rfl
  by_cases hlt : s < slotCount img
  · refine slotOff_congr hcount ?_ ?_
    · rw [number, hs hlt _ (by omega) (by omega), number]
    · rw [number, hs hlt _ (by omega) (by omega), number]
  · rw [slotOff, slotOff, if_pos (by omega), if_pos (by omega)]

theorem Packed.step (h : Packed img done cur start) {e : Nat × Bytes} (hk : e.1 < slotCount img)
    (hroom : headerLen + slotCount img * slotLen + e.2.length ≤ start)
    (hnew : ∀ e' ∈ done, e'.1 ≠ e.1) :
    ∃ cur', packRecord (cur, start) e = some (cur', start - e.2.length) ∧
      Packed img (done ++ [e]) cur' (start - e.2.length) := by
  have hslotLen : slotLen = 8 := rfl
  have hheaderLen : headerLen = 32 := rfl
  have hsum := h.sum
  have hin : e.1 * slotLen + slotLen ≤ slotCount img * slotLen := by
    unfold slotLen
    omega
  have hcount : slotCount cur = slotCount img := by
    rw [slotCount, number, slice_agree h.header (by decide), ← number, slotCount]
  refine ⟨_, if_neg (Nat.not_lt.mpr (by omega)), ?_⟩
  set start' := start - e.2.length with hstart'
  set cur' := writeSlot (patch cur start' e.2) e.1 start' e.2.length with hcur'
  have hdirEnd : headerLen + e.1 * slotLen + slotLen ≤ start' := by omega
  have hslice : ∀ off n, (off + n ≤ headerLen + e.1 * slotLen ∨
      headerLen + e.1 * slotLen + slotLen ≤ off) → (off + n ≤ start' ∨ start ≤ off) →
      slice cur' off n = slice cur off n := fun off n hslot hdata => by
    rw [hcur', slice_writeSlot hslot, slice_patch_of_disjoint (by omega)]
  have hcount' : slotCount cur' = slotCount img := by
    rw [slotCount, number, hslice _ _ (.inl (by omega)) (.inl (by omega)), ← number, ← slotCount, hcount]
  have hself : slotOff cur' e.1 = some (start', e.2.length) := by
    have hcount'' : slotCount (patch cur start' e.2) = slotCount img := by
      rw [slotCount, number_patch_of_disjoint (.inl (by omega)), ← slotCount, hcount]
    rw [← slotOff_updateChecksum]
    exact slotOff_setSlot_self (by omega) (by rw [hcount'']; omega) (by omega) (by omega)
  have hother : ∀ s ≠ e.1, slotOff cur' s = slotOff cur s := fun s hs =>
    slotOff_of_slices (hcount'.trans hcount.symm) fun hlt off hlo hhi => by
      refine hslice off 4 ?_ (.inl ?_) <;> unfold slotLen at * <;> omega
  refine ⟨?_, ?_, ?_, ?_, ?_⟩
  · rw [hslice 0 20 (.inl (by omega)) (.inl (by omega)), h.header]
  · rw [List.map_append, List.sum_append, List.map_singleton, List.sum_singleton]
    omega
  · intro s hs
    rw [hother s (hs e (by simp)).symm]
    exact h.kept s fun e' he' => hs e' (List.mem_append_left _ he')
  · intro e' he'
    rcases List.mem_append.mp he' with he' | he'
    · obtain ⟨o, hslot, hdata, hlo, hhi⟩ := h.placed e' he'
      refine ⟨o, by rw [hother _ (hnew e' he'), hslot], ?_, by omega, hhi⟩
      rw [hslice o _ (.inr (by omega)) (.inr hlo), hdata]
    · cases List.mem_singleton.mp he'
      refine ⟨start', hself, ?_, le_rfl, by omega⟩
      rw [hcur', slice_writeSlot (.inr (by omega)), slice_patch_self]
  · intro e₁ e₂ o l o' l' h₁ h₂ hne hslot₁ hslot₂
    have hold : ∀ {e' o l}, e' ∈ done → slotOff cur' e'.1 = some (o, l) →
        slotOff cur e'.1 = some (o, l) ∧ start ≤ o := by
      intro e' o l he' hslot
      rw [hother _ (hnew e' he')] at hslot
      obtain ⟨o', hslot', -, hlo, -⟩ := h.placed e' he'
      rw [hslot] at hslot'
      cases hslot'
      exact ⟨hslot, hlo⟩
    have hlast : ∀ {o l}, slotOff cur' e.1 = some (o, l) → o + l = start := by
      intro o l hslot
      rw [hself] at hslot
      cases hslot
      omega
    simp only [List.mem_append, List.mem_singleton] at h₁ h₂
    rcases h₁ with h₁ | rfl
    · rcases h₂ with h₂ | rfl
      · exact h.apart h₁ h₂ hne (hold h₁ hslot₁).1 (hold h₂ hslot₂).1
      · exact .inr ((hlast hslot₂).trans_le (hold h₁ hslot₁).2)
    · rcases h₂ with h₂ | rfl
      · exact .inl ((hlast hslot₁).trans_le (hold h₂ hslot₂).2)
      · exact absurd rfl hne

theorem Packed.all : ∀ {rest done : List (Nat × Bytes)} {cur : Image} {start : Nat},
    Packed img done cur start → (∀ e ∈ rest, e.1 < slotCount img) →
    ((done ++ rest).Pairwise fun e e' => e.1 ≠ e'.1) →
    headerLen + slotCount img * slotLen + (rest.map fun e => e.2.length).sum ≤ start →
    ∃ cur' start', rest.foldlM packRecord (cur, start) = some (cur', start') ∧
      Packed img (done ++ rest) cur' start'
  | [], done, cur, start, h, _, _, _ => ⟨cur, start, rfl, by rwa [List.append_nil]⟩
  | e :: rest, done, cur, start, h, hin, hpair, hroom => by
    rw [List.map_cons, List.sum_cons] at hroom
    have hnew : ∀ e' ∈ done, e'.1 ≠ e.1 := fun e' he' =>
      (List.pairwise_append.mp hpair).2.2 e' he' e List.mem_cons_self
    obtain ⟨cur', hrun, h'⟩ := h.step (hin e List.mem_cons_self) (by omega) hnew
    have hassoc : done ++ e :: rest = done ++ [e] ++ rest := by simp
    rw [hassoc] at hpair ⊢
    obtain ⟨cur'', start'', hrest, h''⟩ := Packed.all h'
      (fun e' he' => hin e' (List.mem_cons_of_mem _ he')) hpair (by omega)
    exact ⟨cur'', start'', by rw [List.foldlM_cons, hrun]; exact hrest, h''⟩

/-- Compaction does not fail and every slot keeps its record. -/
theorem compact_spec (hl : Layout id img) :
    ∃ img', compact img = some img' ∧ Layout id img' ∧ ∀ s, get img' s = get img s := by
  have hslotLen : slotLen = 8 := rfl
  have hheaderLen : headerLen = 32 := rfl
  have hdir := hl.dir_le
  have hstart := hl.start_le
  have hsum := sum_live_le hl
  have hin : ∀ e ∈ live img, e.1 < slotCount img := by
    intro e he
    obtain ⟨o, hs, -, -⟩ := hl.slotOff_of_get (mem_live.mp he)
    exact slotOff_lt hs
  obtain ⟨found, hfound, hlive⟩ := mapM_liveRecord hl
  have hinit : Packed img [] img pageSize :=
    ⟨rfl, rfl, fun _ _ => rfl, fun _ h => absurd h List.not_mem_nil, fun h => absurd h List.not_mem_nil⟩
  obtain ⟨cur, start, hrun, hp⟩ := hinit.all hin live_pairwise (by omega)
  rw [List.nil_append] at hp
  have hstart' := hp.sum
  have hend : headerLen + slotCount img * slotLen ≤ start := by omega
  set dirEnd := headerLen + slotCount img * slotLen with hdirEnd
  set new := updateChecksum (writeU32 (patch cur dirEnd (List.replicate (start - dirEnd) 0)) 20 start)
    with hnew
  have hcompact : compact img = some new := by
    rw [compact, hfound]
    simp only [Option.bind_eq_bind, Option.bind_some, hlive, hrun]
    exact if_neg (Nat.not_lt.mpr hend)
  have hslice : ∀ off n, off + n ≤ 20 ∨ 28 ≤ off → off + n ≤ dirEnd ∨ start ≤ off →
      slice new off n = slice cur off n := fun off n hheader hdata => by
    rw [hnew, slice_updateChecksum (by omega), writeU32,
      slice_patch_of_disjoint (by rw [length_leBytes]; omega),
      slice_patch_of_disjoint (by rw [List.length_replicate]; omega)]
  have hcur : slotCount cur = slotCount img := by
    rw [slotCount, number, slice_agree hp.header (by decide), ← number, slotCount]
  have hcount : slotCount new = slotCount cur := by
    rw [slotCount, number, hslice _ _ (.inl (by decide)) (.inl (by omega)), ← number, slotCount]
  have hds : dataStart new = start := by
    rw [dataStart, hnew, number_updateChecksum (.inl (by decide)), writeU32, number_patch_self]
    unfold pageSize at hstart'
    omega
  have hslot : ∀ s, slotOff new s = slotOff cur s := fun s => by
    refine slotOff_of_slices hcount fun hlt off hlo hhi => ?_
    refine hslice off 4 (.inr (by omega)) (.inl ?_)
    unfold slotLen at *
    omega
  have hused : ∀ {s o l}, slotOff new s = some (o, l) → (o ≠ 0 ∨ l ≠ 0) →
      ∃ e ∈ live img, e.1 = s ∧ slotOff cur s = some (o, l) ∧ start ≤ o ∧ o + l ≤ pageSize := by
    intro s o l hs hne
    rw [hslot] at hs
    by_cases hget : ∃ data, get img s = some data
    · obtain ⟨data, hget⟩ := hget
      have he : (s, data) ∈ live img := mem_live.mpr hget
      obtain ⟨o', hs', -, hlo, hhi⟩ := hp.placed _ he
      rw [hs] at hs'
      cases hs'
      exact ⟨_, he, rfl, hs, hlo, hhi⟩
    · refine absurd ?_ hget
      rw [hp.kept s fun e he hes => hget ⟨e.2, hes ▸ mem_live.mp he⟩] at hs
      rw [hl.get_eq, hs, Option.bind_some, if_neg (by omega)]
      exact ⟨_, rfl⟩
  have hlayout : Layout id new := by
    refine hl.renew ((hslice _ _ (.inl (by decide)) (.inl (by omega))).trans
      (slice_agree hp.header (by decide))) (checksum_updateChecksum _) ?_ ?_ ?_ ?_
    · rw [hcount, hcur, hds]
      exact hend
    · rw [hds]
      omega
    · intro s o l hs hne
      rw [hds]
      obtain ⟨-, -, -, -, hlo, hhi⟩ := hused hs hne
      exact ⟨hlo, hhi⟩
    · intro s t o l o' l' hst hs ht hne hne'
      obtain ⟨e, he, rfl, hs, -⟩ := hused hs hne
      obtain ⟨e', he', rfl, ht, -⟩ := hused ht hne'
      exact hp.apart he he' hst hs ht
  refine ⟨new, hcompact, hlayout, fun s => ?_⟩
  cases hget : get img s with
  | none =>
    rw [hlayout.get_eq, hslot, hp.kept s fun e he hes => by
      rw [← hes, mem_live.mp he] at hget
      cases hget]
    rw [hl.get_eq] at hget
    cases hs : slotOff img s with
    | none => rfl
    | some x =>
      rw [hs, Option.bind_some] at hget
      split at hget
      · next hfree => exact if_pos hfree
      · cases hget
  | some data =>
    obtain ⟨o, hs, hdata, hlo, -⟩ := hp.placed _ (mem_live.mpr hget : (s, data) ∈ live img)
    rw [hlayout.get_eq, hslot, hs, Option.bind_some, if_neg (by omega), hslice _ _ (.inr (by omega))
      (.inr hlo), hdata]

end

/-! ## Calls -/

inductive Call where
  | insert (data : Bytes)
  | freeSlot (slot : Nat)
  | compact

/-- A page, and for each slot the last record that an insertion returned it for, unless
the slot was freed since. -/
structure Booked where
  img : Image
  book : Nat → Option Bytes

/-- Make a call; `none` where the source panics. -/
def Booked.call (b : Booked) : Call → Option Booked
  | .insert data =>
    some (match Page.insert b.img data with
      | some (img, k) => ⟨img, Function.update b.book k (some data)⟩
      | none => b)
  | .freeSlot slot => some ⟨(Page.freeSlot b.img slot).getD b.img, Function.update b.book slot none⟩
  | .compact => (Page.compact b.img).map fun img => ⟨img, b.book⟩

def Booked.Exact (id : PageId) (b : Booked) : Prop := Layout id b.img ∧ ∀ s, get b.img s = b.book s

theorem Booked.Exact.update {id : PageId} {b : Booked} (h : b.Exact id) {img' : Image} {k : Nat}
    {v : Option Bytes} (hl : Layout id img') (hself : get img' k = v)
    (hother : ∀ s ≠ k, get img' s = get b.img s) :
    Booked.Exact id ⟨img', Function.update b.book k v⟩ := by
  refine ⟨hl, fun s => ?_⟩
  show get img' s = Function.update b.book k v s
  by_cases hs : s = k
  · rw [hs, Function.update_self, hself]
  · rw [Function.update_of_ne hs, hother s hs, h.2]

theorem Booked.Exact.call {id : PageId} {b : Booked} (h : b.Exact id) (c : Call) :
    ∃ b', b.call c = some b' ∧ b'.Exact id := by
  cases c with
  | insert data =>
    refine ⟨_, rfl, ?_⟩
    cases hins : Page.insert b.img data with
    | none => exact h
    | some x =>
      obtain ⟨hl', -, hself, hother⟩ := insert_spec h.1 hins
      exact h.update hl' hself hother
  | freeSlot slot =>
    refine ⟨_, rfl, ?_⟩
    cases hfree : Page.freeSlot b.img slot with
    | none => exact h.update h.1 ((freeSlot_eq_none_iff h.1).mp hfree) fun _ _ => rfl
    | some img' =>
      obtain ⟨hl', hself, hother⟩ := freeSlot_spec h.1 hfree
      exact h.update hl' hself hother
  | compact =>
    obtain ⟨img', hcompact, hl', hget⟩ := compact_spec h.1
    exact ⟨⟨img', b.book⟩, by rw [Booked.call, hcompact]; rfl, hl', fun s => (hget s).trans (h.2 s)⟩

/-- After any calls on a new page no call panics, the page is verified, its records are those
of the book, and they lie apart, behind the directory and inside the page. -/
theorem slotted_page {id : PageId} (hid : id < 2 ^ 64) (calls : List Call) :
    ∃ b : Booked, calls.foldlM Booked.call ⟨(create id).img, fun _ => none⟩ = some b ∧
      fromImage id b.img = .ok ⟨id, b.img⟩ ∧ (∀ s, get b.img s = b.book s) ∧
      (∀ s o l, slotOff b.img s = some (o, l) → (o ≠ 0 ∨ l ≠ 0) →
        headerLen + slotCount b.img * slotLen ≤ o ∧ o + l ≤ pageSize) ∧
      ∀ s t o l o' l', s ≠ t → slotOff b.img s = some (o, l) → slotOff b.img t = some (o', l') →
        (o ≠ 0 ∨ l ≠ 0) → (o' ≠ 0 ∨ l' ≠ 0) → o + l ≤ o' ∨ o' + l' ≤ o := by
  have hrun : ∀ (calls : List Call) (b : Booked), b.Exact id →
      ∃ b', calls.foldlM Booked.call b = some b' ∧ b'.Exact id := by
    intro calls
    induction calls with
    | nil => exact fun b h => ⟨b, rfl, h⟩
    | cons c calls ih =>
      intro b h
      obtain ⟨b', hcall, h'⟩ := h.call c
      obtain ⟨b'', hrest, h''⟩ := ih b' h'
      exact ⟨b'', by rw [List.foldlM_cons, hcall]; exact hrest, h''⟩
  obtain ⟨b, hb, hl, hbook⟩ := hrun calls ⟨_, fun _ => none⟩ ⟨layout_create hid, get_create⟩
  refine ⟨b, hb, hl.verify, hbook, fun s o l hs hne => ?_, fun s t o l o' l' => hl.apart⟩
  have hin := hl.inside hs hne
  exact ⟨hl.dir_le.trans hin.1, hin.2⟩

theorem slotted_page_two :
    ∃ b : Booked, [Call.insert [1], .insert [2], .freeSlot 0, .compact].foldlM Booked.call
      ⟨(create 1).img, fun _ => none⟩ = some b ∧ fromImage 1 b.img = .ok ⟨1, b.img⟩ := by
  obtain ⟨b, hb, hv, -⟩ := slotted_page (show (1 : PageId) < 2 ^ 64 by decide)
    [.insert [1], .insert [2], .freeSlot 0, .compact]
  exact ⟨b, hb, hv⟩

end Page
end HenchDB.Pool
