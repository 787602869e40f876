import HenchDB.Lib.Image
import HenchDB.Wal.Log

/-!
# Slotted pages

A page is an image of `pageSize` bytes: a header, a directory of slots growing
up and records growing down from the end.  A slot is the position and length of
its record, `(0, 0)` if it is free.  A freed record's bytes are not reused until
the page is compacted, which the pool never does; its slot is.

`Layout` is what every page of the pool satisfies.  Each operation is described
by the records it leaves (`insert_spec`, `freeSlot_spec`, `patchNext_spec`).
-/

namespace HenchDB.Pool

open Codec Codec.Image

abbrev PageId := Nat

def pageSize : Nat := 262144

def pageMagic : Bytes := [72, 68, 66, 80]

def pageFormatVersion : Nat := 1

def headerLen : Nat := 32

def slotLen : Nat := 8

def writeU32 (img : Image) (off v : Nat) : Image := patch img off (leBytes 4 v)

def writeU64 (img : Image) (off v : Nat) : Image := patch img off (leBytes 8 v)

/-- The image with the checksum field zeroed. -/
def unsealed (img : Image) : Image := patch img 24 [0, 0, 0, 0]

def checksum (img : Image) : Nat := (Wal.crc32 (slice (unsealed img) 0 pageSize)).toNat

def updateChecksum (img : Image) : Image := writeU32 (unsealed img) 24 (checksum img)

structure Page where
  id : PageId
  img : Image

namespace Page

def create (id : PageId) : Page where
  id := id
  img :=
    let img : Image := patch (fun _ => 0) 0 pageMagic
    let img := writeU32 img 4 pageFormatVersion
    let img := writeU64 img 8 id
    let img := writeU32 img 16 0
    updateChecksum (writeU32 img 20 pageSize)

def slotCount (img : Image) : Nat := number img 16 4

def dataStart (img : Image) : Nat := number img 20 4

def slotOff (img : Image) (slot : Nat) : Option (Nat × Nat) :=
  if slotCount img ≤ slot then none
  else
    let base := headerLen + slot * slotLen
    if pageSize < base + slotLen then none
    else some (number img base 4, number img (base + 4) 4)

def setSlot (img : Image) (slot off len : Nat) : Image :=
  let base := headerLen + slot * slotLen
  updateChecksum (writeU32 (writeU32 img base off) (base + 4) len)

def freeSpace (img : Image) : Nat :=
  dataStart img - (headerLen + (slotCount img + 1) * slotLen)

def freeSlot? (img : Image) : Option Nat :=
  (List.range (slotCount img)).find? fun s => slotOff img s = some (0, 0)

def putData (img : Image) (data : Bytes) : Image :=
  writeU32 (patch img (dataStart img - data.length) data) 20 (dataStart img - data.length)

def insert (img : Image) (data : Bytes) : Option (Image × Nat) :=
  if freeSpace img < data.length + slotLen then none
  else
    let start := dataStart img - data.length
    match freeSlot? img with
    | some s => some (setSlot (putData img data) s start data.length, s)
    | none =>
      let s := slotCount img
      some (setSlot (writeU32 (putData img data) 16 (s + 1)) s start data.length, s)

def get (img : Image) (slot : Nat) : Option Bytes :=
  match slotOff img slot with
  | none => none
  | some (o, l) =>
    if o = 0 ∧ l = 0 then none
    else if pageSize < o + l ∨ o < headerLen + slotCount img * slotLen then none
    else some (slice img o l)

/-- `Page::free_slot`; `none` if there was nothing to free. -/
def freeSlot (img : Image) (slot : Nat) : Option Image :=
  match slotOff img slot with
  | none => none
  | some (o, l) => if o = 0 ∧ l = 0 then none else some (setSlot img slot 0 0)

/-- The next fragment written into the record of a slot. -/
def patchNext (img : Image) (slot nextPage nextSlot : Nat) : Option Image :=
  (slotOff img slot).map fun s =>
    updateChecksum (writeU32 (writeU64 img (s.1 + 9) nextPage) (s.1 + 17) nextSlot)

def verify (p : Page) : Except Error Unit :=
  if slice p.img 0 4 ≠ pageMagic then .error (.corrupted "page: bad magic")
  else if number p.img 4 4 ≠ pageFormatVersion then .error (.corrupted "page: version")
  else if number p.img 8 8 ≠ p.id then .error (.corrupted "page: id mismatch")
  else if checksum p.img ≠ number p.img 24 4 then .error (.corrupted "page: checksum")
  else if pageSize < headerLen + slotCount p.img * slotLen then
    .error (.corrupted "page: slot directory overflow")
  else if dataStart p.img < headerLen + slotCount p.img * slotLen ∨ pageSize < dataStart p.img then
    .error (.corrupted "page: data-start out of range")
  else .ok ()

def fromImage (id : PageId) (img : Image) : Except Error Page := do
  let p : Page := ⟨id, img⟩
  p.verify
  return p

/-! ## Layout -/

structure Layout (id : PageId) (img : Image) : Prop where
  magic : slice img 0 4 = pageMagic
  version : number img 4 4 = pageFormatVersion
  id : number img 8 8 = id
  checksum : checksum img = number img 24 4
  dir_le : headerLen + slotCount img * slotLen ≤ dataStart img
  start_le : dataStart img ≤ pageSize
  inside : ∀ {s o l}, slotOff img s = some (o, l) → (o ≠ 0 ∨ l ≠ 0) →
    dataStart img ≤ o ∧ o + l ≤ pageSize
  /-- Two records do not overlap. -/
  apart : ∀ {s t o l o' l'}, s ≠ t → slotOff img s = some (o, l) → slotOff img t = some (o', l') →
    (o ≠ 0 ∨ l ≠ 0) → (o' ≠ 0 ∨ l' ≠ 0) → o + l ≤ o' ∨ o' + l' ≤ o

variable {id : PageId} {img img' : Image} {off s : Nat}

theorem Layout.verify (h : Layout id img) :
    fromImage id img = .ok ⟨id, img⟩ := by
  have hdir := h.dir_le
  have hstart := h.start_le
  have hv : Page.verify ⟨id, img⟩ = .ok () := by
    rw [Page.verify, if_neg (by simp [h.magic]), if_neg (by simp [h.version]),
      if_neg (by simp [h.id]), if_neg (by simp [h.checksum]), if_neg (by simp only []; omega),
      if_neg (by simp only []; omega)]
  rw [fromImage, hv]
  rfl

/-- The bytes of an image outside its checksum. -/
theorem slice_updateChecksum {n : Nat} (h : off + n ≤ 24 ∨ 28 ≤ off) :
    slice (updateChecksum img) off n = slice img off n := by
  rw [updateChecksum, writeU32, slice_patch_of_disjoint (by simpa using h), unsealed,
    slice_patch_of_disjoint (by simpa using h)]

theorem number_updateChecksum {w : Nat} (h : off + w ≤ 24 ∨ 28 ≤ off) :
    number (updateChecksum img) off w = number img off w := by
  rw [number, slice_updateChecksum h, number]

theorem checksum_updateChecksum (img : Image) :
    checksum (updateChecksum img) = number (updateChecksum img) 24 4 := by
  have hunsealed : unsealed (updateChecksum img) = unsealed img := by
    rw [updateChecksum, writeU32, unsealed, unsealed, patch_patch (by simp), patch_patch rfl]
  have hlt : checksum img < 256 ^ 4 := UInt32.toNat_lt _
  rw [checksum, hunsealed, ← checksum, updateChecksum, writeU32, number_patch_self hlt]

/-- The slots of an image are those of another. -/
theorem slotOff_congr (hcount : slotCount img' = slotCount img)
    (hslot : number img' (headerLen + s * slotLen) 4 = number img (headerLen + s * slotLen) 4)
    (hlen : number img' (headerLen + s * slotLen + 4) 4 = number img (headerLen + s * slotLen + 4) 4) :
    slotOff img' s = slotOff img s := by
  simp only [slotOff, hcount, hslot, hlen]

theorem slotOff_lt {x : Nat × Nat} (h : slotOff img s = some x) :
    s < slotCount img := by
  by_contra hle
  rw [slotOff, if_pos (by omega)] at h
  cases h

theorem Layout.get_eq (h : Layout id img) (s : Nat) :
    get img s = (slotOff img s).bind fun x =>
      if x.1 = 0 ∧ x.2 = 0 then none else some (slice img x.1 x.2) := by
  rw [get]
  cases hs : slotOff img s with
  | none => rfl
  | some x =>
    obtain ⟨o, l⟩ := x
    simp only [Option.bind_some]
    split
    · rfl
    · next hused =>
      have hin := h.inside hs (by omega)
      have hdir := h.dir_le
      rw [if_neg (by omega)]

theorem Layout.slotOff_of_get (h : Layout id img) {data : Bytes} (hget : get img s = some data) :
    ∃ o, slotOff img s = some (o, data.length) ∧ (o ≠ 0 ∨ data.length ≠ 0) ∧
      slice img o data.length = data := by
  rw [h.get_eq, Option.bind_eq_some_iff] at hget
  obtain ⟨⟨o, l⟩, hs, hdata⟩ := hget
  split at hdata
  · cases hdata
  · next hused =>
    cases hdata
    simp only [length_slice]
    exact ⟨o, hs, by omega, rfl⟩

/-- Bytes that two images have in common from the start. -/
theorem slice_agree {m : Nat} (h : slice img' 0 m = slice img 0 m) {n : Nat} (hn : off + n ≤ m) :
    slice img' off n = slice img off n := by
  refine slice_congr fun i _ hi => ?_
  have hget : (slice img' 0 m)[i]? = (slice img 0 m)[i]? := by rw [h]
  rw [getElem?_slice, getElem?_slice, if_pos (by omega), if_pos (by omega), Nat.zero_add] at hget
  exact Option.some.inj hget

/-- A slot that is where it was, with the same bytes. -/
theorem Layout.get_congr (hl : Layout id img) (hl' : Layout id img')
    (hslot : slotOff img' s = slotOff img s)
    (hdata : ∀ {o l}, slotOff img s = some (o, l) → (o ≠ 0 ∨ l ≠ 0) → slice img' o l = slice img o l) :
    get img' s = get img s := by
  rw [hl'.get_eq, hl.get_eq, hslot]
  cases hs : slotOff img s with
  | none => rfl
  | some x =>
    simp only [Option.bind_some]
    split
    · rfl
    · rw [hdata hs (by omega)]

/-- A page with another's identity whose records lie inside and apart. -/
theorem Layout.renew (hl : Layout id img) (hheader : slice img' 0 16 = slice img 0 16)
    (hcrc : Pool.checksum img' = number img' 24 4)
    (hdir : headerLen + slotCount img' * slotLen ≤ dataStart img')
    (hstart : dataStart img' ≤ pageSize)
    (hinside : ∀ {s o l}, slotOff img' s = some (o, l) → (o ≠ 0 ∨ l ≠ 0) → dataStart img' ≤ o ∧
      o + l ≤ pageSize)
    (hapart : ∀ {s t o l o' l'}, s ≠ t → slotOff img' s = some (o, l) → slotOff img' t = some (o', l') →
      (o ≠ 0 ∨ l ≠ 0) → (o' ≠ 0 ∨ l' ≠ 0) → o + l ≤ o' ∨ o' + l' ≤ o) :
    Layout id img' where
  magic := (slice_agree hheader (by decide)).trans hl.magic
  version := by rw [number, slice_agree hheader (by decide), ← number, hl.version]
  id := by rw [number, slice_agree hheader (by decide), ← number, hl.id]
  checksum := hcrc
  dir_le := hdir
  start_le := hstart
  inside := hinside
  apart := hapart

/-- A page with some of the records of another one, where they were. -/
theorem Layout.mono (hl : Layout id img) (hheader : slice img' 0 24 = slice img 0 24)
    (hcrc : Pool.checksum img' = number img' 24 4)
    (hused : ∀ {s o l}, slotOff img' s = some (o, l) → (o ≠ 0 ∨ l ≠ 0) → slotOff img s = some (o, l)) :
    Layout id img' := by
  have hcount : slotCount img' = slotCount img := by
    rw [slotCount, number, slice_agree hheader (by decide), ← number, slotCount]
  have hds : dataStart img' = dataStart img := by
    rw [dataStart, number, slice_agree hheader (by decide), ← number, dataStart]
  refine hl.renew (slice_agree hheader (by decide)) hcrc (by rw [hcount, hds]; exact hl.dir_le)
    (hds ▸ hl.start_le) (fun hs hne => ?_) fun hst hs ht hne hne' => ?_
  · rw [hds]
    exact hl.inside (hused hs hne) hne
  · exact hl.apart hst (hused hs hne) (hused ht hne') hne hne'

/-! ## Writing a slot -/

section
variable {img : Image} {k o l : Nat}

variable {off : Nat}

/-- Bytes outside the slot and the checksum. -/
theorem slice_setSlot {n : Nat} (hcrc : off + n ≤ 24 ∨ 28 ≤ off)
    (hslot : off + n ≤ headerLen + k * slotLen ∨ headerLen + k * slotLen + slotLen ≤ off) :
    slice (setSlot img k o l) off n = slice img off n := by
  have hslotLen : slotLen = 8 := rfl
  rw [setSlot, slice_updateChecksum hcrc, writeU32, slice_patch_of_disjoint, writeU32,
    slice_patch_of_disjoint]
  · rw [length_leBytes]
    omega
  · rw [length_leBytes]
    omega

theorem number_setSlot {w : Nat} (hcrc : off + w ≤ 24 ∨ 28 ≤ off)
    (hslot : off + w ≤ headerLen + k * slotLen ∨ headerLen + k * slotLen + slotLen ≤ off) :
    number (setSlot img k o l) off w = number img off w := by
  rw [number, slice_setSlot hcrc hslot, number]

theorem number_setSlot_header {w : Nat} (h : off + w ≤ 24) :
    number (setSlot img k o l) off w = number img off w :=
  number_setSlot (.inl h) (.inl (by unfold headerLen; omega))

theorem slotOff_setSlot_self (hk : k < slotCount img)
    (hdir : headerLen + slotCount img * slotLen ≤ pageSize) (ho : o ≤ pageSize)
    (hl : l ≤ pageSize) : slotOff (setSlot img k o l) k = some (o, l) := by
  have hcount : slotCount (setSlot img k o l) = slotCount img := number_setSlot_header (by decide)
  have hbase : headerLen + k * slotLen + slotLen ≤ pageSize := by
    unfold headerLen slotLen at *
    omega
  have hoff : number (setSlot img k o l) (headerLen + k * slotLen) 4 = o := by
    rw [setSlot, number_updateChecksum (.inr (by unfold headerLen; omega)), writeU32,
      number_patch_of_disjoint (.inl (by omega)), writeU32, number_patch_self]
    unfold pageSize at ho
    omega
  have hlen : number (setSlot img k o l) (headerLen + k * slotLen + 4) 4 = l := by
    rw [setSlot, number_updateChecksum (.inr (by unfold headerLen; omega)), writeU32,
      number_patch_self]
    unfold pageSize at hl
    omega
  simp only [slotOff, hcount, hoff, hlen]
  rw [if_neg (by omega), if_neg (by omega)]

theorem slotOff_setSlot_of_ne (h : s ≠ k) :
    slotOff (setSlot img k o l) s = slotOff img s := by
  have hapart : headerLen + s * slotLen + slotLen ≤ headerLen + k * slotLen ∨
      headerLen + k * slotLen + slotLen ≤ headerLen + s * slotLen := by
    unfold slotLen
    omega
  have hheader : 28 ≤ headerLen + s * slotLen := by
    unfold headerLen
    omega
  have hslotLen : slotLen = 8 := rfl
  exact slotOff_congr (number_setSlot_header (by decide))
    (number_setSlot (.inr hheader) (by omega)) (number_setSlot (.inr (by omega)) (by omega))

end

/-! ## Inserting -/

/-- The image with the record of a new slot `k` written, but not its slot. -/
structure Grown (img : Image) (data : Bytes) (k : Nat) (img' : Image) : Prop where
  room : headerLen + (slotCount img + 1) * slotLen + slotLen + data.length ≤ dataStart img
  start : dataStart img' = dataStart img - data.length
  counts : ∀ s, s ≠ k → (s < slotCount img' ↔ s < slotCount img)
  count_le : slotCount img' ≤ slotCount img + 1
  inDir : k < slotCount img'
  free : slotOff img k = some (0, 0) ∨ slotCount img ≤ k
  header : slice img' 0 16 = slice img 0 16
  written : slice img' (dataStart img - data.length) data.length = data
  rest : ∀ off n, headerLen ≤ off →
    (off + n ≤ dataStart img - data.length ∨ dataStart img ≤ off) →
    slice img' off n = slice img off n

section
variable {id : PageId} {img img' : Image} {data : Bytes} {k : Nat}

theorem Grown.slotOff_eq (hl : Layout id img) (hg : Grown img data k img') (hs : s ≠ k) :
    slotOff img' s = slotOff img s := by
  have hroom := hg.room
  have hstart := hl.start_le
  have hslotLen : slotLen = 8 := rfl
  by_cases hlt : s < slotCount img
  · have hlt' : s < slotCount img' := (hg.counts s hs).mpr hlt
    have hbelow : headerLen + s * slotLen + slotLen ≤ dataStart img - data.length := by
      unfold headerLen slotLen at *
      omega
    have hsame : ∀ off, headerLen + s * slotLen ≤ off →
        off + 4 ≤ headerLen + s * slotLen + slotLen → number img' off 4 = number img off 4 :=
      fun off hlo hhi => by
        rw [number, hg.rest off 4 (by omega) (.inl (by omega)), number]
    have hoff := hsame (headerLen + s * slotLen) (by omega) (by omega)
    have hlen := hsame (headerLen + s * slotLen + 4) (by omega) (by omega)
    simp only [slotOff, if_neg (Nat.not_le.mpr hlt), if_neg (Nat.not_le.mpr hlt'), hoff, hlen]
  · have hlt' : ¬ s < slotCount img' := fun h => hlt ((hg.counts s hs).mp h)
    rw [slotOff, slotOff, if_pos (Nat.not_lt.mp hlt), if_pos (Nat.not_lt.mp hlt')]

/-- With its slot written too, the record is there and the others are as before. -/
theorem Grown.insert (hl : Layout id img) (hg : Grown img data k img') :
    Layout id (setSlot img' k (dataStart img - data.length) data.length) ∧
      get img k = none ∧
      get (setSlot img' k (dataStart img - data.length) data.length) k = some data ∧
      ∀ s ≠ k, get (setSlot img' k (dataStart img - data.length) data.length) s = get img s := by
  have hroom := hg.room
  have hstart := hl.start_le
  have hdir' : headerLen + slotCount img' * slotLen ≤ dataStart img' := by
    have := hg.count_le
    rw [hg.start]
    unfold slotLen at *
    omega
  have htop : dataStart img' ≤ pageSize := by
    rw [hg.start]
    omega
  set start := dataStart img - data.length with hstart_eq
  set new := setSlot img' k start data.length with hnew
  have hself : slotOff new k = some (start, data.length) :=
    slotOff_setSlot_self hg.inDir (by omega) (by omega) (by omega)
  have hother : ∀ s ≠ k, slotOff new s = slotOff img s := fun s hs => by
    rw [hnew, slotOff_setSlot_of_ne hs, hg.slotOff_eq hl hs]
  have hcount : slotCount new = slotCount img' := number_setSlot_header (by decide)
  have hds : dataStart new = start := by
    rw [dataStart, hnew, number_setSlot_header (by decide)]
    exact hg.start
  have hheader : slice new 0 16 = slice img 0 16 := by
    rw [hnew, slice_setSlot (.inl (by decide)) (.inl (by unfold headerLen; omega)), hg.header]
  -- the data region of the new image: what was there, and the record below it
  have habove : headerLen + k * slotLen + slotLen ≤ start := by
    have := hg.inDir
    have hlast : headerLen + slotCount img' * slotLen ≤ start := by rwa [hg.start] at hdir'
    have : (k + 1) * slotLen ≤ slotCount img' * slotLen := Nat.mul_le_mul_right _ hg.inDir
    rw [Nat.add_mul] at this
    omega
  have hslice : ∀ off n, start ≤ off → slice new off n = slice img' off n := fun off n h => by
    rw [hnew, slice_setSlot (.inr (by unfold headerLen at *; omega)) (.inr (by omega))]
  have hold : ∀ {s o l}, slotOff img s = some (o, l) → (o ≠ 0 ∨ l ≠ 0) →
      slice new o l = slice img o l := fun hs hused => by
    have hin := hl.inside hs hused
    rw [hslice _ _ (by omega), hg.rest _ _ (by unfold headerLen at *; omega) (.inr hin.1)]
  have hlayout : Layout id new := by
    refine hl.renew hheader (checksum_updateChecksum _) ?_ ?_ ?_ ?_
    · rw [hcount, hds]
      rwa [hg.start] at hdir'
    · rw [hds]
      omega
    · intro s o l hs hused
      rw [hds]
      by_cases hk : s = k
      · subst hk
        rw [hself] at hs
        cases hs
        omega
      · have := hl.inside (hother s hk ▸ hs) hused
        omega
    · intro s t o l o' l' hst hs ht hused hused'
      by_cases hk : s = k
      · subst hk
        rw [hself] at hs
        cases hs
        have := hl.inside (hother t (Ne.symm hst) ▸ ht) hused'
        omega
      · by_cases hk' : t = k
        · subst hk'
          rw [hself] at ht
          cases ht
          have := hl.inside (hother s hk ▸ hs) hused
          omega
        · exact hl.apart hst (hother s hk ▸ hs) (hother t hk' ▸ ht) hused hused'
  refine ⟨hlayout, ?_, ?_, fun s hs => ?_⟩
  · rw [hl.get_eq]
    rcases hg.free with hfree | hfree
    · rw [hfree]
      rfl
    · rw [slotOff, if_pos hfree]
      rfl
  · rw [hlayout.get_eq, hself, Option.bind_some, if_neg (by unfold headerLen at *; omega),
      hslice _ _ (le_refl _), hg.written]
  · exact hl.get_congr hlayout (hother s hs) hold

theorem putData_number {w : Nat} (hds : off + w ≤ 20 ∨ 24 ≤ off)
    (h : off + w ≤ dataStart img - data.length ∨ dataStart img - data.length + data.length ≤ off) :
    number (putData img data) off w = number img off w := by
  rw [putData, writeU32, number_patch_of_disjoint (by simpa using hds), number_patch_of_disjoint h]

theorem putData_slice {n : Nat} (hds : off + n ≤ 20 ∨ 24 ≤ off)
    (h : off + n ≤ dataStart img - data.length ∨ dataStart img - data.length + data.length ≤ off) :
    slice (putData img data) off n = slice img off n := by
  rw [putData, writeU32, slice_patch_of_disjoint (by simpa using hds), slice_patch_of_disjoint h]

/-- A record that fits is written below the others; its slot is a free one or the
next. -/
theorem Layout.grown (hl : Layout id img)
    (hroom : headerLen + (slotCount img + 1) * slotLen + slotLen + data.length ≤ dataStart img) :
    (∀ k, k < slotCount img → slotOff img k = some (0, 0) → Grown img data k (putData img data)) ∧
      Grown img data (slotCount img)
        (writeU32 (putData img data) 16 (slotCount img + 1)) := by
  have hstart := hl.start_le
  have hlen : dataStart img - data.length + data.length = dataStart img := by omega
  have hlow : 32 ≤ dataStart img - data.length := by
    unfold headerLen at hroom
    omega
  have hcount : slotCount (putData img data) = slotCount img :=
    putData_number (by decide) (.inl (by omega))
  have hds : dataStart (putData img data) = dataStart img - data.length := by
    rw [dataStart, putData, writeU32, number_patch_self]
    unfold pageSize at hstart
    omega
  have hdata : slice (putData img data) (dataStart img - data.length) data.length = data := by
    rw [putData, writeU32, slice_patch_of_disjoint, slice_patch_self]
    rw [length_leBytes]
    omega
  have hrest : ∀ off n, headerLen ≤ off →
      (off + n ≤ dataStart img - data.length ∨ dataStart img ≤ off) →
      slice (putData img data) off n = slice img off n := fun off n hoff h =>
    putData_slice (.inr (by unfold headerLen at hoff; omega)) (by omega)
  have hnew : slotCount img + 1 < 256 ^ 4 := by
    unfold headerLen slotLen pageSize at *
    omega
  constructor
  · intro k hk hfree
    exact ⟨hroom, hds, fun s _ => by rw [hcount], by omega, by omega, .inl hfree,
      putData_slice (.inl (by decide)) (.inl (by omega)), hdata, hrest⟩
  · have hcount' : slotCount (writeU32 (putData img data) 16 (slotCount img + 1)) =
        slotCount img + 1 := by
      rw [slotCount, writeU32, number_patch_self hnew]
    have hslice : ∀ off n, off + n ≤ 16 ∨ 20 ≤ off →
        slice (writeU32 (putData img data) 16 (slotCount img + 1)) off n =
          slice (putData img data) off n := fun off n h => by
      rw [writeU32, slice_patch_of_disjoint (by simpa using h)]
    refine ⟨hroom, ?_, fun s hs => by rw [hcount']; omega, by omega, by omega, .inr (le_refl _),
      ?_, ?_, ?_⟩
    · rw [dataStart, number, hslice _ _ (.inr (by decide)), ← number]
      exact hds
    · rw [hslice _ _ (.inl (by decide)), putData_slice (.inl (by decide)) (.inl (by omega))]
    · rw [hslice _ _ (.inr (by omega)), hdata]
    · intro off n hoff h
      rw [hslice _ _ (.inr (by unfold headerLen at hoff; omega)), hrest off n hoff h]

/-- An inserted record is in a slot that was free, and no other slot changes. -/
theorem insert_spec (hl : Layout id img) (h : Page.insert img data = some (img', k)) :
    Layout id img' ∧ get img k = none ∧ get img' k = some data ∧
      ∀ s ≠ k, get img' s = get img s := by
  rw [Page.insert] at h
  split at h
  · cases h
  · next hfits =>
    have hroom : headerLen + (slotCount img + 1) * slotLen + slotLen + data.length ≤
        dataStart img := by
      rw [freeSpace] at hfits
      unfold slotLen at *
      omega
    obtain ⟨hreuse, happend⟩ := hl.grown hroom
    split at h
    · next s hs =>
      cases h
      have hrange := List.mem_range.mp (List.mem_of_find?_eq_some hs)
      have hfree := List.find?_some hs
      exact (hreuse k hrange (of_decide_eq_true hfree)).insert hl
    · cases h
      exact happend.insert hl

theorem insert_isSome (h : data.length + slotLen ≤ freeSpace img) :
    ∃ img' k, Page.insert img data = some (img', k) := by
  rw [Page.insert, if_neg (by omega)]
  split
  · exact ⟨_, _, rfl⟩
  · exact ⟨_, _, rfl⟩

/-! ## Freeing and patching -/

theorem freeSlot_eq_none_iff (hl : Layout id img) :
    freeSlot img k = none ↔ get img k = none := by
  rw [freeSlot, hl.get_eq]
  cases slotOff img k with
  | none => simp
  | some x => simp

/-- A freed slot has no record, and no other slot changes. -/
theorem freeSlot_spec (hl : Layout id img) (h : freeSlot img k = some img') :
    Layout id img' ∧ get img' k = none ∧ ∀ s ≠ k, get img' s = get img s := by
  have hstart := hl.start_le
  have hdir := hl.dir_le
  obtain ⟨x, hk⟩ : ∃ x, slotOff img k = some x := by
    cases hk : slotOff img k with
    | none => simp [freeSlot, hk] at h
    | some x => exact ⟨x, rfl⟩
  have hnew : img' = setSlot img k 0 0 := by
    simp only [freeSlot, hk] at h
    split at h
    · cases h
    · exact (Option.some.inj h).symm
  have hself : slotOff img' k = some (0, 0) := by
    rw [hnew]
    exact slotOff_setSlot_self (slotOff_lt hk) (by omega) (Nat.zero_le _) (Nat.zero_le _)
  have hother : ∀ s ≠ k, slotOff img' s = slotOff img s := fun s hs => by
    rw [hnew, slotOff_setSlot_of_ne hs]
  have hdirEnd : headerLen + k * slotLen + slotLen ≤ dataStart img := by
    have := slotOff_lt hk
    unfold slotLen headerLen at *
    omega
  have hlayout : Layout id img' := by
    refine hl.mono ?_ (hnew ▸ checksum_updateChecksum _) fun {s o l} hs hne => ?_
    · rw [hnew, slice_setSlot (.inl (by decide)) (.inl (by unfold headerLen; omega))]
    · have hsk : s ≠ k := by
        rintro rfl
        rw [hself] at hs
        cases hs
        omega
      rw [← hother s hsk, hs]
  refine ⟨hlayout, by rw [hlayout.get_eq, hself]; rfl, fun s hs => ?_⟩
  refine hl.get_congr hlayout (hother s hs) fun hslot hne => ?_
  have hin := hl.inside hslot hne
  rw [hnew, slice_setSlot (.inr (by unfold headerLen at *; omega)) (.inr (by omega))]

/-- The bytes of a chained record after its next fragment is written. -/
def withNext (record : Bytes) (nextPage nextSlot : Nat) : Bytes :=
  record.take 9 ++ leBytes 8 nextPage ++ leBytes 4 nextSlot ++ record.drop 21

theorem take_drop_withNext {record b c : Bytes} (hlen : 21 ≤ record.length)
    (hb : b.length = 8) :
    (record.take 9 ++ b ++ record.drop 17).take 17 ++ c ++
        (record.take 9 ++ b ++ record.drop 17).drop 21 =
      record.take 9 ++ b ++ c ++ record.drop 21 := by
  have hfront : (record.take 9 ++ b).length = 17 := by
    rw [List.length_append, List.length_take, hb]
    omega
  rw [List.take_left' hfront, List.drop_append, hfront, List.drop_drop,
    List.drop_of_length_le (by omega)]
  rfl

/-- Patching the record of a slot changes its next fragment and nothing else. -/
theorem patchNext_spec {record : Bytes} (hl : Layout id img) (hget : get img k = some record)
    (hlen : 21 ≤ record.length) (nextPage nextSlot : Nat) :
    ∃ img', patchNext img k nextPage nextSlot = some img' ∧ Layout id img' ∧
      get img' k = some (withNext record nextPage nextSlot) ∧
      ∀ s ≠ k, get img' s = get img s := by
  have hdir := hl.dir_le
  obtain ⟨o, hk, hused, hrecord⟩ := hl.slotOff_of_get hget
  have hin := hl.inside hk hused
  refine ⟨_, by rw [patchNext, hk]; rfl, ?_⟩
  set new := updateChecksum (writeU32 (writeU64 img (o + 9) nextPage) (o + 17) nextSlot) with hnew
  have hslice : ∀ off n, off + n ≤ 24 ∨ 28 ≤ off → off + n ≤ o + 9 ∨ o + 21 ≤ off →
      slice new off n = slice img off n := fun off n hcrc h => by
    rw [hnew, slice_updateChecksum hcrc, writeU32, slice_patch_of_disjoint, writeU64,
      slice_patch_of_disjoint]
    · rw [length_leBytes]
      omega
    · rw [length_leBytes]
      omega
  have hheader : slice new 0 24 = slice img 0 24 :=
    hslice _ _ (.inl (by decide)) (.inl (by unfold headerLen at *; omega))
  have hcount : slotCount new = slotCount img := by
    rw [slotCount, number, slice_agree hheader (by decide), ← number, slotCount]
  have hslots : ∀ s, slotOff new s = slotOff img s := fun s => by
    by_cases hs : s < slotCount img
    · have hbelow : headerLen + s * slotLen + slotLen ≤ o := by
        unfold headerLen slotLen at *
        omega
      have hat : ∀ off, headerLen + s * slotLen ≤ off →
          off + 4 ≤ headerLen + s * slotLen + slotLen → number new off 4 = number img off 4 :=
        fun off hlo hhi => by
          rw [number, hslice off 4 (.inr (by unfold headerLen at *; omega)) (.inl (by omega)), number]
      have hslotLen : slotLen = 8 := rfl
      exact slotOff_congr hcount (hat _ (by omega) (by omega)) (hat _ (by omega) (by omega))
    · rw [slotOff, slotOff, if_pos (by omega), if_pos (by omega)]
  have hlayout : Layout id new :=
    hl.mono hheader (checksum_updateChecksum _) fun hs _ => hslots _ ▸ hs
  have hdata : 28 ≤ o := by
    unfold headerLen at *
    omega
  refine ⟨hlayout, ?_, fun s hs => ?_⟩
  · have hold : slice (writeU64 img (o + 9) nextPage) o record.length =
        record.take 9 ++ leBytes 8 nextPage ++ record.drop 17 := by
      rw [writeU64, slice_patch_inside (by omega) (by rw [length_leBytes]; omega), hrecord,
        length_leBytes, Nat.add_sub_cancel_left]
    rw [hlayout.get_eq, hslots, hk, Option.bind_some, if_neg (by omega), hnew,
      slice_updateChecksum (.inr hdata), writeU32,
      slice_patch_inside (by omega) (by rw [length_leBytes]; omega), hold, length_leBytes,
      Nat.add_sub_cancel_left, take_drop_withNext hlen (length_leBytes ..)]
    rfl
  · refine hl.get_congr hlayout (hslots s) fun {o' l'} hslot hne => ?_
    have hin' := hl.inside hslot hne
    have hap := hl.apart hs hslot hk hne hused
    exact hslice o' l' (.inr (by unfold headerLen at *; omega)) (by omega)

end

/-! ## Fresh pages -/

section
variable {id : PageId}

/-- The header of a fresh page before its checksum. -/
theorem create_number {w : Nat} (h : off + w ≤ 24) :
    number (create id).img off w =
      number (writeU32 (writeU32 (writeU64 (writeU32 (patch (fun _ => 0) 0 pageMagic) 4
        pageFormatVersion) 8 id) 16 0) 20 pageSize) off w := by
  rw [create, number_updateChecksum (.inl h)]

theorem slotCount_create : slotCount (create id).img = 0 := by
  rw [slotCount, create_number (by decide), writeU32, number_patch_of_disjoint (.inl (by decide)),
    writeU32, number_patch_self (by decide)]

theorem dataStart_create : dataStart (create id).img = pageSize := by
  rw [dataStart, create_number (by decide), writeU32, number_patch_self (by decide)]

theorem slotOff_create (s : Nat) : slotOff (create id).img s = none := by
  rw [slotOff, if_pos (by rw [slotCount_create]; omega)]

/-- The first record of a page is in its first slot. -/
theorem insert_create {data : Bytes} {k : Nat}
    (h : Page.insert (create id).img data = some (img, k)) : k = 0 := by
  have hfree : freeSlot? (create id).img = none := by
    rw [freeSlot?, slotCount_create]
    rfl
  rw [Page.insert, hfree] at h
  split at h
  · cases h
  · cases h
    exact slotCount_create

theorem layout_create (h : id < 2 ^ 64) : Layout id (create id).img := by
  refine ⟨?_, ?_, ?_, checksum_updateChecksum _, ?_, ?_, ?_, ?_⟩
  · rw [create, slice_updateChecksum (.inl (by decide)), writeU32,
      slice_patch_of_disjoint (.inl (by decide)), writeU32,
      slice_patch_of_disjoint (.inl (by decide)), writeU64,
      slice_patch_of_disjoint (.inl (by decide)), writeU32,
      slice_patch_of_disjoint (.inl (by decide))]
    exact slice_patch_self _ 0 pageMagic
  · rw [create_number (by decide), writeU32, number_patch_of_disjoint (.inl (by decide)), writeU32,
      number_patch_of_disjoint (.inl (by decide)), writeU64,
      number_patch_of_disjoint (.inl (by decide)), writeU32, number_patch_self (by decide)]
  · rw [create_number (by decide), writeU32, number_patch_of_disjoint (.inl (by decide)), writeU32,
      number_patch_of_disjoint (.inl (by decide)), writeU64, number_patch_self (by simpa using h)]
  · rw [slotCount_create, dataStart_create]
    decide
  · rw [dataStart_create]
  · intro s o l hs
    rw [slotOff_create] at hs
    cases hs
  · intro s t o l o' l' _ hs
    rw [slotOff_create] at hs
    cases hs

theorem get_create (s : Nat) : get (create id).img s = none := by
  rw [get, slotOff_create]

/-- What the first record leaves of a page. -/
theorem freeSpace_insert_create {data : Bytes} {k : Nat}
    (h : Page.insert (create id).img data = some (img, k)) :
    freeSpace img = pageSize - 48 - data.length := by
  have hfree : freeSlot? (create id).img = none := by
    rw [freeSlot?, slotCount_create]
    rfl
  rw [Page.insert, hfree] at h
  split at h
  · cases h
  · cases h
    have hcount : slotCount (setSlot (writeU32 (putData (create id).img data) 16
        (slotCount (create id).img + 1)) (slotCount (create id).img)
        (dataStart (create id).img - data.length) data.length) = 1 := by
      rw [slotCount_create, slotCount, setSlot, number_updateChecksum (.inl (by decide)), writeU32,
        number_patch_of_disjoint (.inl (by decide)), writeU32,
        number_patch_of_disjoint (.inl (by decide)), writeU32, number_patch_self (by decide)]
    have hstart : dataStart (setSlot (writeU32 (putData (create id).img data) 16
        (slotCount (create id).img + 1)) (slotCount (create id).img)
        (dataStart (create id).img - data.length) data.length) = pageSize - data.length := by
      rw [slotCount_create, dataStart_create, dataStart, setSlot,
        number_updateChecksum (.inl (by decide)), writeU32,
        number_patch_of_disjoint (.inl (by decide)), writeU32,
        number_patch_of_disjoint (.inl (by decide)), writeU32,
        number_patch_of_disjoint (.inr (by rw [length_leBytes])), putData, dataStart_create, writeU32,
        number_patch_self]
      show pageSize - data.length < 256 ^ 4
      unfold pageSize
      omega
    rw [freeSpace, hcount, hstart]
    unfold headerLen slotLen
    omega

theorem freeSpace_create : freeSpace (create id).img = pageSize - 40 := by
  rw [freeSpace, slotCount_create, dataStart_create]
  rfl

end

end Page

end HenchDB.Pool
