import HenchDB.Wal.Log
import Mathlib.Data.List.Sort

/-!
# Archive segments

The archive directory holds segments of the log, numbered from 1 on.  A segment
says which generation of the log it was copied from and which offsets.
`list_segments` takes a directory only if the numbers have no gap, the offsets
of a generation have none, and every generation starts behind the header.

`Sound` describes the directories the archiver makes: segments of one generation
after the other, each behind the one before.  They are listed
(`Sound.listSegments`), and the archiver finds out where it stopped
(`Sound.scanState`).

A file is what its header and its payload say; that both have the right checksum
is left out, since a file appears whole.
-/

namespace HenchDB.Archive

def maxSegments : Nat := 2 ^ 20

def maxPayloadLen : Nat := 2 ^ 32

/-- Where the first record of a log stands, behind the header. -/
def headerLen : Nat := 8

structure SegmentMeta where
  walVersion : Nat
  generation : Nat
  index : Nat
  startOffset : Nat
  endOffset : Nat
  startTs : Nat
  endTs : Nat
deriving DecidableEq

def SegmentMeta.payloadLen (m : SegmentMeta) : Nat := m.endOffset - m.startOffset

/-- A file of the archive directory; its name is that of its generation and its index. -/
structure Segment where
  header : SegmentMeta
  payload : Bytes

/-- The name has eight digits for each number, as `parse_segment_filename` asks. -/
def Segment.named (f : Segment) : Bool :=
  f.header.generation < 2 ^ 32 && f.header.index < 2 ^ 32

/-- `{n:08x}`. -/
def hex8 (n : Nat) : String :=
  let digits := Nat.toDigits 16 n
  String.ofList (List.replicate (8 - digits.length) '0' ++ digits)

def segmentFilename (generation index : Nat) : String :=
  "wal_" ++ hex8 generation ++ "_" ++ hex8 index ++ ".hdba"

def Segment.name (f : Segment) : String := segmentFilename f.header.generation f.header.index

/-- An error of `decode_header`, as `list_segments` passes it on. -/
def Segment.badHeader (f : Segment) (msg : String) : Error :=
  .corrupted ("archive: " ++ f.name ++ ": corrupted storage: archive: " ++ msg)

/-- The checks of `decode_header` and of the file's size. -/
def Segment.check (f : Segment) : Except Error Unit :=
  if f.header.endOffset < f.header.startOffset then .error (f.badHeader "inverted offsets")
  else if maxPayloadLen < f.header.payloadLen then .error (f.badHeader "payload too large")
  else if f.header.index = 0 then .error (f.badHeader "index starts at 1")
  else if f.payload.length ≠ f.header.payloadLen then
    .error (.corrupted ("archive: " ++ f.name ++ " size mismatch"))
  else .ok ()

/-- The files that are segments, checked; `n` were collected before. -/
def collect : Nat → List Segment → Except Error (List Segment)
  | _, [] => .ok []
  | n, f :: fs =>
    if f.named then do
      f.check
      if maxSegments ≤ n then .error (.corrupted "archive: too many segments")
      else return f :: (← collect (n + 1) fs)
    else collect n fs

/-- The order of `(generation, index)`. -/
def segmentLe (f g : Segment) : Bool :=
  f.header.generation < g.header.generation ||
    (f.header.generation = g.header.generation && f.header.index ≤ g.header.index)

def checkNext (prev next : SegmentMeta) : Except Error Unit :=
  if next.index ≠ prev.index + 1 then
    .error (.corrupted ("archive: missing segment between index " ++ toString prev.index ++
      " and " ++ toString next.index))
  else if next.generation = prev.generation then
    if next.startOffset ≠ prev.endOffset then
      .error (.corrupted ("archive: offset gap in generation " ++ toString next.generation))
    else .ok ()
  else if next.generation ≤ prev.generation then
    .error (.corrupted "archive: generation went backwards")
  else if next.startOffset ≠ headerLen then
    .error (.corrupted ("archive: generation " ++ toString next.generation ++
      " must start at offset 8"))
  else .ok ()

/-- The loop over neighbours. -/
def checkOrder : List Segment → Except Error Unit
  | f :: g :: fs => do
    checkNext f.header g.header
    checkOrder (g :: fs)
  | _ => .ok ()

def listSegments (dir : List Segment) : Except Error (List Segment) := do
  let out := (← collect 0 dir).insertionSort (fun f g => segmentLe f g = true)
  checkOrder out
  return out

/-- The next index and the offset to go on from, of listed segments. -/
def resumeState (segs : List Segment) (generation : Nat) : Nat × Nat :=
  segs.foldl (fun state f =>
    (max state.1 (f.header.index + 1),
      if f.header.generation = generation then max state.2 f.header.endOffset else state.2))
    (1, headerLen)

def scanState (dir : List Segment) (generation : Nat) : Except Error (Nat × Nat) := do
  return resumeState (← listSegments dir) generation

/-- `write_segment`: a file of that name is taken if its header and its size are the
same. -/
def writeSegment (dir : List Segment) (f : Segment) : Except Error (List Segment) :=
  if f.payload.length ≠ f.header.payloadLen then
    .error (.corrupted "archive: payload/offset mismatch")
  else
    match dir.find? (fun old => old.header.generation = f.header.generation ∧
        old.header.index = f.header.index) with
    | some old =>
      if old.check.isOk ∧ old.header = f.header then .ok dir
      else .error (.corrupted ("archive: conflicting segment file " ++ f.name))
    | none => .ok (dir ++ [f])

/-! ## Sound directories -/

/-- A segment that `list_segments` takes. -/
structure Fits (f : Segment) : Prop where
  named : f.named = true
  short : f.header.payloadLen ≤ maxPayloadLen
  sized : f.payload.length = f.header.payloadLen

/-- Segments of generations up to `generation`, of which those of the last end at
`resume`. -/
inductive Sound : List Segment → Nat → Nat → Prop
  | empty (generation : Nat) : Sound [] generation headerLen
  | later {dir generation resume generation'} : Sound dir generation resume →
      generation < generation' → Sound dir generation' headerLen
  | snoc {dir generation resume} {f : Segment} : Sound dir generation resume → Fits f →
      f.header.generation = generation → f.header.index = dir.length + 1 →
      f.header.startOffset = resume → resume < f.header.endOffset →
      Sound (dir ++ [f]) generation f.header.endOffset

section
variable {dir : List Segment} {generation resume : Nat} {f : Segment}

theorem Sound.fits (h : Sound dir generation resume) : ∀ f ∈ dir,
    Fits f ∧ f.header.startOffset ≤ f.header.endOffset ∧ f.header.index ≠ 0 ∧
      f.header.index ≤ dir.length ∧ f.header.generation ≤ generation := by
  induction h with
  | empty => simp
  | later _ hlt ih =>
    intro f hf
    obtain ⟨hfits, hle, h0, hindex, hgen⟩ := ih f hf
    exact ⟨hfits, hle, h0, hindex, by omega⟩
  | snoc _ hfits hgen hindex hstart hlt ih =>
    intro f hf
    rw [List.length_append, List.length_singleton]
    rcases List.mem_append.mp hf with hf | hf
    · obtain ⟨hfits, hle, h0, hindex, hgen⟩ := ih f hf
      exact ⟨hfits, hle, h0, by omega, hgen⟩
    · rw [List.mem_singleton.mp hf]
      exact ⟨hfits, by omega, by omega, by omega, by omega⟩

theorem Fits.check (h : Fits f) (hle : f.header.startOffset ≤ f.header.endOffset)
    (h0 : f.header.index ≠ 0) : f.check = .ok () := by
  rw [Segment.check, if_neg (by omega), if_neg (by have := h.short; omega), if_neg h0,
    if_neg (not_not_intro h.sized)]

theorem collect_eq : ∀ {n : Nat} {dir : List Segment},
    (∀ f ∈ dir, f.named = true ∧ f.check = .ok ()) → n + dir.length ≤ maxSegments →
    collect n dir = .ok dir
  | _, [], _, _ => rfl
  | n, f :: dir, hall, hlen => by
    obtain ⟨hnamed, hcheck⟩ := hall f List.mem_cons_self
    rw [List.length_cons] at hlen
    rw [collect, if_pos hnamed, hcheck, collect_eq (fun g hg => hall g (List.mem_cons_of_mem f hg))
      (by omega)]
    simp only [bind, Except.bind, if_neg (show ¬ maxSegments ≤ n by omega)]
    rfl

theorem Sound.sorted (h : Sound dir generation resume) :
    dir.Pairwise fun f g => segmentLe f g = true := by
  induction h with
  | empty => exact List.Pairwise.nil
  | later _ _ ih => exact ih
  | snoc hsound _ hgen hindex _ _ ih =>
    refine List.pairwise_append.mpr ⟨ih, List.pairwise_singleton _ _, fun a ha b hb => ?_⟩
    obtain ⟨-, -, -, ha1, ha2⟩ := hsound.fits a ha
    rw [List.mem_singleton.mp hb, segmentLe]
    simp only [Bool.or_eq_true, Bool.and_eq_true, decide_eq_true_eq]
    omega

theorem checkOrder_append : ∀ {dir : List Segment} {f : Segment}, checkOrder dir = .ok () →
    (∀ last ∈ dir.getLast?, checkNext last.header f.header = .ok ()) →
    checkOrder (dir ++ [f]) = .ok ()
  | [], _, _, _ => rfl
  | [g], f, _, hlast => by
    rw [List.singleton_append, checkOrder, hlast g rfl]
    rfl
  | g :: g' :: dir, f, hdir, hlast => by
    rw [checkOrder] at hdir
    cases hnext : checkNext g.header g'.header with
    | error e =>
      rw [hnext] at hdir
      cases hdir
    | ok u =>
      rw [hnext] at hdir
      have htail : checkOrder ((g' :: dir) ++ [f]) = .ok () :=
        checkOrder_append hdir fun last hl => hlast last (by rw [List.getLast?_cons_cons]; exact hl)
      rw [List.cons_append, List.cons_append, checkOrder, hnext]
      exact htail

/-- The last segment has the last index, and ends where the archiver goes on in its
generation. -/
theorem Sound.last (h : Sound dir generation resume) : ∀ f ∈ dir.getLast?,
    f.header.index = dir.length ∧
      (f.header.generation = generation ∧ resume = f.header.endOffset ∨
        f.header.generation < generation ∧ resume = headerLen) := by
  induction h with
  | empty =>
    intro f hf
    cases hf
  | later _ hlt ih =>
    intro f hf
    obtain ⟨hindex, ⟨hgen, -⟩ | ⟨hgen, -⟩⟩ := ih f hf
    · exact ⟨hindex, .inr ⟨by omega, rfl⟩⟩
    · exact ⟨hindex, .inr ⟨by omega, rfl⟩⟩
  | snoc _ _ hgen hindex _ _ _ =>
    intro f hf
    rw [List.getLast?_concat] at hf
    cases hf
    exact ⟨by rw [hindex, List.length_append, List.length_singleton], .inl ⟨hgen, rfl⟩⟩

theorem Sound.checkOrder (h : Sound dir generation resume) : checkOrder dir = .ok () := by
  induction h with
  | empty => rfl
  | later _ _ ih => exact ih
  | snoc hsound _ hgen hindex hstart _ ih =>
    refine checkOrder_append ih fun last hl => ?_
    obtain ⟨hlast, ⟨hgen', hend⟩ | ⟨hgen', hend⟩⟩ := hsound.last last hl
    · rw [checkNext, if_neg (by omega), if_pos (by omega), if_neg (by omega)]
    · rw [checkNext, if_neg (by omega), if_neg (by omega), if_neg (by omega), if_neg (by omega)]

/-- A sound directory within the limits is listed as it was written. -/
theorem Sound.listSegments (h : Sound dir generation resume) (hlen : dir.length ≤ maxSegments) :
    listSegments dir = .ok dir := by
  have hcollect : collect 0 dir = .ok dir := by
    refine collect_eq (fun f hf => ?_) (by omega)
    obtain ⟨hfits, hle, h0, -⟩ := h.fits f hf
    exact ⟨hfits.named, hfits.check hle h0⟩
  rw [Archive.listSegments, hcollect]
  simp only [bind, Except.bind]
  rw [h.sorted.insertionSort_eq, h.checkOrder]
  rfl

theorem resumeState_append (generation : Nat) : resumeState (dir ++ [f]) generation =
    (max (resumeState dir generation).1 (f.header.index + 1),
      if f.header.generation = generation then
        max (resumeState dir generation).2 f.header.endOffset
      else (resumeState dir generation).2) := by
  rw [resumeState, List.foldl_append]
  rfl

theorem Sound.resumeState_later (h : Sound dir generation resume) {later : Nat}
    (hlt : generation < later) : resumeState dir later = (dir.length + 1, headerLen) := by
  induction h with
  | empty => rfl
  | later _ hlt' ih => exact ih (by omega)
  | snoc _ _ hgen hindex _ _ ih =>
    rw [resumeState_append, ih hlt, if_neg (by omega), hindex, List.length_append,
      List.length_singleton, Nat.max_eq_right (by omega)]

/-- The archiver goes on behind its last segment. -/
theorem Sound.resumeState (h : Sound dir generation resume) :
    resumeState dir generation = (dir.length + 1, resume) := by
  induction h with
  | empty => rfl
  | later hsound hlt _ => exact hsound.resumeState_later hlt
  | snoc _ _ hgen hindex _ hend ih =>
    rw [resumeState_append, ih, if_pos hgen, hindex, List.length_append, List.length_singleton,
      Nat.max_eq_right (by omega), Nat.max_eq_right (by omega)]

theorem Sound.scanState (h : Sound dir generation resume) (hlen : dir.length ≤ maxSegments) :
    scanState dir generation = .ok (dir.length + 1, resume) := by
  rw [Archive.scanState, h.listSegments hlen]
  show Except.ok (Archive.resumeState dir generation) = _
  rw [h.resumeState]

/-- The next segment of a sound directory is written. -/
theorem Sound.writeSegment (h : Sound dir generation resume) (hsized : f.payload.length =
    f.header.payloadLen) (hindex : f.header.index = dir.length + 1) :
    writeSegment dir f = .ok (dir ++ [f]) := by
  have hnone : dir.find? (fun old => old.header.generation = f.header.generation ∧
      old.header.index = f.header.index) = none := by
    refine List.find?_eq_none.mpr fun old hold => ?_
    obtain ⟨-, -, -, hle, -⟩ := h.fits old hold
    simp only [decide_eq_true_eq]
    omega
  rw [Archive.writeSegment, if_neg (not_not_intro hsized), hnone]

end

end HenchDB.Archive
