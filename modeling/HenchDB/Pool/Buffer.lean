import HenchDB.Lib.Program
import HenchDB.Pool.Page

/-!
# The buffer pool

Wide rows are kept off the tree as records of slotted pages; a value larger than
a page is a chain of fragments.  The pool holds some pages in frames and writes
every change through to the page file, whose reads and writes succeed here.
Freed slots wait in quarantine until no reader can need them, and on a page that
is not resident until it is read again (`pendingFree`).

Left open are the order in which a `HashMap` is visited (`HashOrder`) and the
epoch the manager is in.  The counters of `stats` are left out.
-/

namespace HenchDB.Pool

open Codec Codec.Image Program

/-- `MAX_VALUE_LEN` of `page.rs`. -/
def maxValueLen : Nat := 64 * 1024 * 1024

def fragSingleOverhead : Nat := 9

def fragChainOverhead : Nat := 21

def maxFragPayload : Nat := pageSize - headerLen - 2 * slotLen - fragChainOverhead

def maxChainFrags : Nat := 4096

/-! ## The page file -/

def superblockImage (nextId : PageId) : Image :=
  let img : Image := patch (fun _ => 0) 0 pageMagic
  let img := writeU32 img 4 pageFormatVersion
  let img := writeU64 img 8 0
  updateChecksum (writeU64 img headerLen nextId)

/-- `PageFile`: the images by their page ids. -/
structure PageFile where
  pages : PageId → Option Image
  nextId : PageId

namespace PageFile

def allocPage (file : PageFile) : Except Error (PageId × PageFile) :=
  let id := file.nextId
  if id = 2 ^ 64 - 1 then .error (.io "page file exhausted")
  else
    let pages := Function.update file.pages 0 (some (superblockImage (id + 1)))
    .ok (id, { pages := Function.update pages id (some (Page.create id).img), nextId := id + 1 })

def readPage (file : PageFile) (id : PageId) : Except Error Page :=
  if id = 0 ∨ file.nextId ≤ id then .error (.corrupted "page: id out of range")
  else
    match file.pages id with
    | none => .error (.corrupted "page: short read")
    | some img => Page.fromImage id img

def writePage (file : PageFile) (page : Page) : Except Error PageFile :=
  if page.id = 0 ∨ file.nextId ≤ page.id then .error (.corrupted "page: id out of range")
  else .ok { file with pages := Function.update file.pages page.id (some page.img) }

end PageFile

/-! ## State -/

abbrev Frag := PageId × Nat

structure Frame where
  page : Option PageId
  image : Option Page
  cooling : Bool

def Frame.unused : Frame := ⟨none, none, false⟩

structure Quarantined where
  frags : List Frag
  epoch : Nat

structure Inner where
  file : PageFile
  frames : List Frame
  index : PageId → Option Nat
  /-- Frames to be evicted, oldest first. -/
  cooling : List Nat
  quarantine : List Quarantined
  pendingFree : PageId → List Nat
  freeMap : List (PageId × Nat)
  rng : UInt64

/-- `BufferPool::open` on a page file. -/
def Inner.opened (file : PageFile) (frames : Nat) : Inner where
  file := file
  frames := List.replicate frames .unused
  index := fun _ => none
  cooling := []
  quarantine := []
  pendingFree := fun _ => []
  freeMap := []
  rng := 0x9E3779B97F4A7C15

structure HashOrder where
  visit : List (PageId × Nat) → List (PageId × Nat)
  perm : ∀ l, (visit l).Perm l

/-- `HashMap::insert`. -/
def putFree (map : List (PageId × Nat)) (page : PageId) (free : Nat) : List (PageId × Nat) :=
  (page, free) :: map.filter fun entry => entry.1 ≠ page

abbrev PoolM := Prog Inner Fault

def lift {α : Type} : Except Error α → PoolM α
  | .ok a => pure a
  | .error e => throw (.err e)

/-- `unwrap`, `expect` and indexing. -/
def unwrap {α : Type} : Option α → PoolM α
  | some a => pure a
  | none => throw .panic

/-! ## Frames -/

/-- `frames[f]`. -/
def frame (f : Nat) : PoolM Frame := do unwrap (← get).frames[f]?

def setFrame (f : Nat) (fr : Frame) : PoolM Unit :=
  modify fun s => { s with frames := s.frames.set f fr }

/-- `frames[f].image.as_mut().unwrap()`. -/
def image (f : Nat) : PoolM Page := do unwrap (← frame f).image

/-- The page in a frame replaced by a changed one. -/
def setImage (f : Nat) (page : Page) : PoolM Unit := do
  setFrame f { ← frame f with image := some page }

def setFree (page : PageId) (free : Nat) : PoolM Unit :=
  modify fun s => { s with freeMap := putFree s.freeMap page free }

/-- `file.write_page(img)?`. -/
def writePage (page : Page) : PoolM Unit := do
  let file ← lift ((← get).file.writePage page)
  modify fun s => { s with file := file }

/-- `let _ = file.write_page(img)`. -/
def tryWritePage (page : Page) : PoolM Unit :=
  modify fun s => { s with file := (s.file.writePage page).toOption.getD s.file }

/-- One step of the generator. -/
def nextRng (rng : UInt64) : UInt64 :=
  let rng := rng ^^^ (rng <<< 13)
  let rng := rng ^^^ (rng >>> 7)
  rng ^^^ (rng <<< 17)

def nextRand : PoolM Nat := do
  let s ← get
  modify fun s => { s with rng := nextRng s.rng }
  if s.frames.length = 0 then throw .panic
  else return (nextRng s.rng).toNat % s.frames.length

def dropFrame (f : Nat) : PoolM Unit := do
  match (← frame f).page with
  | some p => modify fun s => { s with index := Function.update s.index p none }
  | none => pure ()
  setFrame f .unused

/-- `cooling.pop_front().unwrap()`, dropped. -/
def dropCooling : PoolM Nat := do
  match (← get).cooling with
  | [] => throw .panic
  | f :: rest =>
    modify fun s => { s with cooling := rest }
    dropFrame f
    return f

/-- `frames[v].cooling = true; cooling.push_back(v)`. -/
def cool (v : Nat) : PoolM Unit := do
  setFrame v { ← frame v with cooling := true }
  modify fun s => { s with cooling := s.cooling ++ [v] }

def victimFrame : PoolM Nat := do
  let s ← get
  match s.frames.findIdx? (fun fr => fr.page.isNone) with
  | some i => return i
  | none =>
    if s.cooling.isEmpty then
      cool (← nextRand)
    dropCooling

/-- The samples of `maybe_cool`. -/
def sampleCool : Nat → PoolM Unit
  | 0 => pure ()
  | n + 1 => do
    let v ← nextRand
    let fr ← frame v
    if fr.page.isSome && !fr.cooling then cool v else sampleCool n

def maybeCool : PoolM Unit := do
  let s ← get
  if s.cooling.length < s.frames.length then sampleCool 4

/-- The slots freed on the image of a page, and whether one was. -/
def freePending (img : Image) : List Nat → Image × Bool
  | [] => (img, false)
  | s :: slots =>
    match Page.freeSlot img s with
    | some img' => ((freePending img' slots).1, true)
    | none => freePending img slots

def writeDirty (dirty : Bool) (page : Page) : PoolM Unit :=
  if dirty then writePage page else pure ()

/-- The rest of `fix_page` once the page is read: its waiting slots are freed, and
it goes into frame `f`. -/
def install (f : Nat) (page : PageId) (read : Page) : PoolM Unit := do
  let (img, dirty) := freePending read.img ((← get).pendingFree page)
  modify fun s => { s with pendingFree := Function.update s.pendingFree page [] }
  writeDirty dirty { read with img := img }
  setFree page (Page.freeSpace img)
  setFrame f ⟨some page, some { read with img := img }, false⟩
  modify fun s => { s with index := Function.update s.index page (some f) }

def reheat (f : Nat) (fr : Frame) : PoolM Unit :=
  if fr.cooling then do
    setFrame f { fr with cooling := false }
    modify fun s => { s with cooling := s.cooling.filter fun x => x ≠ f }
  else pure ()

def fixPage (page : PageId) : PoolM Nat := do
  match (← get).index page with
  | some f =>
    reheat f (← frame f)
    return f
  | none =>
    let f ← victimFrame
    let read ← lift ((← get).file.readPage page)
    install f page read
    return f

/-! ## Freed slots -/

/-- A slot past its horizon is freed, or on the next fault of its page. -/
def release (x : Frag) : PoolM Unit := do
  match (← get).index x.1 with
  | some f =>
    let page ← image f
    match Page.freeSlot page.img x.2 with
    | some img =>
      setImage f { page with img := img }
      setFree x.1 (Page.freeSpace img)
      tryWritePage { page with img := img }
    | none => pure ()
  | none =>
    modify fun s =>
      { s with pendingFree := Function.update s.pendingFree x.1 (s.pendingFree x.1 ++ [x.2]) }

/-- `reclaim_quarantine` in the epoch `current`. -/
def reclaimQuarantine (current : Nat) : PoolM Unit := do
  let s ← get
  let past := s.quarantine.filter fun q => q.epoch + 1 < current
  modify fun s => { s with quarantine := s.quarantine.filter fun q => ¬ q.epoch + 1 < current }
  (past.flatMap Quarantined.frags).forM release

/-! ## Storing -/

/-- The page with the least free space that is enough. -/
def bestFit (need : Nat) (map : List (PageId × Nat)) : Option (PageId × Nat) :=
  map.foldl (fun best entry =>
    if need ≤ entry.2 ∧ entry.2 < (best.elim (2 ^ 64 - 1) Prod.snd) then some entry else best) none

/-- The fragment put on a page that has room for it; `none` if it has not. -/
def insertOn (page : PageId) (frag : Bytes) : PoolM (Option Frag) := do
  let f ← fixPage page
  let resident ← image f
  match Page.insert resident.img frag with
  | some (img, slot) =>
    setImage f { resident with img := img }
    writePage { resident with img := img }
    setFree resident.id (Page.freeSpace img)
    return some (resident.id, slot)
  | none =>
    setFree page (Page.freeSpace resident.img)
    return none

def insertFresh (frag : Bytes) : PoolM Frag := do
  let (id, file) ← lift (← get).file.allocPage
  modify fun s => { s with file := file }
  let f ← victimFrame
  let (img, slot) ← unwrap (Page.insert (Page.create id).img frag)
  setFree id (Page.freeSpace img)
  writePage ⟨id, img⟩
  setFrame f ⟨some id, some ⟨id, img⟩, false⟩
  modify fun s => { s with index := Function.update s.index id (some f) }
  maybeCool
  return (id, slot)

def insertFrag (order : HashOrder) (frag : Bytes) : PoolM Frag := do
  match bestFit (frag.length + slotLen) (order.visit (← get).freeMap) with
  | some (page, _) =>
    match ← insertOn page frag with
    | some x => return x
    | none => insertFresh frag
  | none => insertFresh frag

/-- The record of a fragment; the next fragment of a chained one is patched in
later. -/
def fragRecord (total : Nat) (chained : Bool) (chunk : Bytes) : Bytes :=
  (if chained then [1] else [0]) ++ leBytes 8 total ++
    ((if chained then leBytes 8 0 ++ leBytes 4 0 else []) ++ chunk)

/-- The next fragment of `x` becomes `next`. -/
def patchPrevious (x next : Frag) : PoolM Unit := do
  let f ← fixPage x.1
  let page ← image f
  match Page.patchNext page.img x.2 next.1 next.2 with
  | none => throw (.err (.corrupted "overflow: chain slot lost"))
  | some img =>
    setImage f { page with img := img }
    tryWritePage { page with img := img }

/-- A fragment of a chain that failed is freed if its page is resident. -/
def rollbackFrag (x : Frag) : PoolM Unit := do
  match (← get).index x.1 with
  | some f =>
    let page ← image f
    let img := (Page.freeSlot page.img x.2).getD page.img
    setImage f { page with img := img }
    tryWritePage { page with img := img }
  | none => pure ()

def rollback (frags : List Frag) : PoolM Unit := frags.forM rollbackFrag

/-- A store that fails rolls back first; a panic does not. -/
def abandon (alloced : List Frag) : Fault → PoolM Frag
  | .panic => throw .panic
  | .err e => do
    rollback alloced
    throw (.err e)

/-- The value cut into payloads of fragments. -/
def chunks (data : Bytes) : List Bytes :=
  if data.length ≤ maxFragPayload then [data]
  else data.take maxFragPayload :: chunks (data.drop maxFragPayload)
termination_by data.length
decreasing_by
  simp only [List.length_drop]
  have : 0 < maxFragPayload := by decide
  omega

/-- The loop of `store`: `alloced` are the fragments so far. -/
def storeFrags (order : HashOrder) (total : Nat) : List Bytes → List Frag → PoolM (List Frag)
  | [], alloced => return alloced
  | chunk :: rest, alloced => do
    let x ← tryCatch (insertFrag order (fragRecord total (!rest.isEmpty) chunk))
      (abandon alloced)
    alloced.getLast?.forM fun prev => patchPrevious prev x
    storeFrags order total rest (alloced ++ [x])

def store (order : HashOrder) (current : Nat) (data : Bytes) : PoolM Frag := do
  if data.length = 0 then throw (.err (.io "cannot page empty value"))
  else if maxValueLen < data.length then throw (.err (.io "overflow value too large"))
  else
    reclaimQuarantine current
    let frags ← storeFrags order data.length (chunks data) []
    unwrap frags.head?

/-! ## Loading -/

def nextFrag (record : Bytes) : Frag :=
  (leValue ((record.drop 9).take 8), leValue ((record.drop 17).take 4))

/-- What `load` takes from a record: the length of the value, the next fragment if
there is one, and the payload. -/
def readFrag (record : Bytes) (total : Option Nat) : Except Error (Nat × Option Frag × Bytes) :=
  let flags := record.headD 0
  let t := leValue ((record.drop 1).take 8)
  if record.length < fragSingleOverhead then .error (.corrupted "overflow: short fragment")
  else if 1 < flags then .error (.corrupted "overflow: bad flags")
  else if total.any (· ≠ t) then .error (.corrupted "overflow: total mismatch")
  else if maxValueLen < t then .error (.corrupted "overflow: total too large")
  else if flags = 1 then
    if record.length < fragChainOverhead then .error (.corrupted "overflow: short chain head")
    else .ok (t, some (nextFrag record), record.drop fragChainOverhead)
  else .ok (t, none, record.drop fragSingleOverhead)

/-- The loop of `load`. -/
def loadFrom : Nat → Frag → Option Nat → Bytes → PoolM Bytes
  | 0, _, _, _ => throw (.err (.corrupted "overflow chain too long"))
  | n + 1, x, total, out => do
    let f ← fixPage x.1
    let page ← image f
    let record ← lift ((Page.get page.img x.2).elim (.error (.corrupted "overflow: bad slot")) .ok)
    let (t, next, payload) ← lift (readFrag record total)
    match next with
    | some y => loadFrom n y (some t) (out ++ payload)
    | none =>
      if (out ++ payload).length ≠ t then throw (.err (.corrupted "overflow: length mismatch"))
      else return out ++ payload

def load (current : Nat) (x : Frag) : PoolM Bytes := do
  reclaimQuarantine current
  loadFrom maxChainFrags x none []

/-! ## Freeing -/

def residentNext (x : Frag) : PoolM (Option Frag) := do
  match (← get).index x.1 with
  | none => return none
  | some f =>
    match Page.get (← image f).img x.2 with
    | none => return none
    | some record =>
      if record.headD 0 = 1 ∧ fragChainOverhead ≤ record.length then
        return some (nextFrag record)
      else return none

/-- The chain behind a fragment, as far as its pages are resident. -/
def chainFrom : Nat → Frag → PoolM (List Frag)
  | 0, _ => return []
  | n + 1, x => do
    match ← residentNext x with
    | none => return []
    | some next => return next :: (← chainFrom n next)

/-- The order of `sort_unstable`. -/
def fragLe (x y : Frag) : Bool := x.1 < y.1 || (x.1 = y.1 && x.2 ≤ y.2)

/-- `free` in the epoch `epoch`. -/
def free (epoch : Nat) (x : Frag) : PoolM Unit := do
  let frags := x :: (← chainFrom maxChainFrags x)
  modify fun s =>
    { s with quarantine := s.quarantine ++ [⟨(frags.mergeSort fragLe).dedup, epoch⟩] }

end HenchDB.Pool
