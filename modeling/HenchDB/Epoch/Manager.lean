import Mathlib.Tactic
import HenchDB.Lib.Transition

/-!
# Epoch-based reclamation

Threads pin the epoch they enter in a slot that all their guards share, retire
objects under the epoch of the moment, and reclaim the objects that every slot
has passed.  Each atomic access is a step of its own: between the load of the
epoch and the store of the slot, or between two slots of a scan, the other
threads go on.  `try_reclaim` holds the lock of the participants throughout, so
there is one at a time and no thread registers meanwhile.

A slot is `none` while it holds `INACTIVE_EPOCH`.  The threads of a run do not
end, so no participant is removed.
-/

namespace HenchDB.Epoch

structure Guard where
  /-- Ghost: no two guards have the same. -/
  id : Nat
  /-- What the slot held before. -/
  prev : Option Nat
deriving DecidableEq, Repr

structure Retired where
  object : Nat
  epoch : Nat
  /-- Ghost: the guards that were alive when the object was retired. -/
  heldBy : List Nat
deriving DecidableEq, Repr

/-- What a thread is in the middle of. -/
inductive Doing where
  | idle
  /-- `pin` has read the epoch. -/
  | pinning (epoch : Nat)
  /-- `retire` has read the epoch. -/
  | retiring (item : Retired)
deriving DecidableEq, Repr

/-- A thread, with the `active_epoch` of its participant. -/
structure Thread where
  slot : Option Nat
  guards : List Guard
  doing : Doing
deriving DecidableEq, Repr

/-- Where the one running `try_reclaim` stands. -/
inductive Reclaim where
  | idle
  /-- These participants are still to be looked at. -/
  | scanning (currentGlobal : Nat) (todo : List Nat) (minActive : Option Nat) (allCaughtUp : Bool)
  /-- The queue is about to be swept. -/
  | sweeping (horizon : Nat)
deriving DecidableEq, Repr

/-- `EpochManager`, and the threads that use it. -/
structure Manager where
  globalEpoch : Nat
  participants : List Nat
  thread : Nat → Thread
  retired : List Retired
  reclaim : Reclaim
  /-- Ghost: the objects that were dropped. -/
  reclaimed : List Retired
  nextGuard : Nat

namespace Manager

def new : Manager where
  globalEpoch := 1
  participants := []
  thread := fun _ => { slot := none, guards := [], doing := .idle }
  retired := []
  reclaim := .idle
  reclaimed := []
  nextGuard := 0

def setThread (s : Manager) (t : Nat) (th : Thread) : Manager :=
  { s with thread := Function.update s.thread t th }

/-- The guards that are alive. -/
def guardIds (s : Manager) : List Nat :=
  s.participants.flatMap fun t => (s.thread t).guards.map Guard.id

/-- `register_thread`, which waits for the lock of the participants. -/
def register (t : Nat) (s : Manager) : Option Manager :=
  if s.reclaim = .idle ∧ t ∉ s.participants then
    some { s with participants := s.participants ++ [t] }
  else none

/-- `pin` reads the epoch. -/
def pinLoad (t : Nat) (s : Manager) : Option Manager :=
  if t ∈ s.participants ∧ (s.thread t).doing = .idle then
    some (s.setThread t { s.thread t with doing := .pinning s.globalEpoch })
  else none

/-- `pin` swaps the slot and returns its guard. -/
def pinSwap (t : Nat) (s : Manager) : Option Manager :=
  match (s.thread t).doing with
  | .pinning epoch =>
    some { s.setThread t
      { slot := some epoch
        guards := { id := s.nextGuard, prev := (s.thread t).slot } :: (s.thread t).guards
        doing := .idle } with nextGuard := s.nextGuard + 1 }
  | _ => none

/-- `Guard::drop` of the innermost guard. -/
def dropGuard (t : Nat) (s : Manager) : Option Manager :=
  match (s.thread t).doing, (s.thread t).guards with
  | .idle, g :: guards => some (s.setThread t { slot := g.prev, guards := guards, doing := .idle })
  | _, _ => none

/-- `retire` reads the epoch. -/
def retireLoad (t object : Nat) (s : Manager) : Option Manager :=
  if (s.thread t).doing = .idle then
    some (s.setThread t { s.thread t with
      doing := .retiring { object := object, epoch := s.globalEpoch, heldBy := s.guardIds } })
  else none

/-- `retire` pushes to the queue. -/
def retirePush (t : Nat) (s : Manager) : Option Manager :=
  match (s.thread t).doing with
  | .retiring item =>
    some { s.setThread t { s.thread t with doing := .idle } with retired := s.retired ++ [item] }
  | _ => none

/-- `try_reclaim` locks the participants. -/
def beginReclaim (s : Manager) : Option Manager :=
  if s.reclaim = .idle then
    some { s with reclaim := .scanning s.globalEpoch s.participants none true }
  else none

/-- `try_reclaim` looks at one participant, or behind the last one advances the
epoch. -/
def scan (s : Manager) : Option Manager :=
  match s.reclaim with
  | .scanning currentGlobal (t :: todo) minActive allCaughtUp =>
    match (s.thread t).slot with
    | some e =>
      some { s with
        reclaim := .scanning currentGlobal todo (some (minActive.elim e fun m => min m e))
          (allCaughtUp && currentGlobal ≤ e) }
    | none => some { s with reclaim := .scanning currentGlobal todo minActive allCaughtUp }
  | .scanning currentGlobal [] minActive allCaughtUp =>
    if allCaughtUp then
      some { s with
        globalEpoch := s.globalEpoch + 1
        reclaim := .sweeping (minActive.getD (s.globalEpoch + 1)) }
    else some { s with reclaim := .sweeping (minActive.getD currentGlobal) }
  | _ => none

/-- `try_reclaim` sweeps the queue. -/
def sweep (s : Manager) : Option Manager :=
  match s.reclaim with
  | .sweeping horizon =>
    some { s with
      retired := s.retired.filter fun item => horizon ≤ item.epoch
      reclaimed := s.reclaimed ++ s.retired.filter fun item => item.epoch < horizon
      reclaim := .idle }
  | _ => none

/-- One access of a thread. -/
inductive Action where
  | register (t : Nat)
  | pinLoad (t : Nat)
  | pinSwap (t : Nat)
  | dropGuard (t : Nat)
  | retireLoad (t object : Nat)
  | retirePush (t : Nat)
  | beginReclaim
  | scan
  | sweep
deriving DecidableEq, Repr

/-- One access. -/
def next : Action → Manager → Option Manager
  | .register t => register t
  | .pinLoad t => pinLoad t
  | .pinSwap t => pinSwap t
  | .dropGuard t => dropGuard t
  | .retireLoad t object => retireLoad t object
  | .retirePush t => retirePush t
  | .beginReclaim => beginReclaim
  | .scan => scan
  | .sweep => sweep

def Step (s s' : Manager) : Prop := ∃ a, next a s = some s'

def Alive (s : Manager) (id : Nat) : Prop := ∃ t, ∃ g ∈ (s.thread t).guards, g.id = id

/-- No object is dropped while a guard it was retired under is alive. -/
def Safe (s : Manager) : Prop := ∀ item ∈ s.reclaimed, ∀ id ∈ item.heldBy, ¬ s.Alive id

end Manager

end HenchDB.Epoch
