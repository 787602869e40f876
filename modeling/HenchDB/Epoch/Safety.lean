import HenchDB.Epoch.Manager

/-!
# Objects outlive the guards they were retired under

A guard keeps an object alive through the slot of its thread: the slot must stay
at or below the epoch of the object, and no sweep may look past it.  Two things
break this.  A nested pin publishes the epoch of the moment over the slot of the
outer guard, so an object retired in between is swept while the outer guard is
alive (`nested_pin_reclaims`).  And a pin that publishes behind a scan that has
looked at its slot is missed; where the scan found no guard at all, it sweeps up
to the epoch it advances to (`missed_pin_reclaims`).

Without these two, guards are safe (`calm_guards_safe`).
-/

namespace HenchDB.Epoch

open Relation

namespace Manager

/-! ## Calm steps -/

/-- A running `try_reclaim` has looked at the slot of the thread and has found
no guard so far. -/
def Passed (s : Manager) (t : Nat) : Prop :=
  ∃ currentGlobal todo allCaughtUp,
    s.reclaim = .scanning currentGlobal todo none allCaughtUp ∧ t ∉ todo

/-- A pin publishes the epoch its thread has published already, or the first
epoch of its thread in front of the running scan. -/
def PublishOk (s : Manager) (t : Nat) : Prop :=
  match (s.thread t).doing, (s.thread t).slot with
  | .pinning epoch, some published => epoch = published
  | .pinning _, none => ¬ s.Passed t
  | _, _ => True

def CalmStep (s s' : Manager) : Prop :=
  ∃ a, next a s = some s' ∧ ∀ t, a = .pinSwap t → s.PublishOk t

/-! ## The invariant -/

/-- The guards of a thread stand in their slot: the innermost ones found the
same epoch, the outermost found none. -/
def StackOk : Option Nat → List Guard → Prop
  | slot, [] => slot = none
  | slot, g :: guards => slot.isSome ∧ (guards = [] → g.prev = none) ∧
      (guards ≠ [] → g.prev = slot) ∧ StackOk g.prev guards

/-- The object is held by a guard of the thread. -/
def Held (s : Manager) (item : Retired) (t : Nat) : Prop :=
  ∃ g ∈ (s.thread t).guards, g.id ∈ item.heldBy

/-- The objects that are retired and not dropped. -/
def Pending (s : Manager) (item : Retired) : Prop :=
  item ∈ s.retired ∨ ∃ t, (s.thread t).doing = .retiring item

/-- What a running `try_reclaim` knows of the objects that are held. -/
def ReclaimOk (s : Manager) : Prop :=
  match s.reclaim with
  | .idle => True
  | .scanning currentGlobal todo none _ =>
    currentGlobal = s.globalEpoch ∧ ∀ t, t ∉ todo → (s.thread t).slot = none
  | .scanning currentGlobal todo (some m) _ =>
    currentGlobal = s.globalEpoch ∧ m ≤ s.globalEpoch ∧
      ∀ item t, s.Pending item → s.Held item t → t ∉ todo → m ≤ item.epoch
  | .sweeping horizon =>
    horizon ≤ s.globalEpoch ∧ ∀ item t, s.Pending item → s.Held item t → horizon ≤ item.epoch

/-- What every calm step keeps. -/
structure Inv (s : Manager) : Prop where
  stack : ∀ t, StackOk (s.thread t).slot (s.thread t).guards
  known : ∀ t, (s.thread t).guards ≠ [] → t ∈ s.participants
  pinning : ∀ t epoch, (s.thread t).doing = .pinning epoch →
    t ∈ s.participants ∧ epoch ≤ s.globalEpoch
  slot : ∀ t epoch, (s.thread t).slot = some epoch → epoch ≤ s.globalEpoch
  fresh : ∀ t, ∀ g ∈ (s.thread t).guards, g.id < s.nextGuard
  freshHeld : ∀ item, s.Pending item ∨ item ∈ s.reclaimed → ∀ id ∈ item.heldBy, id < s.nextGuard
  /-- The slot of a guard does not pass the objects it holds. -/
  shielded : ∀ item t, s.Pending item → s.Held item t →
    ∃ epoch, (s.thread t).slot = some epoch ∧ epoch ≤ item.epoch
  reclaim : ReclaimOk s
  safe : s.Safe

variable {s s' : Manager} {t u object : Nat} {th : Thread} {item : Retired}

@[simp]
theorem thread_setThread_self : (s.setThread t th).thread t = th := Function.update_self ..

@[simp]
theorem thread_setThread_of_ne (h : u ≠ t) : (s.setThread t th).thread u = s.thread u :=
  Function.update_of_ne h ..

theorem slot_setDoing (s : Manager) (t u : Nat) (d : Doing) :
    ((s.setThread t { s.thread t with doing := d }).thread u).slot = (s.thread u).slot := by
  rcases eq_or_ne u t with rfl | hne
  · rw [thread_setThread_self]
  · rw [thread_setThread_of_ne hne]

theorem guards_setDoing (s : Manager) (t u : Nat) (d : Doing) :
    ((s.setThread t { s.thread t with doing := d }).thread u).guards = (s.thread u).guards := by
  rcases eq_or_ne u t with rfl | hne
  · rw [thread_setThread_self]
  · rw [thread_setThread_of_ne hne]

/-- A thread without a published epoch has no guard. -/
theorem Inv.guards_eq_nil (h : s.Inv) (hslot : (s.thread t).slot = none) :
    (s.thread t).guards = [] := by
  have hstack := h.stack t
  cases hguards : (s.thread t).guards with
  | nil => rfl
  | cons g guards =>
    rw [hguards, StackOk, hslot] at hstack
    cases hstack.1

theorem Inv.not_held (h : s.Inv) (hslot : (s.thread t).slot = none) : ¬ s.Held item t := by
  rintro ⟨g, hg, -⟩
  rw [h.guards_eq_nil hslot] at hg
  cases hg

theorem Inv.exists_slot (h : s.Inv) (hheld : s.Held item t) :
    ∃ epoch, (s.thread t).slot = some epoch :=
  Option.ne_none_iff_exists'.1 fun hslot => h.not_held hslot hheld

theorem inv_new : Inv new where
  stack := fun _ => rfl
  known := fun _ h => absurd rfl h
  pinning := by rintro _ _ ⟨⟩
  slot := by rintro _ _ ⟨⟩
  fresh := by rintro _ _ ⟨⟩
  freshHeld := by
    rintro item ((hitem | ⟨_, hitem⟩) | hitem)
    · cases hitem
    · cases hitem
    · cases hitem
  shielded := by
    rintro item t _ ⟨_, ⟨⟩, _⟩
  reclaim := trivial
  safe := by rintro _ ⟨⟩

/-- A running reclaim is not disturbed by a step that publishes nothing behind
its scan and holds only objects of the current epoch anew. -/
theorem Inv.reclaimOk (h : s.Inv) (hreclaim : s'.reclaim = s.reclaim)
    (hglobal : s'.globalEpoch = s.globalEpoch)
    (hslot : ∀ currentGlobal todo caught, s.reclaim = .scanning currentGlobal todo none caught →
      ∀ u, u ∉ todo → (s.thread u).slot = none → (s'.thread u).slot = none)
    (hheld : ∀ item u, s'.Pending item → s'.Held item u →
      s.Pending item ∧ s.Held item u ∨ s.globalEpoch ≤ item.epoch) : ReclaimOk s' := by
  have hok := h.reclaim
  unfold ReclaimOk at hok ⊢
  rw [hreclaim, hglobal]
  split at hok
  · trivial
  · next currentGlobal todo caught heq =>
    exact ⟨hok.1, fun u hu => hslot _ _ _ heq u hu (hok.2 u hu)⟩
  · refine ⟨hok.1, hok.2.1, fun item u hpending hitem hu => ?_⟩
    rcases hheld item u hpending hitem with ⟨hpending, hitem⟩ | hlate
    · exact hok.2.2 item u hpending hitem hu
    · exact hok.2.1.trans hlate
  · refine ⟨hok.1, fun item u hpending hitem => ?_⟩
    rcases hheld item u hpending hitem with ⟨hpending, hitem⟩ | hlate
    · exact hok.2 item u hpending hitem
    · exact hok.1.trans hlate

/-! ## Threads that publish nothing -/

/-- A thread does something else; its guards and slot stay. -/
theorem Inv.doing {d : Doing} (h : s.Inv)
    (hpinning : ∀ epoch, d = .pinning epoch → t ∈ s.participants ∧ epoch ≤ s.globalEpoch)
    (hretiring : ∀ item, d = .retiring item → item.epoch = s.globalEpoch ∧
      ∀ id ∈ item.heldBy, id < s.nextGuard) :
    Inv (s.setThread t { s.thread t with doing := d }) := by
  have hslot := fun u => slot_setDoing s t u d
  have hguards := fun u => guards_setDoing s t u d
  have hheld : ∀ item u, Held (s.setThread t { s.thread t with doing := d }) item u ↔
      s.Held item u := by
    intro item u
    rw [Held, hguards, Held]
  have hpending : ∀ item, Pending (s.setThread t { s.thread t with doing := d }) item →
      s.Pending item ∨ d = .retiring item := by
    rintro item (hret | ⟨u, hu⟩)
    · exact .inl (.inl hret)
    · rcases eq_or_ne u t with rfl | hne
      · rw [thread_setThread_self] at hu
        exact .inr hu
      · rw [thread_setThread_of_ne hne] at hu
        exact .inl (.inr ⟨u, hu⟩)
  refine
    { stack := fun u => by rw [hslot, hguards]; exact h.stack u
      known := fun u => by rw [hguards]; exact h.known u
      pinning := ?_
      slot := fun u epoch => by rw [hslot]; exact h.slot u epoch
      fresh := fun u => by rw [hguards]; exact h.fresh u
      freshHeld := ?_
      shielded := ?_
      reclaim := ?_
      safe := ?_ }
  · intro u epoch hu
    rcases eq_or_ne u t with rfl | hne
    · rw [thread_setThread_self] at hu
      exact hpinning epoch hu
    · rw [thread_setThread_of_ne hne] at hu
      exact h.pinning u epoch hu
  · rintro item (hitem | hitem)
    · rcases hpending item hitem with hold | hnew
      · exact h.freshHeld item (.inl hold)
      · exact (hretiring item hnew).2
    · exact h.freshHeld item (.inr hitem)
  · intro item u hitem hu
    rw [hheld] at hu
    rw [hslot]
    rcases hpending item hitem with hold | hnew
    · exact h.shielded item u hold hu
    · obtain ⟨epoch, hepoch⟩ := h.exists_slot hu
      exact ⟨epoch, hepoch, (h.slot u epoch hepoch).trans (hretiring item hnew).1.ge⟩
  · refine h.reclaimOk rfl rfl ?_ fun item u hitem hu => ?_
    · intro _ _ _ _ u _ hnone
      rw [hslot]
      exact hnone
    · rw [hheld] at hu
      rcases hpending item hitem with hold | hnew
      · exact .inl ⟨hold, hu⟩
      · exact .inr (hretiring item hnew).1.ge
  · rintro item hitem id hid ⟨u, g, hg, rfl⟩
    rw [hguards] at hg
    exact h.safe item hitem g.id hid ⟨u, g, hg, rfl⟩

theorem Inv.pinLoad (h : s.Inv) (hs : s.pinLoad t = some s') : s'.Inv := by
  unfold Manager.pinLoad at hs
  split at hs
  · next hif =>
    cases hs
    refine h.doing ?_ ?_
    · rintro epoch ⟨⟩
      exact ⟨hif.1, le_rfl⟩
    · rintro item ⟨⟩
  · cases hs

theorem Inv.guardIds_lt (h : s.Inv) : ∀ id ∈ s.guardIds, id < s.nextGuard := by
  intro id hid
  obtain ⟨u, -, hu⟩ := List.mem_flatMap.1 hid
  obtain ⟨g, hg, rfl⟩ := List.mem_map.1 hu
  exact h.fresh u g hg

theorem Inv.retireLoad (h : s.Inv) (hs : s.retireLoad t object = some s') : s'.Inv := by
  unfold Manager.retireLoad at hs
  split at hs
  · cases hs
    refine h.doing ?_ ?_
    · rintro epoch ⟨⟩
    · rintro item ⟨⟩
      exact ⟨rfl, h.guardIds_lt⟩
  · cases hs

/-- Pushing an object to the queue leaves it pending. -/
theorem Inv.retirePush (h : s.Inv) (hs : s.retirePush t = some s') : s'.Inv := by
  unfold Manager.retirePush at hs
  split at hs
  · next item hdoing =>
    cases hs
    have hidle : Inv (s.setThread t { s.thread t with doing := .idle }) := by
      refine h.doing ?_ ?_
      · rintro _ ⟨⟩
      · rintro _ ⟨⟩
    have hpending : ∀ x, Pending { s.setThread t { s.thread t with doing := .idle } with
        retired := s.retired ++ [item] } x → s.Pending x := by
      rintro x (hx | ⟨u, hu⟩)
      · rcases List.mem_append.1 hx with hold | hnew
        · exact .inl hold
        · cases List.mem_singleton.1 hnew
          exact .inr ⟨t, hdoing⟩
      · have hne : u ≠ t := by
          rintro rfl
          simp at hu
        exact .inr ⟨u, by simpa [hne] using hu⟩
    have hheld : ∀ x u, Held { s.setThread t { s.thread t with doing := .idle } with
        retired := s.retired ++ [item] } x u → s.Held x u := by
      rintro x u ⟨g, hg, hid⟩
      exact ⟨g, guards_setDoing s t u .idle ▸ hg, hid⟩
    refine
      { stack := hidle.stack
        known := hidle.known
        pinning := hidle.pinning
        slot := hidle.slot
        fresh := hidle.fresh
        freshHeld := ?_
        shielded := ?_
        reclaim := ?_
        safe := hidle.safe }
    · rintro x (hx | hx)
      · exact h.freshHeld x (.inl (hpending x hx))
      · exact h.freshHeld x (.inr hx)
    · intro x u hx hu
      obtain ⟨epoch, hslot, hle⟩ := h.shielded x u (hpending x hx) (hheld x u hu)
      exact ⟨epoch, (slot_setDoing s t u .idle).trans hslot, hle⟩
    · refine h.reclaimOk rfl rfl ?_ fun x u hx hu => .inl ⟨hpending x hx, hheld x u hu⟩
      intro _ _ _ _ u _ hnone
      exact (slot_setDoing s t u .idle).trans hnone
  · cases hs

/-! ## Registering, and reclaiming -/

theorem Inv.register (h : s.Inv) (hs : s.register t = some s') : s'.Inv := by
  unfold Manager.register at hs
  split at hs
  · next hif =>
    cases hs
    refine
      { stack := h.stack
        known := fun u hu => List.mem_append_left _ (h.known u hu)
        pinning := fun u epoch hu =>
          ⟨List.mem_append_left _ (h.pinning u epoch hu).1, (h.pinning u epoch hu).2⟩
        slot := h.slot
        fresh := h.fresh
        freshHeld := h.freshHeld
        shielded := h.shielded
        reclaim := h.reclaim
        safe := h.safe }
  · cases hs

theorem Inv.beginReclaim (h : s.Inv) (hs : s.beginReclaim = some s') : s'.Inv := by
  unfold Manager.beginReclaim at hs
  split at hs
  · cases hs
    refine
      { stack := h.stack
        known := h.known
        pinning := h.pinning
        slot := h.slot
        fresh := h.fresh
        freshHeld := h.freshHeld
        shielded := h.shielded
        reclaim := ⟨rfl, fun u hu => ?_⟩
        safe := h.safe }
    have hguards : (s.thread u).guards = [] := by_contra fun hne => hu (h.known u hne)
    have hstack := h.stack u
    rw [hguards] at hstack
    exact hstack
  · cases hs

/-- The reclaim goes on, and perhaps advances the epoch. -/
theorem Inv.rescan {global : Nat} {reclaim : Reclaim} (h : s.Inv) (hglobal : s.globalEpoch ≤ global)
    (hok : ReclaimOk { s with globalEpoch := global, reclaim := reclaim }) :
    Inv { s with globalEpoch := global, reclaim := reclaim } where
  stack := h.stack
  known := h.known
  pinning := fun u epoch hu => ⟨(h.pinning u epoch hu).1, (h.pinning u epoch hu).2.trans hglobal⟩
  slot := fun u epoch hu => (h.slot u epoch hu).trans hglobal
  fresh := h.fresh
  freshHeld := h.freshHeld
  shielded := h.shielded
  reclaim := hok
  safe := h.safe

/-- A scan that has looked at the slot of a thread knows the objects it holds. -/
theorem Inv.scan (h : s.Inv) (hs : s.scan = some s') : s'.Inv := by
  have hok := h.reclaim
  unfold Manager.scan at hs
  split at hs
  · next currentGlobal u todo minActive caught hreclaim =>
    rw [ReclaimOk, hreclaim] at hok
    split at hs
    · next e hslot =>
      cases hs
      refine h.rescan le_rfl ?_
      have hle := h.slot u e hslot
      have hshield : ∀ item, s.Pending item → s.Held item u → e ≤ item.epoch := by
        intro item hpending hheld
        obtain ⟨epoch, hepoch, hitem⟩ := h.shielded item u hpending hheld
        rw [hslot, Option.some.injEq] at hepoch
        rwa [hepoch]
      cases minActive with
      | none =>
        refine ⟨hok.1, hle, fun item v hpending hheld hv => ?_⟩
        rcases eq_or_ne v u with rfl | hne
        · exact hshield item hpending hheld
        · exact absurd hheld (h.not_held (hok.2 v (by simp [hne, hv])))
      | some m =>
        refine ⟨hok.1, (Nat.min_le_right m e).trans hle, fun item v hpending hheld hv => ?_⟩
        rcases eq_or_ne v u with rfl | hne
        · exact (Nat.min_le_right m e).trans (hshield item hpending hheld)
        · have hm := hok.2.2 item v hpending hheld (by simp [hne, hv])
          exact (Nat.min_le_left m e).trans hm
    · next hslot =>
      cases hs
      refine h.rescan le_rfl ?_
      cases minActive with
      | none =>
        refine ⟨hok.1, fun v hv => ?_⟩
        rcases eq_or_ne v u with rfl | hne
        · exact hslot
        · exact hok.2 v (by simp [hne, hv])
      | some m =>
        refine ⟨hok.1, hok.2.1, fun item v hpending hheld hv => ?_⟩
        rcases eq_or_ne v u with rfl | hne
        · exact absurd hheld (h.not_held hslot)
        · exact hok.2.2 item v hpending hheld (by simp [hne, hv])
  · next currentGlobal minActive caught hreclaim =>
    rw [ReclaimOk, hreclaim] at hok
    -- every participant was looked at
    have hswept : ∀ global, s.globalEpoch ≤ global →
        ReclaimOk { s with globalEpoch := global, reclaim := .sweeping (minActive.getD global) } := by
      intro global hglobal
      cases minActive with
      | none =>
        exact ⟨le_rfl, fun item v _ hheld => absurd hheld (h.not_held (hok.2 v (by simp)))⟩
      | some m =>
        exact ⟨hok.2.1.trans hglobal, fun item v hpending hheld =>
          hok.2.2 item v hpending hheld (by simp)⟩
    split at hs
    · cases hs
      exact h.rescan (Nat.le_succ _) (hswept _ (Nat.le_succ _))
    · cases hs
      have hcurrent : currentGlobal = s.globalEpoch := by
        cases minActive with
        | none => exact hok.1
        | some m => exact hok.1
      rw [hcurrent]
      exact h.rescan le_rfl (hswept _ le_rfl)
  · cases hs

theorem Inv.sweep (h : s.Inv) (hs : s.sweep = some s') : s'.Inv := by
  have hok := h.reclaim
  unfold Manager.sweep at hs
  split at hs
  · next horizon hreclaim =>
    cases hs
    rw [ReclaimOk, hreclaim] at hok
    have hpending : ∀ item, Pending { s with
        retired := s.retired.filter fun item => horizon ≤ item.epoch
        reclaimed := s.reclaimed ++ s.retired.filter fun item => item.epoch < horizon
        reclaim := .idle } item → s.Pending item := by
      rintro item (hitem | hitem)
      · exact .inl (List.mem_of_mem_filter hitem)
      · exact .inr hitem
    refine
      { stack := h.stack
        known := h.known
        pinning := h.pinning
        slot := h.slot
        fresh := h.fresh
        freshHeld := ?_
        shielded := fun item u hitem hu => h.shielded item u (hpending item hitem) hu
        reclaim := trivial
        safe := ?_ }
    · rintro item (hitem | hitem)
      · exact h.freshHeld item (.inl (hpending item hitem))
      · rcases List.mem_append.1 hitem with hold | hswept
        · exact h.freshHeld item (.inr hold)
        · exact h.freshHeld item (.inl (.inl (List.mem_of_mem_filter hswept)))
    · intro item hitem id hid
      rcases List.mem_append.1 hitem with hold | hswept
      · exact h.safe item hold id hid
      · rintro ⟨u, g, hg, rfl⟩
        obtain ⟨hretired, hlt⟩ := List.mem_filter.1 hswept
        have hle := hok.2 item u (.inl hretired) ⟨g, hg, hid⟩
        rw [decide_eq_true_eq] at hlt
        omega
  · cases hs

/-! ## Pinning and dropping -/

/-- A thread that is not retiring leaves the pending objects alone. -/
theorem pending_setThread (hdoing : ∀ x, (s.thread t).doing ≠ .retiring x)
    (hidle : th.doing = .idle) : (s.setThread t th).Pending item ↔ s.Pending item := by
  refine or_congr_right ⟨?_, ?_⟩
  · rintro ⟨u, hu⟩
    rcases eq_or_ne u t with rfl | hne
    · rw [thread_setThread_self, hidle] at hu
      cases hu
    · rw [thread_setThread_of_ne hne] at hu
      exact ⟨u, hu⟩
  · rintro ⟨u, hu⟩
    have hne : u ≠ t := by
      rintro rfl
      exact hdoing item hu
    exact ⟨u, by rwa [thread_setThread_of_ne hne]⟩

/-- A thread pins or drops.  Guards that stay find the slot as it was, and a
slot that is filled is filled in front of the running scan. -/
theorem Inv.replaced {n : Nat} (h : s.Inv) (hdoing : ∀ x, (s.thread t).doing ≠ .retiring x)
    (hidle : th.doing = .idle) (hknown : th.guards ≠ [] → t ∈ s.participants)
    (hstack : StackOk th.slot th.guards) (hn : s.nextGuard ≤ n) (hfresh : ∀ g ∈ th.guards, g.id < n)
    (hguards : ∀ g ∈ th.guards, g ∈ (s.thread t).guards ∧ th.slot = (s.thread t).slot ∨
      g.id = s.nextGuard)
    (hbound : ∀ epoch, th.slot = some epoch → epoch ≤ s.globalEpoch)
    (hhidden : (s.thread t).slot = none → th.slot = none ∨ ¬ s.Passed t) :
    Inv { s.setThread t th with nextGuard := n } := by
  have hpending : ∀ item, Pending { s.setThread t th with nextGuard := n } item → s.Pending item :=
    fun item hitem => (pending_setThread hdoing hidle).1 hitem
  -- the new guard holds nothing yet
  have hheld : ∀ item u, (∀ id ∈ item.heldBy, id < s.nextGuard) →
      Held { s.setThread t th with nextGuard := n } item u →
        s.Held item u ∧ ((s.setThread t th).thread u).slot = (s.thread u).slot := by
    rintro item u hitem ⟨g, hg, hid⟩
    change g ∈ ((s.setThread t th).thread u).guards at hg
    rcases eq_or_ne u t with rfl | hne
    · rw [thread_setThread_self] at hg ⊢
      rcases hguards g hg with ⟨hold, hslot⟩ | hnew
      · exact ⟨⟨g, hold, hid⟩, hslot⟩
      · exact absurd (hitem g.id hid) (by omega)
    · rw [thread_setThread_of_ne hne] at hg ⊢
      exact ⟨⟨g, hg, hid⟩, rfl⟩
  refine
    { stack := fun u => ?_
      known := fun u => ?_
      pinning := fun u => ?_
      slot := fun u => ?_
      fresh := fun u => ?_
      freshHeld := ?_
      shielded := ?_
      reclaim := ?_
      safe := ?_ }
  · show StackOk ((s.setThread t th).thread u).slot ((s.setThread t th).thread u).guards
    rcases eq_or_ne u t with rfl | hne
    · rwa [thread_setThread_self]
    · rw [thread_setThread_of_ne hne]
      exact h.stack u
  · show ((s.setThread t th).thread u).guards ≠ [] → u ∈ s.participants
    rcases eq_or_ne u t with rfl | hne
    · rwa [thread_setThread_self]
    · rw [thread_setThread_of_ne hne]
      exact h.known u
  · show ∀ epoch, ((s.setThread t th).thread u).doing = .pinning epoch → _
    rcases eq_or_ne u t with rfl | hne
    · rw [thread_setThread_self, hidle]
      rintro epoch ⟨⟩
    · rw [thread_setThread_of_ne hne]
      exact h.pinning u
  · show ∀ epoch, ((s.setThread t th).thread u).slot = some epoch → _
    rcases eq_or_ne u t with rfl | hne
    · rwa [thread_setThread_self]
    · rw [thread_setThread_of_ne hne]
      exact h.slot u
  · show ∀ g ∈ ((s.setThread t th).thread u).guards, g.id < n
    rcases eq_or_ne u t with rfl | hne
    · rwa [thread_setThread_self]
    · rw [thread_setThread_of_ne hne]
      exact fun g hg => (h.fresh u g hg).trans_le hn
  · intro item hitem id hid
    exact (h.freshHeld item (hitem.imp_left (hpending item)) id hid).trans_le hn
  · intro item u hitem hu
    obtain ⟨hold, hslot⟩ := hheld item u (h.freshHeld item (.inl (hpending item hitem))) hu
    obtain ⟨epoch, hepoch, hle⟩ := h.shielded item u (hpending item hitem) hold
    exact ⟨epoch, hslot.trans hepoch, hle⟩
  · refine h.reclaimOk rfl rfl ?_ fun item u hitem hu => ?_
    · intro currentGlobal todo caught hreclaim u hu hnone
      show ((s.setThread t th).thread u).slot = none
      rcases eq_or_ne u t with rfl | hne
      · rw [thread_setThread_self]
        exact (hhidden hnone).resolve_right (not_not_intro ⟨_, _, _, hreclaim, hu⟩)
      · rwa [thread_setThread_of_ne hne]
    · exact .inl ⟨hpending item hitem,
        (hheld item u (h.freshHeld item (.inl (hpending item hitem))) hu).1⟩
  · rintro item hitem id hid ⟨u, g, hg, rfl⟩
    have hheldNow : Held { s.setThread t th with nextGuard := n } item u := ⟨g, hg, hid⟩
    obtain ⟨⟨g', hg', hid'⟩, -⟩ := hheld item u (h.freshHeld item (.inr hitem)) hheldNow
    exact h.safe item hitem g'.id hid' ⟨u, g', hg', rfl⟩

/-- The slot of the outer guards is the one the inner guard found. -/
theorem Inv.dropGuard (h : s.Inv) (hs : s.dropGuard t = some s') : s'.Inv := by
  unfold Manager.dropGuard at hs
  split at hs
  · next g guards hdoing hguards =>
    cases hs
    have hstack := h.stack t
    have hfresh := h.fresh t
    rw [hguards] at hstack hfresh
    obtain ⟨hsome, hlast, hinner, hrest⟩ := hstack
    refine h.replaced (by simp [hdoing]) rfl ?_ hrest le_rfl ?_ ?_ ?_ ?_
    · intro _
      exact h.known t (by simp [hguards])
    · exact fun x hx => hfresh x (List.mem_cons_of_mem _ hx)
    · intro x hx
      rw [hguards]
      exact .inl ⟨List.mem_cons_of_mem _ hx, hinner (List.ne_nil_of_mem hx)⟩
    · intro epoch hepoch
      have hne : guards ≠ [] := by
        intro hnil
        change g.prev = some epoch at hepoch
        rw [hlast hnil] at hepoch
        cases hepoch
      exact h.slot t epoch ((hinner hne).symm.trans hepoch)
    · intro hnone
      rw [hnone] at hsome
      cases hsome
  · cases hs

/-- A pin that publishes what its thread has published already, or in front of
the running scan. -/
theorem Inv.pinSwap (h : s.Inv) (hpublish : s.PublishOk t) (hs : s.pinSwap t = some s') :
    s'.Inv := by
  unfold Manager.pinSwap at hs
  split at hs
  · next epoch hdoing =>
    cases hs
    obtain ⟨hknown, hle⟩ := h.pinning t epoch hdoing
    have hsame : ∀ published, (s.thread t).slot = some published → epoch = published := by
      intro published hslot
      rwa [PublishOk, hdoing, hslot] at hpublish
    have hslot : (s.thread t).guards ≠ [] → some epoch = (s.thread t).slot := by
      intro hne
      cases hslot : (s.thread t).slot with
      | none => exact absurd (h.guards_eq_nil hslot) hne
      | some published => rw [hsame published hslot]
    refine h.replaced (by simp [hdoing]) rfl (fun _ => hknown) ?_ (Nat.le_succ _) ?_ ?_ ?_ ?_
    · refine ⟨rfl, fun hnil => ?_, fun hne => (hslot hne).symm, h.stack t⟩
      have hstack := h.stack t
      rwa [hnil] at hstack
    · rintro g (_ | ⟨_, hg⟩)
      · exact Nat.lt_succ_self _
      · exact (h.fresh t g hg).trans (Nat.lt_succ_self _)
    · rintro g (_ | ⟨_, hg⟩)
      · exact .inr rfl
      · exact .inl ⟨hg, hslot (List.ne_nil_of_mem hg)⟩
    · rintro _ ⟨⟩
      exact hle
    · intro hnone
      rw [PublishOk, hdoing, hnone] at hpublish
      exact .inr hpublish
  · cases hs

/-! ## Runs -/

theorem Inv.calmStep (h : s.Inv) (hs : CalmStep s s') : s'.Inv := by
  obtain ⟨a, ha, hcalm⟩ := hs
  cases a with
  | register t => exact h.register ha
  | pinLoad t => exact h.pinLoad ha
  | pinSwap t => exact h.pinSwap (hcalm t rfl) ha
  | dropGuard t => exact h.dropGuard ha
  | retireLoad t object => exact h.retireLoad ha
  | retirePush t => exact h.retirePush ha
  | beginReclaim => exact h.beginReclaim ha
  | scan => exact h.scan ha
  | sweep => exact h.sweep ha

/-- Every guard that is alive is counted when an object is retired. -/
theorem Inv.mem_guardIds (h : s.Inv) {id : Nat} (halive : s.Alive id) : id ∈ s.guardIds := by
  obtain ⟨t, g, hg, rfl⟩ := halive
  exact List.mem_flatMap.2 ⟨t, h.known t (List.ne_nil_of_mem hg), List.mem_map_of_mem hg⟩

/-- In a run of calm steps no object is dropped while a guard is alive that was
alive when the object was retired. -/
theorem calm_guards_safe (h : ReflTransGen CalmStep new s) :
    s.Safe ∧ ∀ id, s.Alive id ↔ id ∈ s.guardIds := by
  have hinv : s.Inv := Transition.invariant inv_new (fun _ _ => Inv.calmStep) h
  refine ⟨hinv.safe, fun id => ⟨hinv.mem_guardIds, fun hid => ?_⟩⟩
  obtain ⟨t, -, ht⟩ := List.mem_flatMap.1 hid
  obtain ⟨g, hg, rfl⟩ := List.mem_map.1 ht
  exact ⟨t, g, hg, rfl⟩

/-! ## The two ways a guard is hidden -/

/-- Two nested pins in one epoch, an object retired under both, and reclaims in
between and behind. -/
def calmNesting : List Action :=
  [.register 0, .pinLoad 0, .pinSwap 0, .pinLoad 0, .pinSwap 0, .retireLoad 0 7, .retirePush 0,
   .beginReclaim, .scan, .scan, .sweep, .dropGuard 0, .beginReclaim, .scan, .scan, .sweep,
   .dropGuard 0, .beginReclaim, .scan, .scan, .sweep]

/-- `PublishOk` as a check. -/
def publishOk (s : Manager) (t : Nat) : Bool :=
  match (s.thread t).doing, (s.thread t).slot with
  | .pinning epoch, some published => epoch = published
  | .pinning _, none =>
    match s.reclaim with
    | .scanning _ todo none _ => t ∈ todo
    | _ => true
  | _, _ => true

theorem publishOk_spec (h : s.publishOk t = true) : s.PublishOk t := by
  unfold publishOk at h
  unfold PublishOk
  split at h
  · simpa using h
  · rintro ⟨currentGlobal, todo, caught, hreclaim, ht⟩
    rw [hreclaim] at h
    simp [ht] at h
  · trivial

/-- A step that is checked to hide no guard. -/
def calmNext (a : Action) (s : Manager) : Option Manager :=
  match a with
  | .pinSwap t => if s.publishOk t then next a s else none
  | _ => next a s

theorem calmStep_of_calmNext (a : Action) (s s' : Manager) (h : calmNext a s = some s') :
    CalmStep s s' := by
  unfold calmNext at h
  split at h
  · next t =>
    split at h
    · next hok =>
      refine ⟨_, h, ?_⟩
      rintro _ ⟨⟩
      exact publishOk_spec hok
    · cases h
  · next hne =>
    refine ⟨a, h, ?_⟩
    rintro t rfl
    exact absurd rfl (hne t)

/-- Nested pins of one epoch keep the object until the outer guard is dropped. -/
theorem calm_guards_safe_calmNesting : ∃ s : Manager, s.reclaimed.map Retired.object = [7] ∧
    s.Safe ∧ ∀ id, s.Alive id ↔ id ∈ s.guardIds := by
  have hrun : (Transition.exec calmNext (fun _ => true) calmNesting new).map
      (fun s => s.reclaimed.map Retired.object) = some [7] := by decide +kernel
  obtain ⟨s, hs, hend⟩ := Option.map_eq_some_iff.1 hrun
  exact ⟨s, hend, calm_guards_safe (Transition.exec_runs calmStep_of_calmNext hs)⟩

/-- A run after which a dropped object is held by a guard of thread 0. -/
theorem unsafe_run (cs : List Action)
    (hrun : (Transition.exec next (fun _ => true) cs new).map (fun s =>
      s.reclaimed.any fun item => (s.thread 0).guards.any fun g => g.id ∈ item.heldBy) =
        some true) : ∃ s, ReflTransGen Step new s ∧ ¬ s.Safe := by
  obtain ⟨s, hs, hend⟩ := Option.map_eq_some_iff.1 hrun
  refine ⟨s, Transition.exec_runs (fun a _ _ h => ⟨a, h⟩) hs, fun hsafe => ?_⟩
  obtain ⟨item, hitem, hany⟩ := List.any_eq_true.1 hend
  obtain ⟨g, hg, hid⟩ := List.any_eq_true.1 hany
  exact hsafe item hitem g.id (by simpa using hid) ⟨0, g, hg, rfl⟩

/-- One thread pins, retires, reclaims, pins again and reclaims: the second pin
publishes the advanced epoch, and the object is dropped under the first guard. -/
theorem nested_pin_reclaims : ∃ s, ReflTransGen Step new s ∧ ¬ s.Safe :=
  unsafe_run [.register 0, .pinLoad 0, .pinSwap 0, .retireLoad 0 7, .retirePush 0,
    .beginReclaim, .scan, .scan, .sweep, .pinLoad 0, .pinSwap 0, .beginReclaim, .scan, .scan,
    .sweep] (by decide +kernel)

/-- A pin publishes behind the scan of its slot; an object retired under its guard
is dropped by the same reclaim. -/
theorem missed_pin_reclaims : ∃ s, ReflTransGen Step new s ∧ ¬ s.Safe :=
  unsafe_run [.register 0, .pinLoad 0, .beginReclaim, .scan, .pinSwap 0, .retireLoad 1 7,
    .retirePush 1, .scan, .sweep] (by decide +kernel)

end Manager

end HenchDB.Epoch
