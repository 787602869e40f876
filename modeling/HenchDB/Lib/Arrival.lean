import Mathlib.Data.List.Basic
import Mathlib.Tactic

/-!
# Streams that arrive in pieces

What a reader sees of a stream is a list of events: an item arrives, or the reader
has waited too long.  `readExact` takes the items it needs one by one and gives up
at a timeout; the items it has taken by then are gone.

A stream written in units survives this where the timeouts fall between the units
(`StopsBetween`): then the next unit arrives in one piece, or the writer closes the
stream inside it (`StopsBetween.next`).
-/

namespace Arrival

variable {α : Type}

/-- What happens at a reader. -/
inductive Event (α : Type) where
  | item (a : α)
  | timeout
deriving DecidableEq, Repr

/-- The reading end of a stream.  Behind what is incoming there is nothing: the writer
has closed it, or is silent. -/
structure Socket (α : Type) where
  incoming : List (Event α)
  closed : Bool
deriving DecidableEq, Repr

inductive ReadError where
  | timedOut
  | eof
deriving DecidableEq, Repr

def items : List (Event α) → List α
  | [] => []
  | .item a :: s => a :: items s
  | .timeout :: s => items s

def smooth (as : List α) : List (Event α) := as.map .item

/-- A read of exactly `n` items. -/
def readExact : Nat → Socket α → Except ReadError (List α) × Socket α
  | 0, s => (.ok [], s)
  | _ + 1, ⟨[], closed⟩ => (.error (if closed then .eof else .timedOut), ⟨[], closed⟩)
  | _ + 1, ⟨.timeout :: s, closed⟩ => (.error .timedOut, ⟨s, closed⟩)
  | n + 1, ⟨.item a :: s, closed⟩ =>
    let r := readExact n ⟨s, closed⟩
    (r.1.map (a :: ·), r.2)

@[simp]
theorem items_append : ∀ s t : List (Event α), items (s ++ t) = items s ++ items t
  | [], _ => rfl
  | .item a :: s, t => congrArg (a :: ·) (items_append s t)
  | .timeout :: s, t => items_append s t

@[simp]
theorem items_smooth : ∀ as : List α, items (smooth as) = as
  | [] => rfl
  | a :: as => congrArg (a :: ·) (items_smooth as)

theorem readExact_item (n : Nat) (a : α) (s : List (Event α)) (closed : Bool) :
    readExact (n + 1) ⟨.item a :: s, closed⟩ =
      ((readExact n ⟨s, closed⟩).1.map (a :: ·), (readExact n ⟨s, closed⟩).2) := rfl

theorem smooth_append (as bs : List α) : smooth (as ++ bs) = smooth as ++ smooth bs :=
  List.map_append

theorem readExact_smooth (closed : Bool) (s : List (Event α)) : ∀ as : List α,
    readExact as.length ⟨smooth as ++ s, closed⟩ = (.ok as, ⟨s, closed⟩)
  | [] => rfl
  | a :: as => by
    show readExact (as.length + 1) ⟨.item a :: (smooth as ++ s), closed⟩ = _
    rw [readExact_item, readExact_smooth closed s as]
    rfl

/-- A closed stream that is too short. -/
theorem readExact_short : ∀ {n : Nat} {as : List α}, as.length < n →
    readExact n ⟨smooth as, true⟩ = (.error .eof, ⟨[], true⟩)
  | n + 1, [], _ => rfl
  | n + 1, a :: as, h => by
    show readExact (n + 1) ⟨.item a :: smooth as, true⟩ = _
    rw [readExact_item, readExact_short (Nat.lt_of_succ_lt_succ h)]
    rfl

/-! ## Timeouts between units -/

/-- A read may give up behind `before`. -/
def Socket.PausesAfter (s : Socket α) (before : List (Event α)) : Prop :=
  (∃ after, s.incoming = before ++ .timeout :: after) ∨
    (s.incoming = before ∧ s.closed = false)

/-- A read gives up only where whole units have arrived. -/
def StopsBetween (units : List (List α)) (s : Socket α) : Prop :=
  ∀ before, s.PausesAfter before → ∃ done, done <+: units ∧ items before = done.flatten

variable {units : List (List α)} {u : List α} {s : List (Event α)} {closed : Bool}

/-- Nothing is left of a stream that the writer has closed. -/
theorem stopsBetween_closed (units : List (List α)) : StopsBetween units ⟨[], true⟩ := by
  rintro before (⟨after, heq⟩ | ⟨-, hopen⟩)
  · exact absurd heq.symm (by simp)
  · cases hopen

theorem stopsBetween_silent (units : List (List α)) : StopsBetween units ⟨[], false⟩ := by
  rintro before (⟨after, heq⟩ | ⟨rfl, -⟩)
  · exact absurd heq.symm (by simp)
  · exact ⟨[], List.nil_prefix, rfl⟩

theorem StopsBetween.timeout (h : StopsBetween units ⟨s, closed⟩) :
    StopsBetween units ⟨.timeout :: s, closed⟩ := by
  intro before hpause
  cases before with
  | nil => exact ⟨[], List.nil_prefix, rfl⟩
  | cons e before =>
    have hpause' : e = .timeout ∧ Socket.PausesAfter ⟨s, closed⟩ before := by
      rcases hpause with ⟨after, heq⟩ | ⟨heq, hopen⟩
      · obtain ⟨he, hs⟩ := List.cons.inj heq
        exact ⟨he.symm, .inl ⟨after, hs⟩⟩
      · obtain ⟨he, hs⟩ := List.cons.inj heq
        exact ⟨he.symm, .inr ⟨hs, hopen⟩⟩
    obtain ⟨rfl, hpause'⟩ := hpause'
    exact h before hpause'

/-- A timeout behind items is behind all of them. -/
theorem split_smooth : ∀ {u : List α} {before after : List (Event α)},
    smooth u ++ s = before ++ .timeout :: after →
      ∃ rest, before = smooth u ++ rest ∧ s = rest ++ .timeout :: after
  | [], before, _, heq => ⟨before, rfl, heq⟩
  | _ :: _, [], _, heq => by cases heq
  | a :: u, e :: before, after, heq => by
    obtain ⟨he, htail⟩ := List.cons.inj heq
    obtain ⟨rest, hbefore, hs⟩ := split_smooth htail
    refine ⟨rest, ?_, hs⟩
    rw [← he, hbefore]
    rfl

theorem StopsBetween.unit (u : List α) (h : StopsBetween units ⟨s, closed⟩) :
    StopsBetween (u :: units) ⟨smooth u ++ s, closed⟩ := by
  intro before hpause
  have hpause' : ∃ rest, before = smooth u ++ rest ∧ Socket.PausesAfter ⟨s, closed⟩ rest := by
    rcases hpause with ⟨after, heq⟩ | ⟨heq, hopen⟩
    · obtain ⟨rest, hbefore, hs⟩ := split_smooth heq
      exact ⟨rest, hbefore, .inl ⟨after, hs⟩⟩
    · exact ⟨s, heq.symm, .inr ⟨rfl, hopen⟩⟩
  obtain ⟨rest, rfl, hpause'⟩ := hpause'
  obtain ⟨done, hdone, hitems⟩ := h rest hpause'
  refine ⟨u :: done, List.cons_prefix_cons.2 ⟨rfl, hdone⟩, ?_⟩
  rw [items_append, items_smooth, hitems, List.flatten_cons]

theorem StopsBetween.after_timeout (h : StopsBetween units ⟨.timeout :: s, closed⟩) :
    StopsBetween units ⟨s, closed⟩ := by
  intro before hpause
  refine h (.timeout :: before) ?_
  rcases hpause with ⟨after, heq⟩ | ⟨heq, hopen⟩
  · exact .inl ⟨after, congrArg (.timeout :: ·) heq⟩
  · exact .inr ⟨congrArg (.timeout :: ·) heq, hopen⟩

/-- Behind a unit the timeouts fall between those that follow. -/
theorem StopsBetween.after_unit (hu : u ≠ [])
    (h : StopsBetween (u :: units) ⟨smooth u ++ s, closed⟩) : StopsBetween units ⟨s, closed⟩ := by
  intro before hpause
  have hpause' : Socket.PausesAfter ⟨smooth u ++ s, closed⟩ (smooth u ++ before) := by
    rcases hpause with ⟨after, heq⟩ | ⟨heq, hopen⟩
    · left
      refine ⟨after, ?_⟩
      rw [List.append_assoc]
      exact congrArg (smooth u ++ ·) heq
    · exact .inr ⟨congrArg (smooth u ++ ·) heq, hopen⟩
  obtain ⟨done, hdone, hitems⟩ := h _ hpause'
  rw [items_append, items_smooth] at hitems
  cases done with
  | nil => exact absurd (List.append_eq_nil_iff.1 hitems).1 hu
  | cons v done =>
    obtain ⟨rfl, hdone'⟩ := List.cons_prefix_cons.1 hdone
    rw [List.flatten_cons] at hitems
    exact ⟨done, hdone', List.append_cancel_left hitems⟩

/-- Events begin with items, and a timeout follows or nothing does. -/
theorem exists_smooth : ∀ s : List (Event α), ∃ as t, s = smooth as ++ t ∧
    (t = [] ∨ ∃ t', t = .timeout :: t')
  | [] => ⟨[], [], rfl, .inl rfl⟩
  | .timeout :: s => ⟨[], .timeout :: s, rfl, .inr ⟨s, rfl⟩⟩
  | .item a :: s => by
    obtain ⟨as, t, rfl, ht⟩ := exists_smooth s
    exact ⟨a :: as, t, rfl, ht⟩

/-- Once a unit has begun it arrives in one piece, or the writer closes inside it. -/
theorem StopsBetween.next {a : α} (h : StopsBetween (u :: units) ⟨.item a :: s, closed⟩)
    (hitems : items (.item a :: s) <+: (u :: units).flatten) :
    (∃ s', .item a :: s = smooth u ++ s' ∧ items s' <+: units.flatten) ∨
      (closed = true ∧ ∃ v, v <+: u ∧ v ≠ u ∧ .item a :: s = smooth v) := by
  obtain ⟨v, t, heq, ht⟩ := exists_smooth (.item a :: s)
  have hne : v ≠ [] := by
    rintro rfl
    rcases ht with rfl | ⟨t', rfl⟩ <;> cases heq
  rw [heq, items_append, items_smooth, List.flatten_cons] at hitems
  have hv : v <+: u ++ units.flatten := (List.prefix_append v (items t)).trans hitems
  by_cases hlen : u.length ≤ v.length
  · left
    obtain ⟨w, rfl⟩ : u <+: v :=
      List.prefix_of_prefix_length_le (List.prefix_append u units.flatten) hv hlen
    refine ⟨smooth w ++ t, ?_, ?_⟩
    · rw [heq, smooth_append, List.append_assoc]
    · rw [List.append_assoc] at hitems
      rw [items_append, items_smooth]
      exact (List.prefix_append_right_inj u).1 hitems
  · right
    have hshort : v <+: u :=
      List.prefix_of_prefix_length_le hv (List.prefix_append u units.flatten) (by omega)
    -- A timeout behind `v` would fall inside the unit.
    have hpause : ¬ Socket.PausesAfter ⟨.item a :: s, closed⟩ (smooth v) := by
      intro hpause
      obtain ⟨done, hdone, hv'⟩ := h _ hpause
      rw [items_smooth] at hv'
      cases done with
      | nil => exact hne hv'
      | cons w done =>
        obtain ⟨rfl, -⟩ := List.cons_prefix_cons.1 hdone
        rw [hv', List.flatten_cons, List.length_append] at hlen
        omega
    rcases ht with rfl | ⟨t', rfl⟩
    · rw [List.append_nil] at heq
      cases closed with
      | false => exact absurd (.inr ⟨heq, rfl⟩) hpause
      | true => exact ⟨rfl, v, hshort, by rintro rfl; exact hlen le_rfl, heq⟩
    · exact absurd (.inl ⟨t', heq⟩) hpause

end Arrival
