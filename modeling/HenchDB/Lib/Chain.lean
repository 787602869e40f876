import Mathlib.Order.Basic
import Mathlib.Tactic

/-!
# Version chains

A chain lists the superseded values of one cell, newest first.  An entry
`(until, b)` says that `b` was the value at every time below `until`, down to
the next older entry.  A reader at time `r` walks the chain from its newest
entry and keeps the last value whose `until` is still above `r` (`walk`).
-/

namespace Chain

variable {ι β : Type*} [LinearOrder ι] {r oldest : ι} {c : List (ι × β)}

/-- Walk a chain at time `r`, keeping the last entry seen. -/
def walk (r : ι) : List (ι × β) → Option β → Option β
  | [], found => found
  | (u, b) :: older, found => if r < u then walk r older (some b) else found

def NewestFirst (c : List (ι × β)) : Prop := c.Pairwise fun a b => b.1 < a.1

/-- No entry reaches beyond `r`, so the walk stops at once. -/
theorem walk_of_forall_le {found : Option β} (h : ∀ e ∈ c, e.1 ≤ r) : walk r c found = found := by
  cases c with
  | nil => rfl
  | cons e older => simp [walk, not_lt.mpr (h e (by simp))]

/-- What the walk has seen before only matters when it finds nothing more. -/
theorem walk_eq_or : ∀ (c : List (ι × β)) (found : Option β),
    walk r c found = (walk r c none).or found
  | [], found => by simp [walk]
  | (u, b) :: older, found => by
    by_cases hu : r < u
    · simp only [walk, hu, if_true]
      rw [walk_eq_or older (some b)]
      cases walk r older none <;> rfl
    · simp [walk, hu]

/-- A new entry is the answer of the readers below it that found nothing. -/
theorem walk_cons {u : ι} {b : β} (hu : r < u) :
    walk r ((u, b) :: c) none = (walk r c none).or (some b) := by
  rw [walk, if_pos hu, walk_eq_or]

/-- Dropping the entries that end by `oldest` is not seen at or after it. -/
theorem walk_filter (hr : oldest ≤ r) : ∀ {c : List (ι × β)} {found : Option β}, NewestFirst c →
    walk r (c.filter fun e => oldest < e.1) found = walk r c found
  | [], _, _ => rfl
  | (u, b) :: older, found, hc => by
    obtain ⟨holder, hc'⟩ := List.pairwise_cons.mp hc
    by_cases hu : r < u
    · have hkeep : oldest < u := lt_of_le_of_lt hr hu
      simp only [List.filter_cons, hkeep, decide_true, if_true, walk, hu]
      exact walk_filter hr hc'
    · -- the walk stops here, and everything older ends even earlier
      have hstop : ∀ e ∈ ((u, b) :: older).filter fun e => oldest < e.1, e.1 ≤ r := by
        intro e he
        rcases List.mem_cons.mp (List.mem_filter.mp he).1 with rfl | hmem
        · exact not_lt.mp hu
        · exact (holder e hmem).le.trans (not_lt.mp hu)
      rw [walk_of_forall_le hstop, walk, if_neg hu]

theorem NewestFirst.filter (p : ι × β → Bool) (h : NewestFirst c) : NewestFirst (c.filter p) :=
  List.Pairwise.filter p h

end Chain
