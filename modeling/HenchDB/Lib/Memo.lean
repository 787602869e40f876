import Mathlib.Data.List.Basic
import Std.Data.ExtHashMap

/-!
# Memo tables

A recursion that keeps its answers in a table runs in the state monad of the table
(`memoized`).  It gives the answers of a function if every call gives one with a
table of right answers and leaves such a table (`Gives`); a call that is answered
from the table need not be looked at.
-/

namespace Memo

open Std (ExtHashMap)

variable {κ α β : Type} [BEq κ] [LawfulBEq κ] [Hashable κ]

abbrev Answers (κ β : Type) [BEq κ] [Hashable κ] := ExtHashMap κ β

/-- The answer of the table, or the answer of a computation, which is kept. -/
def memoized (k : κ) (x : StateM (Answers κ β) β) : StateM (Answers κ β) β := fun m =>
  match m[k]? with
  | some b => (b, m)
  | none =>
    let (b, m) := x m
    (b, m.insert k b)

def Sound (f : κ → β) (m : Answers κ β) : Prop := ∀ (k : κ) (b : β), m[k]? = some b → b = f k

/-- On a table of right answers the computation gives `a` and leaves such a table. -/
def Gives (f : κ → β) (x : StateM (Answers κ β) α) (a : α) : Prop :=
  ∀ m, Sound f m → (x m).1 = a ∧ Sound f (x m).2

variable {f : κ → β}

theorem sound_empty (f : κ → β) : Sound f ∅ := fun k b h => by simp at h

theorem gives_pure (a : α) : Gives f (pure a) a := fun _ hm => ⟨rfl, hm⟩

theorem Gives.bind {γ : Type} {x : StateM (Answers κ β) α} {g : α → StateM (Answers κ β) γ} {a : α}
    {c : γ} (hx : Gives f x a) (hg : Gives f (g a) c) : Gives f (x >>= g) c := by
  intro m hm
  obtain ⟨ha, hm'⟩ := hx m hm
  have hrun : (x >>= g) m = g a (x m).2 := by
    rw [← ha]
    rfl
  rw [hrun]
  exact hg _ hm'

theorem Gives.memoized {k : κ} {x : StateM (Answers κ β) β} (hx : Gives f x (f k)) :
    Gives f (memoized k x) (f k) := by
  intro m hm
  rw [Memo.memoized]
  cases hk : m[k]? with
  | some b => exact ⟨hm k b hk, hm⟩
  | none =>
    obtain ⟨hb, hm'⟩ := hx m hm
    refine ⟨hb, fun k' b hb' => ?_⟩
    have hinsert : ((x m).2.insert k (x m).1)[k']? = some b := hb'
    rw [ExtHashMap.getElem?_insert] at hinsert
    split at hinsert
    · next heq => rw [← Option.some.inj hinsert, hb, eq_of_beq heq]
    · exact hm' k' b hinsert

/-- The first question of a list with the answer `true`. -/
theorem gives_anyM {g : α → StateM (Answers κ β) Bool} {h : α → Bool} :
    ∀ {l : List α}, (∀ a ∈ l, Gives f (g a) (h a)) → Gives f (l.anyM g) (l.any h)
  | [], _ => gives_pure false
  | a :: l, hl => by
    have hrest := gives_anyM (l := l) fun a ha => hl a (List.mem_cons_of_mem _ ha)
    refine (hl a (List.mem_cons_self ..)).bind ?_
    cases ha : h a with
    | true => simpa [ha] using gives_pure true
    | false => simpa [ha] using hrest

end Memo
