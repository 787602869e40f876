import Mathlib.Logic.Relation
import Mathlib.Tactic

/-!
# Runs of a transition system

A run is a reflexive transitive chain of steps.  The two rules here are the
ones every argument about runs uses: a property that every step keeps holds at
the end of a run (`invariant`), and a schedule that executes is a run
(`exec_reaches`).  A run may carry a condition on every state it enters, which
is how a property that has to hold during a whole call is stated.

Operations that are done one after the other may hang, which depends on those done
before; `Ends` says that none does.
-/

namespace Transition

open Relation

variable {σ κ : Type*} {step : σ → σ → Prop} {P : σ → Prop} {s t : σ}

/-- A property of the first state that every step keeps holds at the end. -/
theorem invariant (h0 : P s) (hstep : ∀ a b, P a → step a b → P b) (h : ReflTransGen step s t) :
    P t := by
  induction h with
  | refl => exact h0
  | tail _ hab ih => exact hstep _ _ ih hab

/-- Follow a schedule, checking `ok` on every state entered. -/
def exec (next : κ → σ → Option σ) (ok : σ → Bool) : List κ → σ → Option σ
  | [], s => some s
  | c :: cs, s =>
    match next c s with
    | some s' => if ok s' then exec next ok cs s' else none
    | none => none

variable {next : κ → σ → Option σ}

/-- An executed schedule is a run through states that pass the check. -/
theorem exec_reaches {ok : σ → Bool} (hnext : ∀ c a b, next c a = some b → step a b) :
    ∀ {cs : List κ} {s t : σ}, exec next ok cs s = some t →
      ReflTransGen (fun a b => step a b ∧ ok b = true) s t
  | [], s, t, h => by
    cases h
    exact .refl
  | c :: cs, s, t, h => by
    rw [exec] at h
    split at h
    · next s' hs' =>
      split at h
      · next hok => exact .head ⟨hnext c s s' hs', hok⟩ (exec_reaches hnext h)
      · cases h
    · cases h

/-- A schedule that executes without a check is a run. -/
theorem exec_runs {cs : List κ} (hnext : ∀ c a b, next c a = some b → step a b)
    (h : exec next (fun _ => true) cs s = some t) : ReflTransGen step s t :=
  ReflTransGen.mono (fun _ _ hab => hab.1) _ _ (exec_reaches hnext h)

/-- The same when only the steps of the schedule are steps. -/
theorem exec_runs_of_mem :
    ∀ {cs : List κ} {s t : σ}, (∀ c ∈ cs, ∀ a b, next c a = some b → step a b) →
      exec next (fun _ => true) cs s = some t → ReflTransGen step s t
  | [], s, t, _, h => by
    cases h
    exact .refl
  | c :: cs, s, t, hnext, h => by
    rw [exec] at h
    split at h
    · next s' hs' =>
      exact .head (hnext c (by simp) s s' hs')
        (exec_runs_of_mem (fun c hc => hnext c (by simp [hc])) h)
    · cases h

/-! ## Operations that may hang -/

section
variable {α : Type*} {hangs : List α → α → Bool} {before done ops : List α} {op : α}

/-- None of the operations hangs, one done after the other behind those before. -/
def Ends (hangs : List α → α → Bool) (before ops : List α) : Prop :=
  ∀ done op rest, ops = done ++ op :: rest → hangs (before ++ done) op = false

theorem Ends.nil : Ends hangs before [] := by
  intro done op rest heq
  simp at heq

theorem Ends.head (h : Ends hangs before (op :: ops)) : hangs before op = false := by
  have := h [] op ops rfl
  rwa [List.append_nil] at this

theorem Ends.behind (h : Ends hangs before (done ++ ops)) : Ends hangs (before ++ done) ops := by
  intro mid op rest heq
  rw [List.append_assoc]
  exact h (done ++ mid) op rest (by rw [heq, List.append_assoc])

theorem Ends.append (h : Ends hangs before done) (hops : Ends hangs (before ++ done) ops) :
    Ends hangs before (done ++ ops) := by
  intro mid op rest heq
  rcases List.append_eq_append_iff.mp heq with ⟨mid', rfl, hrest⟩ | ⟨rest', rfl, hrest⟩
  · rw [← List.append_assoc]
    exact hops mid' op rest hrest
  · cases rest' with
    | nil =>
      have := hops [] op rest (by rw [List.nil_append]; exact hrest.symm)
      rwa [List.append_nil, List.append_nil] at this
    | cons op' rest' =>
      obtain ⟨rfl, -⟩ := List.cons.inj hrest
      exact h mid op rest' rfl

end

end Transition
