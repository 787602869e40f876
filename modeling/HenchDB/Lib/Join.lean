import Mathlib.Algebra.Order.BigOperators.Group.List
import Mathlib.Algebra.Order.Group.Nat
import Mathlib.Algebra.Order.Ring.Nat
import Mathlib.Data.Multiset.Bind
import Mathlib.Data.List.Basic

/-!
# Joins by probing

A join takes the rows of its left side one by one, asks a test for each row of
the right side it is given as a candidate, and puts out the pairs that pass, or
what stands for a row without a pair (`probe`).  The nested loop gives every
right row as a candidate, a hash join those with the same key (`candidates`).
The test may fail, and then the join does.

`probe_same_iff` says when fewer candidates make no difference: no pair that is
left out passes or fails, unless a candidate fails too.  Row order does not
count (`outcome`), so a join may also be probed from its right side
(`outcome_probe_swap`).
-/

namespace HenchDB.Join

variable {α β γ κ ε : Type}

/-! ## Probing -/

/-- Whether a test passes. -/
def holds (x : Except ε Bool) : Bool := x.toOption.getD false

/-- The candidates that pass, or the first failure. -/
def select (test : β → Except ε Bool) : List β → Except ε (List β)
  | [] => .ok []
  | b :: bs => do
    if ← test b then return b :: (← select test bs)
    else select test bs

/-- The pairs of a row, or what stands for a row without one. -/
def emit (pair : α → β → γ) (pad : α → List γ) (a : α) (hits : List β) : List γ :=
  if hits.isEmpty then pad a else hits.map (pair a)

/-- A join over the candidates of each left row. -/
def probe (cands : α → List β) (test : α → β → Except ε Bool) (pair : α → β → γ)
    (pad : α → List γ) (left : List α) : Except ε (List γ) := do
  return (← left.mapM fun a => do return emit pair pad a (← select (test a) (cands a))).flatten

/-- The rows a join puts out in any order; nothing if it fails. -/
def outcome (x : Except ε (List γ)) : Option (Multiset γ) := x.toOption.map Multiset.ofList

/-! ## Hash tables -/

section
variable [DecidableEq κ]

/-- Positions of the rows by their keys; a row without a key is not there. -/
def hashTable (key : β → Option κ) (rows : List β) : κ → List Nat :=
  rows.zipIdx.foldl (fun table row =>
    (key row.1).elim table fun k => Function.update table k (table k ++ [row.2])) fun _ => []

def candidates (key : β → Option κ) (rows : List β) (k : Option κ) : List β :=
  k.elim [] fun k => (hashTable key rows k).filterMap fun i => rows[i]?

/-- Both rows have a key, and the same one. -/
def agree (kl : α → Option κ) (kr : β → Option κ) (a : α) (b : β) : Bool :=
  (kl a).isSome && kl a = kr b

theorem agree_swap (kl : α → Option κ) (kr : β → Option κ) (a : α) (b : β) :
    agree kr kl b a = agree kl kr a b := by
  rw [agree, agree, Bool.eq_iff_iff]
  simp only [Bool.and_eq_true, decide_eq_true_eq]
  constructor
  · rintro ⟨hb, heq⟩
    exact ⟨heq ▸ hb, heq.symm⟩
  · rintro ⟨ha, heq⟩
    exact ⟨heq ▸ ha, heq.symm⟩

theorem hashTable_concat (key : β → Option κ) (rows : List β) (b : β) :
    hashTable key (rows ++ [b]) =
      (key b).elim (hashTable key rows) fun k =>
        Function.update (hashTable key rows) k (hashTable key rows k ++ [rows.length]) := by
  simp [hashTable, List.zipIdx_append]

theorem hashTable_rows (key : β → Option κ) (rows : List β) (k : κ) :
    (hashTable key rows k).filterMap (fun i => rows[i]?) =
        rows.filter (fun b => key b = some k) ∧
      ∀ i ∈ hashTable key rows k, i < rows.length := by
  induction rows using List.reverseRecOn with
  | nil => exact ⟨rfl, by simp [hashTable]⟩
  | append_singleton rows b ih =>
    have hold : (hashTable key rows k).filterMap (fun i => (rows ++ [b])[i]?) =
        rows.filter (fun b => key b = some k) := by
      rw [← ih.1]
      refine List.filterMap_congr fun i hi => ?_
      rw [List.getElem?_append_left (ih.2 i hi)]
    have hlt : ∀ i ∈ hashTable key rows k, i < (rows ++ [b]).length := fun i hi => by
      have := ih.2 i hi
      simp only [List.length_append]
      omega
    rw [hashTable_concat, List.filter_append]
    cases hkey : key b with
    | none => exact ⟨by simp [hold, hkey], by simpa using hlt⟩
    | some k' =>
      by_cases hk : k' = k
      · subst hk
        simp only [Option.elim_some, Function.update_self, List.filterMap_append, hold]
        refine ⟨by simp [hkey], fun i hi => ?_⟩
        rcases List.mem_append.mp hi with hi | hi
        · exact hlt i hi
        · simp only [List.mem_singleton] at hi
          simp [hi]
      · simp only [Option.elim_some, Function.update_of_ne (Ne.symm hk)]
        exact ⟨by simp [hold, hkey, hk], hlt⟩

theorem candidates_eq (kl : α → Option κ) (kr : β → Option κ) (rows : List β) (a : α) :
    candidates kr rows (kl a) = rows.filter (agree kl kr a) := by
  cases hk : kl a with
  | none => simp [candidates, agree, hk]
  | some k =>
    rw [candidates, Option.elim_some, (hashTable_rows kr rows k).1]
    refine List.filter_congr fun b _ => ?_
    simp [agree, hk, eq_comm]

end

/-! ## What a probe returns -/

section
variable {cands : α → List β} {test : α → β → Except ε Bool} {pair : α → β → γ}
  {pad : α → List γ} {left : List α}

theorem select_of_ok {test : β → Except ε Bool} {bs : List β}
    (hok : ∀ b ∈ bs, (test b).isOk = true) :
    select test bs = .ok (bs.filter fun b => holds (test b)) := by
  induction bs with
  | nil => rfl
  | cons b bs ih =>
    have hrest := ih fun b' hb' => hok b' (List.mem_cons_of_mem b hb')
    have hb := hok b List.mem_cons_self
    rw [select, List.filter_cons]
    cases ht : test b with
    | error e => simp [ht, Except.isOk, Except.toBool] at hb
    | ok v =>
      cases v with
      | false => exact hrest
      | true =>
        rw [hrest]
        rfl

theorem select_of_not_ok {test : β → Except ε Bool} {bs : List β} {b : β} (hb : b ∈ bs)
    (hbad : (test b).isOk = false) : ∃ e, select test bs = .error e := by
  induction bs with
  | nil => simp at hb
  | cons b' bs ih =>
    rw [select]
    cases ht : test b' with
    | error e => exact ⟨e, rfl⟩
    | ok v =>
      have hrest : ∃ e, select test bs = .error e := by
        rcases List.mem_cons.mp hb with rfl | hb
        · simp [ht, Except.isOk, Except.toBool] at hbad
        · exact ih hb
      obtain ⟨e, he⟩ := hrest
      refine ⟨e, ?_⟩
      cases v <;> simp [bind, Except.bind, he]

/-- A probe whose tests all answer puts out the pairs that pass. -/
theorem outcome_probe_of_ok (hok : ∀ a ∈ left, ∀ b ∈ cands a, (test a b).isOk = true) :
    outcome (probe cands test pair pad left) =
      some ((left : Multiset α).bind fun a =>
        emit pair pad a ((cands a).filter fun b => holds (test a b))) := by
  have hmap : ∀ l : List α, (∀ a ∈ l, ∀ b ∈ cands a, (test a b).isOk = true) →
      (l.mapM fun a => do return emit pair pad a (← select (test a) (cands a))) =
        Except.ok (l.map fun a => emit pair pad a ((cands a).filter fun b => holds (test a b))) := by
    intro l hl
    induction l with
    | nil => rfl
    | cons a l ih =>
      have ha := select_of_ok (hl a List.mem_cons_self)
      have hrest := ih fun a' ha' => hl a' (List.mem_cons_of_mem a ha')
      rw [List.mapM_cons, ha, hrest]
      rfl
  rw [probe, hmap left hok, Multiset.coe_bind]
  rfl

theorem outcome_probe_of_not_ok {a : α} {b : β} (ha : a ∈ left) (hb : b ∈ cands a)
    (hbad : (test a b).isOk = false) : outcome (probe cands test pair pad left) = none := by
  have hmap : ∀ l : List α, a ∈ l →
      ∃ e, (l.mapM fun a => do return emit pair pad a (← select (test a) (cands a))) =
        Except.error e := by
    intro l hl
    induction l with
    | nil => simp at hl
    | cons a' l ih =>
      rw [List.mapM_cons]
      cases hs : select (test a') (cands a') with
      | error e => exact ⟨e, rfl⟩
      | ok hits =>
        rcases List.mem_cons.mp hl with rfl | hl
        · obtain ⟨e, he⟩ := select_of_not_ok hb hbad
          rw [hs] at he
          cases he
        · obtain ⟨e, he⟩ := ih hl
          exact ⟨e, by rw [he]; rfl⟩
  obtain ⟨e, he⟩ := hmap left ha
  rw [probe, he]
  rfl

end

/-! ## Fewer candidates -/

section
variable {test : α → β → Except ε Bool} {pair : α → β → γ} {pad : α → List γ}
  {left : List α} {right : List β} {cand : α → β → Bool}

/-- The pairs among what a row puts out are those that passed. -/
theorem countP_emit {real : γ → Bool} {a : α} {hits : List β}
    (hreal : ∀ b ∈ hits, real (pair a b) = true) (hpad : ∀ c ∈ pad a, real c = false) :
    (emit pair pad a hits).countP real = hits.length := by
  rw [emit]
  split
  · next hempty =>
    rw [List.isEmpty_iff.mp hempty, List.countP_eq_zero.mpr fun c hc => by simp [hpad c hc]]
    rfl
  · rw [List.countP_map]
    exact List.countP_eq_length.mpr fun b hb => hreal b hb

theorem countP_emits {real : γ → Bool} {hits : α → List β}
    (hreal : ∀ a ∈ left, ∀ b ∈ hits a, real (pair a b) = true)
    (hpad : ∀ a ∈ left, ∀ c ∈ pad a, real c = false) :
    (left.flatMap fun a => emit pair pad a (hits a)).countP real =
      (left.map fun a => (hits a).length).sum := by
  rw [List.countP_flatMap]
  exact congrArg List.sum (List.map_congr_left fun a ha => countP_emit (hreal a ha) (hpad a ha))

/-- Testing only some of the pairs gives the same rows exactly if a candidate
fails, or no pair fails and every pair that passes is a candidate.  The pairs
must be recognizable among the rows put out. -/
theorem probe_same_iff (real : γ → Bool)
    (hreal : ∀ a ∈ left, ∀ b ∈ right, holds (test a b) = true → real (pair a b) = true)
    (hpad : ∀ a ∈ left, ∀ c ∈ pad a, real c = false) :
    outcome (probe (fun a => right.filter (cand a)) test pair pad left) =
        outcome (probe (fun _ => right) test pair pad left) ↔
      (∃ a ∈ left, ∃ b ∈ right, cand a b = true ∧ (test a b).isOk = false) ∨
        ∀ a ∈ left, ∀ b ∈ right, (test a b).isOk = true ∧
          (holds (test a b) = true → cand a b = true) := by
  have hnested : ∀ a ∈ left, ∀ b ∈ right, (test a b).isOk = false →
      outcome (probe (fun _ => right) test pair pad left) = none := fun _ ha _ hb hfail =>
    outcome_probe_of_not_ok ha hb hfail
  by_cases hbad : ∃ a ∈ left, ∃ b ∈ right, cand a b = true ∧ (test a b).isOk = false
  · obtain ⟨a, ha, b, hb, hcand, hfail⟩ := hbad
    have hcands : b ∈ right.filter (cand a) := List.mem_filter.mpr ⟨hb, hcand⟩
    rw [outcome_probe_of_not_ok ha hcands hfail, hnested a ha b hb hfail]
    exact iff_of_true rfl (.inl ⟨a, ha, b, hb, hcand, hfail⟩)
  have hcands : ∀ a ∈ left, ∀ b ∈ right.filter (cand a), (test a b).isOk = true := by
    intro a ha b hb
    obtain ⟨hb, hcand⟩ := List.mem_filter.mp hb
    by_contra hfail
    exact hbad ⟨a, ha, b, hb, hcand, by simpa using hfail⟩
  rw [outcome_probe_of_ok hcands, or_iff_right hbad]
  have hnestedOk : (∀ a ∈ left, ∀ b ∈ right, (test a b).isOk = true) →
      outcome (probe (fun _ => right) test pair pad left) = some _ := outcome_probe_of_ok
  constructor
  · intro hsame
    have hok : ∀ a ∈ left, ∀ b ∈ right, (test a b).isOk = true := by
      intro a ha b hb
      by_contra hfail
      rw [hnested a ha b hb (by simpa using hfail)] at hsame
      cases hsame
    rw [hnestedOk hok, Option.some.injEq, Multiset.coe_bind,
      Multiset.coe_bind, Multiset.coe_eq_coe] at hsame
    have hcount := hsame.countP_eq real
    rw [countP_emits (fun a ha b hb => ?_) hpad, countP_emits (fun a ha b hb => ?_) hpad] at hcount
    rotate_left
    · simp only [List.mem_filter] at hb
      exact hreal a ha b hb.1 hb.2
    · simp only [List.mem_filter] at hb
      exact hreal a ha b hb.1.1 hb.2
    -- a pair that passes and is no candidate would make the count of its row smaller
    have hle : ∀ a ∈ left, ((right.filter (cand a)).filter fun b => holds (test a b)).length ≤
        (right.filter fun b => holds (test a b)).length := fun a _ =>
      (List.filter_sublist.filter _).length_le
    intro a ha b hb
    refine ⟨hok a ha b hb, fun hholds => ?_⟩
    by_contra hcand
    refine absurd hcount (Nat.ne_of_lt (List.sum_lt_sum _ _ hle ⟨a, ha, ?_⟩))
    refine lt_of_le_of_ne (hle a ha) fun hlen => hcand ?_
    have heq := (List.filter_sublist.filter fun b => holds (test a b)).eq_of_length hlen
    have hmem : b ∈ right.filter fun b => holds (test a b) := List.mem_filter.mpr ⟨hb, hholds⟩
    rw [← heq] at hmem
    exact (List.mem_filter.mp (List.mem_filter.mp hmem).1).2
  · intro hall
    rw [hnestedOk fun a ha b hb => (hall a ha b hb).1]
    refine congrArg some (Multiset.bind_congr fun a ha => ?_)
    rw [List.filter_filter]
    refine congrArg (fun hits : List β => (emit pair pad a hits : Multiset γ))
      (List.filter_congr fun b hb => ?_)
    have hb' := hall a ha b hb
    cases hh : holds (test a b) with
    | false => rfl
    | true => simp [hb'.2 hh]

end

/-! ## Probing from the other side -/

section
variable {test : α → β → Except ε Bool} {pair : α → β → γ} {left : List α} {right : List β}
  {cand : α → β → Bool}

theorem emit_nil (a : α) (hits : List β) : emit pair (fun _ => []) a hits = hits.map (pair a) := by
  cases hits <;> rfl

theorem map_filter_eq_bind {f : β → γ} {p : β → Bool} (bs : List β) :
    ((bs.filter p).map f : Multiset γ) =
      (bs : Multiset β).bind fun b => if p b then {f b} else 0 := by
  induction bs with
  | nil => rfl
  | cons b bs ih =>
    rw [← Multiset.cons_coe b bs, Multiset.cons_bind, ← ih, List.filter_cons]
    split <;> simp

/-- An inner join may take its right rows one by one instead. -/
theorem outcome_probe_swap :
    outcome (probe (fun b => left.filter fun a => cand a b) (fun b a => test a b)
        (fun b a => pair a b) (fun _ => []) right) =
      outcome (probe (fun a => right.filter (cand a)) test pair (fun _ => []) left) := by
  by_cases hbad : ∃ a ∈ left, ∃ b ∈ right, cand a b = true ∧ (test a b).isOk = false
  · obtain ⟨a, ha, b, hb, hcand, hfail⟩ := hbad
    have hb' : b ∈ right.filter (cand a) := List.mem_filter.mpr ⟨hb, hcand⟩
    have ha' : a ∈ left.filter fun a => cand a b := List.mem_filter.mpr ⟨ha, hcand⟩
    rw [outcome_probe_of_not_ok ha hb' hfail]
    exact outcome_probe_of_not_ok hb ha' hfail
  have hok : ∀ a ∈ left, ∀ b ∈ right, cand a b = true → (test a b).isOk = true := by
    intro a ha b hb hcand
    by_contra hfail
    exact hbad ⟨a, ha, b, hb, hcand, by simpa using hfail⟩
  have hswapped : outcome (probe (fun b => left.filter fun a => cand a b) (fun b a => test a b)
      (fun b a => pair a b) (fun _ => []) right) = some _ := outcome_probe_of_ok fun b hb a ha =>
    hok a (List.mem_filter.mp ha).1 b hb (List.mem_filter.mp ha).2
  rw [outcome_probe_of_ok fun a ha b hb => hok a ha b (List.mem_filter.mp hb).1
      (List.mem_filter.mp hb).2, hswapped]
  simp only [emit_nil, List.filter_filter, map_filter_eq_bind]
  exact congrArg some (Multiset.bind_bind _ _)

end

end HenchDB.Join
