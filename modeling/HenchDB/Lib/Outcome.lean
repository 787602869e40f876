import Mathlib.Tactic

/-!
# Computations that have succeeded

What is known of the parts of a computation whose result is a value: each of them has
succeeded too.
-/

namespace Outcome

variable {ε α β : Type}

variable {f : α → Except ε β}

theorem bind_ok {x : Except ε α} {b : β} (h : x >>= f = .ok b) :
    ∃ a, x = .ok a ∧ f a = .ok b := by
  cases x with
  | error e => cases h
  | ok a => exact ⟨a, rfl, h⟩

/-- A loop that has succeeded has done what it does at each element. -/
theorem mapM_ok {g : α → β} {P : α → Prop} (h : ∀ a b, f a = .ok b → P a ∧ b = g a) :
    ∀ {l : List α} {bs : List β}, l.mapM f = .ok bs → (∀ a ∈ l, P a) ∧ bs = l.map g
  | [], _, hrun => by
    cases hrun
    exact ⟨by simp, rfl⟩
  | a :: l, bs, hrun => by
    rw [List.mapM_cons] at hrun
    obtain ⟨b, ha, hrun⟩ := bind_ok hrun
    obtain ⟨cs, hl, hrun⟩ := bind_ok hrun
    obtain ⟨hP, rfl⟩ := h a b ha
    obtain ⟨hl', rfl⟩ := mapM_ok h hl
    cases hrun
    exact ⟨List.forall_mem_cons.2 ⟨hP, hl'⟩, rfl⟩

/-- What a loop returns, element by element. -/
theorem mapM_ok_iff :
    ∀ {l : List α} {bs : List β}, l.mapM f = .ok bs ↔ List.Forall₂ (fun a b => f a = .ok b) l bs
  | [], bs => by
    constructor
    · intro h
      cases h
      exact .nil
    · rintro ⟨⟩
      rfl
  | a :: l, bs => by
    rw [List.mapM_cons]
    constructor
    · intro h
      obtain ⟨b, hb, h⟩ := bind_ok h
      obtain ⟨bs', hbs, h⟩ := bind_ok h
      cases h
      exact .cons hb (mapM_ok_iff.mp hbs)
    · rintro (_ | ⟨hb, hbs⟩)
      rw [hb, mapM_ok_iff.mpr hbs]
      rfl

/-- A loop succeeds just if it does at each element. -/
theorem exists_mapM_ok :
    ∀ {l : List α}, (∃ bs, l.mapM f = .ok bs) ↔ ∀ a ∈ l, ∃ b, f a = .ok b
  | [] => ⟨fun _ a ha => absurd ha List.not_mem_nil, fun _ => ⟨[], rfl⟩⟩
  | a :: l => by
    simp only [mapM_ok_iff, List.mem_cons, forall_eq_or_imp]
    constructor
    · rintro ⟨bs, h⟩
      cases h with
      | cons hb hbs => exact ⟨⟨_, hb⟩, exists_mapM_ok.mp ⟨_, mapM_ok_iff.mpr hbs⟩⟩
    · rintro ⟨⟨b, hb⟩, hl⟩
      obtain ⟨bs, hbs⟩ := exists_mapM_ok.mpr hl
      exact ⟨b :: bs, .cons hb (mapM_ok_iff.mp hbs)⟩

theorem forM_ok {f : α → Except ε Unit} : ∀ {l : List α},
    l.forM f = .ok () ↔ ∀ a ∈ l, f a = .ok ()
  | [] => ⟨fun _ a ha => absurd ha List.not_mem_nil, fun _ => rfl⟩
  | a :: l => by
    rw [List.forM, List.forall_mem_cons, ← forM_ok]
    constructor
    · intro h
      obtain ⟨_, ha, hl⟩ := bind_ok h
      exact ⟨ha, hl⟩
    · rintro ⟨ha, hl⟩
      rw [ha]
      exact hl

theorem mem_of_mapM_ok {l : List α} {bs : List β} (h : l.mapM f = .ok bs) {b : β} :
    b ∈ bs ↔ ∃ a ∈ l, f a = .ok b := by
  have hall := mapM_ok_iff.mp h
  clear h
  induction hall with
  | nil => simp
  | cons hb _ ih =>
    simp only [List.mem_cons, exists_eq_or_imp, ih, hb, Except.ok.injEq]
    exact or_congr_left eq_comm

section
variable {R : α → β → Prop}

theorem exists_of_forall₂_left : ∀ {l : List α} {l' : List β}, List.Forall₂ R l l' →
    ∀ a ∈ l, ∃ b ∈ l', R a b
  | _, _, .cons hab hrest, a, ha => by
    rcases List.mem_cons.mp ha with rfl | ha
    · exact ⟨_, List.mem_cons_self, hab⟩
    · obtain ⟨b, hb, hR⟩ := exists_of_forall₂_left hrest a ha
      exact ⟨b, List.mem_cons_of_mem _ hb, hR⟩

theorem exists_of_forall₂_right {l : List α} {l' : List β} (h : List.Forall₂ R l l') :
    ∀ b ∈ l', ∃ a ∈ l, R a b := exists_of_forall₂_left h.flip

theorem exists_forall₂ : ∀ {l : List α}, (∀ a ∈ l, ∃ b, R a b) → ∃ l', List.Forall₂ R l l'
  | [], _ => ⟨[], .nil⟩
  | a :: l, h => by
    obtain ⟨b, hb⟩ := h a List.mem_cons_self
    obtain ⟨l', hl'⟩ := exists_forall₂ fun c hc => h c (List.mem_cons_of_mem _ hc)
    exact ⟨b :: l', .cons hb hl'⟩

end

/-- A loop finds nothing just if it finds nothing at any element. -/
theorem mapM_flatten_nil_iff {f : α → Except ε (List β)} {l : List α} :
    (∃ found, l.mapM f = .ok found ∧ found.flatten = []) ↔ ∀ a ∈ l, f a = .ok [] := by
  constructor
  · rintro ⟨found, hrun, hnil⟩ a ha
    obtain ⟨b, hb, hfa⟩ := exists_of_forall₂_left (mapM_ok_iff.mp hrun) a ha
    rw [hfa, List.flatten_eq_nil_iff.mp hnil b hb]
  · intro h
    obtain ⟨found, hrun⟩ := exists_mapM_ok.mpr fun a ha => ⟨[], h a ha⟩
    refine ⟨found, hrun, List.flatten_eq_nil_iff.mpr fun b hb => ?_⟩
    obtain ⟨a, ha, hfa⟩ := (mem_of_mapM_ok hrun).mp hb
    exact (Except.ok.inj ((h a ha).symm.trans hfa)).symm

/-- What every step of a fold keeps, the fold keeps. -/
theorem foldlM_keeps {f : β → α → Except ε β} {P : β → Prop} :
    ∀ {l : List α} {b b' : β}, (∀ a ∈ l, ∀ c c', f c a = .ok c' → P c → P c') →
      l.foldlM f b = .ok b' → P b → P b'
  | [], b, b', _, hrun, hb => by
    cases hrun
    exact hb
  | a :: l, b, b', h, hrun, hb => by
    rw [List.foldlM_cons] at hrun
    obtain ⟨c, hc, hrun⟩ := bind_ok hrun
    exact foldlM_keeps (fun a' ha' => h a' (by simp [ha'])) hrun (h a (by simp) b c hc hb)

end Outcome
