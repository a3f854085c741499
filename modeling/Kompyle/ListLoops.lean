import Mathlib.Data.List.Forall2

/-!
Lists related item by item, and loops over lists whose steps may fail.
-/

namespace ListLoops

section

variable {α β : Type*} {rel : α → β → Prop}

theorem forall₂_map_self {f : α → β} (h : ∀ x, rel x (f x)) (xs : List α) :
    List.Forall₂ rel xs (xs.map f) := by
  rw [List.forall₂_map_right_iff, List.forall₂_same]
  exact fun x _ => h x

theorem exists_of_forall₂ {xs : List α} {ys : List β} (h : List.Forall₂ rel xs ys) {y : β}
    (hy : y ∈ ys) : ∃ x ∈ xs, rel x y := by
  induction h with
  | nil => cases hy
  | @cons x z xs ys hx _ ih =>
    rcases List.mem_cons.mp hy with rfl | hy
    · exact ⟨x, List.mem_cons_self, hx⟩
    · obtain ⟨w, hw, hrel⟩ := ih hy
      exact ⟨w, List.mem_cons_of_mem x hw, hrel⟩

end

variable {α β ε : Type*} {f : α → Except ε β} {g : α → β} {xs : List α}

theorem mapM_of_forall_ok (h : ∀ a ∈ xs, f a = .ok (g a)) : xs.mapM f = .ok (xs.map g) := by
  induction xs with
  | nil => rfl
  | cons a xs ih =>
    obtain ⟨ha, hxs⟩ := List.forall_mem_cons.mp h
    rw [List.mapM_cons, ha, ih hxs]
    rfl

theorem foldlM_of_forall_ok {step : β → α → Except ε β} {next : β → α → β}
    (h : ∀ a ∈ xs, ∀ b, step b a = .ok (next b a)) (b : β) :
    xs.foldlM step b = .ok (xs.foldl next b) := by
  induction xs generalizing b with
  | nil => rfl
  | cons a xs ih =>
    obtain ⟨ha, hxs⟩ := List.forall_mem_cons.mp h
    rw [List.foldlM_cons, ha]
    exact ih hxs (next b a)

theorem forall_of_mapM_ok {P : α → Prop} (hf : ∀ a b, f a = .ok b → P a ∧ b = g a)
    {ys : List β} (h : xs.mapM f = .ok ys) : (∀ a ∈ xs, P a) ∧ ys = xs.map g := by
  induction xs generalizing ys with
  | nil =>
    cases h
    exact ⟨by simp, rfl⟩
  | cons a xs ih =>
    rw [List.mapM_cons] at h
    cases ha : f a with
    | error e =>
      rw [ha] at h
      cases h
    | ok b =>
      cases hxs : xs.mapM f with
      | error e =>
        rw [ha, hxs] at h
        cases h
      | ok zs =>
        rw [ha, hxs] at h
        cases h
        obtain ⟨hP, rfl⟩ := hf a b ha
        obtain ⟨hall, rfl⟩ := ih hxs
        exact ⟨List.forall_mem_cons.mpr ⟨hP, hall⟩, rfl⟩

end ListLoops
