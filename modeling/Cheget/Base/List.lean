-- SUMMARY: Members of lists that a relation pairs off, and of sorted lists without their repetitions.
import Mathlib.Data.List.Destutter
import Mathlib.Data.List.Forall2
import Mathlib.Data.List.Sort

namespace List

variable {α β : Type} {R : α → β → Prop} {xs : List α} {ys : List β}

theorem Forall₂.exists_right (h : Forall₂ R xs ys) {x : α} (hx : x ∈ xs) : ∃ y ∈ ys, R x y := by
  induction h with
  | nil => cases hx
  | cons hab hrest ih =>
      rcases List.mem_cons.mp hx with rfl | hx
      · exact ⟨_, List.mem_cons_self, hab⟩
      · obtain ⟨y, hy, hR⟩ := ih hx
        exact ⟨y, List.mem_cons_of_mem _ hy, hR⟩

theorem Forall₂.exists_left (h : Forall₂ R xs ys) {y : β} (hy : y ∈ ys) : ∃ x ∈ xs, R x y := by
  obtain ⟨x, hx, hR⟩ := h.flip.exists_right hy
  exact ⟨x, hx, hR⟩

/-- What is paired with a part of a list is a part of what is paired with the list. -/
theorem Forall₂.exists_sublist (h : Forall₂ R xs ys) {xs' : List α} (hsub : xs'.Sublist xs) :
    ∃ ys' : List β, ys'.Sublist ys ∧ Forall₂ R xs' ys' := by
  induction hsub generalizing ys with
  | slnil =>
      cases h
      exact ⟨[], List.Sublist.slnil, .nil⟩
  | cons x hsub ih =>
      cases h with
      | cons hab hrest =>
          obtain ⟨ys', hys', hR⟩ := ih hrest
          exact ⟨ys', hys'.cons _, hR⟩
  | cons_cons x hsub ih =>
      cases h with
      | cons hab hrest =>
          obtain ⟨ys', hys', hR⟩ := ih hrest
          exact ⟨_ :: ys', hys'.cons_cons _, .cons hab hR⟩

/-! ## Sorting and removing repetitions -/

theorem mem_destutter'_ne [DecidableEq α] {a b : α} {l : List α} :
    a ∈ l.destutter' (· ≠ ·) b ↔ a ∈ b :: l := by
  induction l generalizing b with
  | nil => simp
  | cons c l ih =>
      by_cases hbc : b = c
      · subst hbc
        rw [destutter'_cons_neg _ (by simp), ih]
        simp
      · rw [destutter'_cons_pos _ hbc, mem_cons, ih, mem_cons (a := a) (b := b)]

theorem mem_destutter_ne [DecidableEq α] {a : α} {l : List α} :
    a ∈ l.destutter (· ≠ ·) ↔ a ∈ l := by
  cases l with
  | nil => rfl
  | cons b l => exact mem_destutter'_ne

/-- Removing repetitions from a sorted list leaves no repetition at all. -/
theorem pairwise_destutter_ne [LinearOrder α] [DecidableEq α] {l : List α} (h : l.Pairwise (· ≤ ·)) :
    (l.destutter (· ≠ ·)).Pairwise (· < ·) := by
  have general : ∀ (l : List α) (b : α), (b :: l).Pairwise (· ≤ ·) →
      (l.destutter' (· ≠ ·) b).Pairwise (· < ·) := by
    intro l
    induction l with
    | nil => intro b _; simp
    | cons c l ih =>
        intro b hb
        obtain ⟨hle, htail⟩ := pairwise_cons.mp hb
        by_cases hbc : b = c
        · subst hbc
          rw [destutter'_cons_neg _ (by simp)]
          exact ih b htail
        · rw [destutter'_cons_pos _ hbc, pairwise_cons]
          refine ⟨fun x hx => ?_, ih c htail⟩
          have hlt : b < c := lt_of_le_of_ne (hle c mem_cons_self) hbc
          rcases mem_cons.mp (mem_destutter'_ne.mp hx) with rfl | hx
          · exact hlt
          · exact hlt.trans_le ((pairwise_cons.mp htail).1 x hx)
  cases l with
  | nil => exact Pairwise.nil
  | cons b l => exact general l b h

end List
