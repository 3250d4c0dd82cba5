-- SUMMARY: Mapping a list in contiguous blocks, each processed in order from a copy of one state of its own.
import Mathlib.Data.List.Basic

/-!
# Parallel maps with a state

A parallel map cuts its input into contiguous blocks. Each block is processed
in order by one worker, which starts from its own copy of a given state and
passes the state from item to item; the results keep the order of the input. A
worker may panic, and then the map does.
-/

namespace Parallel

variable {α β σ : Type}

/-- Cut a list into blocks of the given sizes; the last block is what remains. -/
def cut : List Nat → List α → List (List α)
  | [], xs => [xs]
  | n :: sizes, xs => xs.take n :: cut sizes (xs.drop n)

theorem flatten_cut (sizes : List Nat) (xs : List α) : (cut sizes xs).flatten = xs := by
  induction sizes generalizing xs with
  | nil => simp [cut]
  | cons n sizes ih => rw [cut, List.flatten_cons, ih, List.take_append_drop]

/-- Process one block; `none` is a panic. -/
def mapBlock (f : σ → α → Option (β × σ)) : σ → List α → Option (List β)
  | _, [] => some []
  | s, x :: xs =>
      match f s x with
      | none => none
      | some (y, s') => (mapBlock f s' xs).map (y :: ·)

/-- Process all blocks, each from its own copy of `s`. -/
def mapBlocks (f : σ → α → Option (β × σ)) (s : σ) : List (List α) → Option (List β)
  | [] => some []
  | block :: blocks =>
      match mapBlock f s block with
      | none => none
      | some ys => (mapBlocks f s blocks).map (ys ++ ·)

/-- The parallel map, with the block sizes that the scheduler chose. -/
def mapWith (sizes : List Nat) (f : σ → α → Option (β × σ)) (s : σ) (xs : List α) :
    Option (List β) :=
  mapBlocks f s (cut sizes xs)

variable {f : σ → α → Option (β × σ)} {g : α → β} {s : σ}

theorem mapBlock_eq_map {xs : List α} (h : ∀ x ∈ xs, f s x = some (g x, s)) :
    mapBlock f s xs = some (xs.map g) := by
  induction xs with
  | nil => rfl
  | cons x xs ih =>
      rw [mapBlock, h x List.mem_cons_self]
      simp only [ih (fun y hy => h y (List.mem_cons_of_mem x hy)), Option.map_some, List.map_cons]

theorem mapBlocks_eq_map {blocks : List (List α)}
    (h : ∀ x ∈ blocks.flatten, f s x = some (g x, s)) :
    mapBlocks f s blocks = some (blocks.flatten.map g) := by
  induction blocks with
  | nil => rfl
  | cons block blocks ih =>
      rw [List.flatten_cons] at h ⊢
      rw [mapBlocks, mapBlock_eq_map (fun x hx => h x (List.mem_append_left _ hx))]
      simp only [ih (fun x hx => h x (List.mem_append_right _ hx)), Option.map_some,
        List.map_append]

/-- If every item hands the state on as it was, the map is the sequential one,
    however the input is cut. -/
theorem mapWith_eq_map {sizes : List Nat} {xs : List α}
    (h : ∀ x ∈ xs, f s x = some (g x, s)) : mapWith sizes f s xs = some (xs.map g) := by
  have hflat := flatten_cut sizes xs
  rw [mapWith, mapBlocks_eq_map (by rwa [hflat]), hflat]

/-! ## Early exits -/

/-- Two lists that agree up to and including the first item at which one stops. -/
inductive AgreeUntil (stop : β → Prop) : List β → List β → Prop
  | nil : AgreeUntil stop [] []
  | cons (y : β) {ys zs : List β} : AgreeUntil stop ys zs → AgreeUntil stop (y :: ys) (y :: zs)
  | stop {y : β} (ys zs : List β) : stop y → AgreeUntil stop (y :: ys) (y :: zs)

theorem AgreeUntil.append {stop : β → Prop} {ys zs ys' zs' : List β} (h : AgreeUntil stop ys zs)
    (h' : AgreeUntil stop ys' zs') : AgreeUntil stop (ys ++ ys') (zs ++ zs') := by
  induction h with
  | nil => exact h'
  | cons y _ ih => exact ih.cons y
  | stop ys zs hy => exact .stop _ _ hy

/-- A loop that ends with an error at such an item cannot tell the lists apart. -/
theorem AgreeUntil.foldlM_eq {ε γ : Type} {stop : β → Prop} {ys zs : List β}
    (h : AgreeUntil stop ys zs) {step : γ → β → Except ε γ}
    (hstop : ∀ c y, stop y → ∃ e, step c y = .error e) (c : γ) :
    ys.foldlM step c = zs.foldlM step c := by
  induction h generalizing c with
  | nil => rfl
  | cons y _ ih =>
      rw [List.foldlM_cons, List.foldlM_cons]
      exact bind_congr ih
  | stop ys zs hy =>
      obtain ⟨e, he⟩ := hstop c _ hy
      rw [List.foldlM_cons, List.foldlM_cons, he]
      rfl

section Resilient

variable {F : σ → List α → Prop} {stop : β → Prop}

/-- A worker whose state fits the items it has left does not panic. -/
theorem mapBlock_isSome (hfit : ∀ s x xs, F s (x :: xs) → ∃ y s', f s x = some (y, s') ∧ F s' xs)
    {xs : List α} (h : F s xs) : ∃ ys, mapBlock f s xs = some ys := by
  induction xs generalizing s with
  | nil => exact ⟨[], rfl⟩
  | cons x xs ih =>
      obtain ⟨y, s', hf, h'⟩ := hfit s x xs h
      obtain ⟨ys, hys⟩ := ih h'
      exact ⟨y :: ys, by simp only [mapBlock, hf, hys, Option.map_some]⟩

/-- A worker that hands its state on as it was until it stops computes what is
    computed from that state, up to and including the item at which it stops. -/
theorem mapBlock_agree (hfit : ∀ s x xs, F s (x :: xs) → ∃ y s', f s x = some (y, s') ∧ F s' xs)
    {xs : List α} (h : F s xs)
    (hf : ∀ x ∈ xs, ∃ s', f s x = some (g x, s') ∧ (¬ stop (g x) → s' = s)) :
    ∃ ys, mapBlock f s xs = some ys ∧ AgreeUntil stop ys (xs.map g) := by
  induction xs with
  | nil => exact ⟨[], rfl, .nil⟩
  | cons x xs ih =>
      obtain ⟨s', hx, hkeep⟩ := hf x List.mem_cons_self
      obtain ⟨y, s'', hx', h'⟩ := hfit s x xs h
      obtain ⟨-, rfl⟩ := Prod.mk.inj (Option.some.inj (hx.symm.trans hx'))
      by_cases hstop : stop (g x)
      · obtain ⟨ys, hys⟩ := mapBlock_isSome hfit h'
        exact ⟨g x :: ys, by simp only [mapBlock, hx, hys, Option.map_some], .stop _ _ hstop⟩
      · obtain rfl := hkeep hstop
        obtain ⟨ys, hys, hagree⟩ := ih h' (fun y hy => hf y (List.mem_cons_of_mem x hy))
        exact ⟨g x :: ys, by simp only [mapBlock, hx, hys, Option.map_some], hagree.cons _⟩

theorem mapBlocks_agree (hfit : ∀ s x xs, F s (x :: xs) → ∃ y s', f s x = some (y, s') ∧ F s' xs)
    {blocks : List (List α)} (h : ∀ block ∈ blocks, F s block)
    (hf : ∀ x ∈ blocks.flatten, ∃ s', f s x = some (g x, s') ∧ (¬ stop (g x) → s' = s)) :
    ∃ ys, mapBlocks f s blocks = some ys ∧ AgreeUntil stop ys (blocks.flatten.map g) := by
  induction blocks with
  | nil => exact ⟨[], rfl, .nil⟩
  | cons block blocks ih =>
      rw [List.flatten_cons] at hf ⊢
      obtain ⟨ys, hys, hagree⟩ := mapBlock_agree hfit (h block List.mem_cons_self)
        (fun x hx => hf x (List.mem_append_left _ hx))
      obtain ⟨zs, hzs, hagree'⟩ := ih (fun b hb => h b (List.mem_cons_of_mem _ hb))
        (fun x hx => hf x (List.mem_append_right _ hx))
      refine ⟨ys ++ zs, by simp only [mapBlocks, hys, hzs, Option.map_some], ?_⟩
      rw [List.map_append]
      exact hagree.append hagree'

/-- However the input is cut, the map agrees with the sequential one up to and
    including the first item at which that stops. -/
theorem mapWith_agree (hfit : ∀ s x xs, F s (x :: xs) → ∃ y s', f s x = some (y, s') ∧ F s' xs)
    {sizes : List Nat} {xs : List α} (h : ∀ block ∈ cut sizes xs, F s block)
    (hf : ∀ x ∈ xs, ∃ s', f s x = some (g x, s') ∧ (¬ stop (g x) → s' = s)) :
    ∃ ys, mapWith sizes f s xs = some ys ∧ AgreeUntil stop ys (xs.map g) := by
  have hflat := flatten_cut sizes xs
  have hall := mapBlocks_agree hfit h (by rwa [hflat])
  rwa [hflat] at hall

end Resilient

end Parallel
