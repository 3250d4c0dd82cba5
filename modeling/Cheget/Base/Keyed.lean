-- SUMMARY: Lists whose members have keys as finite maps: insertion in place, removal, and the order of the others.
import Mathlib.Data.List.Basic

/-!
# Keyed lists

A list of records that carry their own keys is a finite map as long as no key
occurs twice. An update stays in the place of the record that it replaces, and a
removal keeps the order of the rest.
-/

namespace Keyed

variable {α κ : Type} [DecidableEq κ] (key : α → κ)

/-- Put a record in the place of the first with its key, or at the end. -/
def put (a : α) : List α → List α
  | [] => [a]
  | x :: xs => if key x = key a then a :: xs else x :: put a xs

def lookup (k : κ) (xs : List α) : Option α := xs.find? (fun x => key x = k)

def remove (k : κ) (xs : List α) : List α := xs.filter (fun x => key x ≠ k)

/-- No key occurs twice. -/
def Unique (xs : List α) : Prop := xs.Pairwise (fun a b => key a ≠ key b)

variable {key} {a : α} {k k' : κ} {xs : List α}

omit [DecidableEq κ] in
theorem unique_nil : Unique key [] := List.Pairwise.nil

theorem mem_put {x : α} (h : x ∈ put key a xs) : x = a ∨ x ∈ xs := by
  induction xs with
  | nil => exact Or.inl (List.mem_singleton.mp h)
  | cons y xs ih =>
      unfold put at h
      split at h
      · exact (List.mem_cons.mp h).imp_right (List.mem_cons_of_mem y)
      · rcases List.mem_cons.mp h with rfl | hmem
        · exact Or.inr List.mem_cons_self
        · exact (ih hmem).imp_right (List.mem_cons_of_mem y)

theorem Unique.put (h : Unique key xs) : Unique key (put key a xs) := by
  induction xs with
  | nil => exact List.pairwise_singleton _ _
  | cons x xs ih =>
      obtain ⟨hx, hxs⟩ := List.pairwise_cons.mp h
      unfold Keyed.put
      split
      · next heq =>
          refine List.pairwise_cons.mpr ⟨fun y hy => ?_, hxs⟩
          rw [← heq]
          exact hx y hy
      · next hne =>
          refine List.pairwise_cons.mpr ⟨fun y hy => ?_, ih hxs⟩
          rcases mem_put hy with rfl | hmem
          · exact hne
          · exact hx y hmem

theorem Unique.remove (h : Unique key xs) (k : κ) : Unique key (remove key k xs) := h.filter _

theorem lookup_put : lookup key k (put key a xs) = if key a = k then some a else lookup key k xs := by
  induction xs with
  | nil => by_cases hak : key a = k <;> simp [lookup, put, hak]
  | cons x xs ih =>
      unfold lookup at ih ⊢
      by_cases hxa : key x = key a
      · by_cases hak : key a = k <;> simp [put, hxa, hak]
      · by_cases hxk : key x = k
        · have hak : key a ≠ k := fun hak => hxa (hxk.trans hak.symm)
          simp [put, hxk, hak, Ne.symm hak]
        · simp [put, hxa, hxk, ih]

theorem lookup_remove : lookup key k' (remove key k xs) = if k = k' then none else lookup key k' xs := by
  induction xs with
  | nil => simp [lookup, remove]
  | cons x xs ih =>
      unfold lookup remove at ih ⊢
      by_cases hxk : key x = k
      · by_cases hkk : k = k'
        · simp [hxk, hkk]
        · simpa [hxk, hkk] using ih
      · by_cases hxk' : key x = k'
        · have hkk : k ≠ k' := fun hkk => hxk (hxk'.trans hkk.symm)
          simp [hxk', hkk, Ne.symm hkk]
        · simpa [hxk, hxk'] using ih

/-- A record that was put is put again as if for the first time. -/
theorem put_put {b : α} (h : key a = key b) : put key a (put key b xs) = put key a xs := by
  induction xs with
  | nil => exact if_pos h.symm
  | cons x xs ih =>
      by_cases hx : key x = key b
      · simp [put, hx, h]
      · simp [put, hx, h, ih]

/-- Records are put by their keys: a map that respects keys respects updates. -/
theorem map_put {β κ' : Type} [DecidableEq κ'] (key' : β → κ') {f : α → β} {g : κ → κ'}
    (hg : Function.Injective g) (hf : ∀ x, key' (f x) = g (key x)) :
    (put key a xs).map f = put key' (f a) (xs.map f) := by
  induction xs with
  | nil => rfl
  | cons x xs ih =>
      by_cases hx : key x = key a
      · simp [put, hf, hx]
      · simp [put, hf, hg.eq_iff, hx, ih]

theorem lookup_eq_none : lookup key k xs = none ↔ ∀ x ∈ xs, key x ≠ k := by
  simp [lookup]

/-- A record that is found cuts the list in two, neither of which has another of
    its key if keys occur once. -/
theorem lookup_split {x : α} (h : Unique key xs) (hx : lookup key k xs = some x) :
    ∃ before after, xs = before ++ x :: after ∧ key x = k ∧ ∀ y ∈ before ++ after, key y ≠ k := by
  obtain ⟨hkey, before, after, rfl, hbefore⟩ := List.find?_eq_some_iff_append.mp hx
  have hkey' : key x = k := by simpa using hkey
  refine ⟨before, after, rfl, hkey', fun y hy => ?_⟩
  have hafter := (List.pairwise_cons.mp (List.pairwise_append.mp h).2.1).1
  rcases List.mem_append.mp hy with hy | hy
  · simpa using hbefore y hy
  · exact fun heq => hafter y hy (hkey'.trans heq.symm)

theorem put_of_forall_ne (h : ∀ x ∈ xs, key x ≠ key a) : put key a xs = xs ++ [a] := by
  induction xs with
  | nil => rfl
  | cons x xs ih =>
      rw [put, if_neg (h x List.mem_cons_self), ih (fun y hy => h y (List.mem_cons_of_mem x hy)),
        List.cons_append]

/-- A replaced record leaves its place to the new one. -/
theorem put_split {x : α} {before after : List α} (hx : key x = key a)
    (hbefore : ∀ y ∈ before, key y ≠ key a) :
    put key a (before ++ x :: after) = before ++ a :: after := by
  induction before with
  | nil => exact if_pos hx
  | cons y before ih =>
      rw [List.cons_append, put, if_neg (hbefore y List.mem_cons_self),
        ih (fun z hz => hbefore z (List.mem_cons_of_mem y hz)), List.cons_append]

theorem remove_of_forall_ne (h : ∀ x ∈ xs, key x ≠ k) : remove key k xs = xs :=
  List.filter_eq_self.mpr (fun x hx => by simpa using h x hx)

/-- What is left without a record keeps its order. -/
theorem remove_split {x : α} {before after : List α} (hx : key x = k)
    (hothers : ∀ y ∈ before ++ after, key y ≠ k) : remove key k (before ++ x :: after) = before ++ after := by
  have hrest := remove_of_forall_ne hothers
  unfold remove at hrest ⊢
  rw [List.filter_append] at hrest
  rw [List.filter_append, List.filter_cons_of_neg (by simpa using hx), hrest]

end Keyed
