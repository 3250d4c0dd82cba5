-- SUMMARY: Finite maps as lists of records with unique keys: insertion at the end, lookups, sorted listings.
import Mathlib.Data.List.Perm.Basic
import Mathlib.Order.Lattice
import Mathlib.Logic.Function.Basic
import Cheget.Base.Keyed

/-!
# Catalogs

A catalog is a list of records that carry their keys, no two of them the same
one. A record takes the place of the one with its key and goes to the end, so the
order of the list says nothing about the map; a listing sorts what it selects.
-/

namespace Keyed

variable {α κ : Type} [DecidableEq κ] {key : α → κ} {a : α} {k : κ} {xs : List α}

theorem lookup_append {ys : List α} :
    lookup key k (xs ++ ys) = (lookup key k xs).or (lookup key k ys) :=
  List.find?_append

omit [DecidableEq κ] in
theorem unique_concat (h : Unique key xs) (hnew : ∀ x ∈ xs, key x ≠ key a) : Unique key (xs ++ [a]) := by
  refine List.pairwise_append.mpr ⟨h, List.pairwise_singleton _ _, fun x hx y hy => ?_⟩
  obtain rfl := List.mem_singleton.mp hy
  exact hnew x hx

/-- In a list of unique keys, a record is in it iff it is found by its key. -/
theorem Unique.mem_iff (h : Unique key xs) : a ∈ xs ↔ lookup key (key a) xs = some a := by
  constructor
  · intro hmem
    cases hfound : lookup key (key a) xs with
    | none => exact absurd rfl (lookup_eq_none.mp hfound a hmem)
    | some x =>
        obtain ⟨before, after, rfl, -, hothers⟩ := lookup_split h hfound
        rcases List.mem_append.mp hmem with hbefore | hafter
        · exact absurd rfl (hothers a (List.mem_append_left after hbefore))
        · rcases List.mem_cons.mp hafter with rfl | hafter
          · rfl
          · exact absurd rfl (hothers a (List.mem_append_right before hafter))
  · exact fun hfound => List.mem_of_find?_eq_some hfound

end Keyed

structure Catalog {α κ : Type} (key : α → κ) where
  records : List α
  unique : Keyed.Unique key records

namespace Catalog

variable {α β κ : Type} {key : α → κ}

def empty : Catalog key := ⟨[], Keyed.unique_nil⟩

variable [DecidableEq κ]

def get (c : Catalog key) (k : κ) : Option α := Keyed.lookup key k c.records

def insert (c : Catalog key) (a : α) : Catalog key where
  records := Keyed.remove key (key a) c.records ++ [a]
  unique := by
    refine Keyed.unique_concat (c.unique.remove (key a)) (fun x hx => ?_)
    simpa [Keyed.remove] using (List.mem_filter.mp hx).2

/-- The record inserted last is the one of its key. -/
theorem get_insert (c : Catalog key) (a : α) :
    (c.insert a).get = Function.update c.get (key a) (some a) := by
  funext k
  rw [get, insert, Keyed.lookup_append, Keyed.lookup_remove, Function.update_apply]
  by_cases hk : k = key a
  · simp [hk, Keyed.lookup]
  · simp [Ne.symm hk, hk, get, Keyed.lookup]

theorem mem_records {c : Catalog key} {a : α} : a ∈ c.records ↔ c.get (key a) = some a :=
  c.unique.mem_iff

/-! ## Listings -/

/-- A list of the records of a map that `p` selects, in ascending order. -/
structure Lists (key : α → κ) (map : κ → Option α) (p : α → Prop) (before : α → α → Prop)
    (entries : List α) : Prop where
  mem_iff (a : α) : a ∈ entries ↔ map (key a) = some a ∧ p a
  ascends : entries.Pairwise before

variable {map : κ → Option α} {p p' : α → Prop} {before before' : α → α → Prop} {entries : List α}

omit [DecidableEq κ] in
theorem Lists.imp (h : Lists key map p before entries) (hp : ∀ a, p a ↔ p' a)
    (hbefore : ∀ a b, p' a → p' b → before a b → before' a b) : Lists key map p' before' entries where
  mem_iff a := (h.mem_iff a).trans (and_congr_right' (hp a))
  ascends := h.ascends.imp_of_mem (fun {a b} ha hb hab =>
    hbefore a b ((hp a).mp ((h.mem_iff a).mp ha).2) ((hp b).mp ((h.mem_iff b).mp hb).2) hab)

variable [LinearOrder β]

/-- The records that `p` selects, in the order of their ranks: where these differ, the
    order is strict. -/
theorem lists_of_perm (c : Catalog key) {p : α → Bool} {rank : α → β}
    (hrank : ∀ a b, p a = true → p b = true → rank a = rank b → key a = key b)
    (hperm : entries.Perm (c.records.filter p)) (hsorted : entries.Pairwise (fun a b => rank a ≤ rank b)) :
    Lists key c.get (fun a => p a = true) (fun a b => rank a < rank b) entries := by
  have hmem (a : α) : a ∈ entries ↔ c.get (key a) = some a ∧ p a = true := by
    rw [hperm.mem_iff, List.mem_filter, mem_records]
  refine ⟨hmem, ?_⟩
  have hkeys : entries.Pairwise (fun a b => key a ≠ key b) :=
    (hperm.pairwise_iff (fun h => Ne.symm h)).mpr (c.unique.filter p)
  refine (hsorted.and hkeys).imp_of_mem (fun {a b} ha hb h => ?_)
  refine lt_of_le_of_ne h.1 (fun heq => h.2 ?_)
  exact hrank a b ((hmem a).mp ha).2 ((hmem b).mp hb).2 heq

omit [LinearOrder β] in
/-- The records of one key are none or one. -/
theorem filter_key (c : Catalog key) (k : κ) : c.records.filter (fun a => key a = k) = (c.get k).toList := by
  unfold get
  cases hfound : Keyed.lookup key k c.records with
  | none =>
      exact List.filter_eq_nil_iff.mpr (fun a ha => by simpa using Keyed.lookup_eq_none.mp hfound a ha)
  | some a =>
      obtain ⟨before, after, hrecords, hkey, hothers⟩ := Keyed.lookup_split c.unique hfound
      have hnone : ∀ xs : List α, (∀ x ∈ xs, x ∈ before ++ after) →
          xs.filter (fun a => key a = k) = [] := fun xs hxs =>
        List.filter_eq_nil_iff.mpr (fun x hx => by simpa using hothers x (hxs x hx))
      rw [hrecords, List.filter_append, List.filter_cons_of_pos (by simpa using hkey),
        hnone before (fun x hx => List.mem_append_left after hx),
        hnone after (fun x hx => List.mem_append_right before hx), List.nil_append]
      rfl

omit [DecidableEq κ] [LinearOrder β] in
theorem eq_of_perm_toList {found : Option α} (h : entries.Perm found.toList) : entries = found.toList := by
  cases found with
  | none => exact h.eq_nil
  | some a => exact List.perm_singleton.mp h

end Catalog
