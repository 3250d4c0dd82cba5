-- SUMMARY: Ordered maps over a linear order, and what collecting a list of messages into one leaves in it.
import Cheget.Base.Except
import Mathlib.Data.List.Induction
import Mathlib.Data.List.Sort

/-!
# Ordered maps

`BTreeMap` is the extensional tree map of the standard library at the
comparison of a linear order: iteration is by ascending key. The part that is
specific to programs here is `collect`, the loop that decodes a list of
messages one by one and files each under its key, later messages replacing
earlier ones.
-/

abbrev BTreeMap (κ α : Type) [LinearOrder κ] := Std.ExtTreeMap κ α compare

instance BTreeMap.transCmp {κ : Type} [LinearOrder κ] :
    Std.TransCmp (compare : κ → κ → Ordering) := inferInstance

instance BTreeMap.lawfulEqCmp {κ : Type} [LinearOrder κ] :
    Std.LawfulEqCmp (compare : κ → κ → Ordering) where
  eq_of_compare h := compare_eq_iff_eq.mp h

namespace BTreeMap

variable {κ α β ε : Type} [LinearOrder κ]

/-- Iteration is by strictly ascending key. -/
theorem pairwise_toList (m : BTreeMap κ α) : m.toList.Pairwise (fun a b => a.1 < b.1) := by
  simpa only [compare_lt_iff_lt] using Std.ExtTreeMap.ordered_keys_toList (t := m)

theorem mem_toList {m : BTreeMap κ α} {k : κ} {v : α} : (k, v) ∈ m.toList ↔ m[k]? = some v :=
  Std.ExtTreeMap.mem_toList_iff_getElem?_eq_some

theorem nodup_toList (m : BTreeMap κ α) : m.toList.Nodup :=
  (pairwise_toList m).imp (fun h heq => absurd (congrArg Prod.fst heq) h.ne)

theorem ext_getElem? {m m' : BTreeMap κ α} (h : ∀ k : κ, m[k]? = m'[k]?) : m = m' :=
  Std.ExtTreeMap.ext_getElem? (fun {k} => h k)

theorem mem_keys {m : BTreeMap κ α} {k : κ} : k ∈ m.keys ↔ ∃ v, m[k]? = some v := by
  rw [Std.ExtTreeMap.mem_keys, Std.ExtTreeMap.mem_iff_isSome_getElem?, Option.isSome_iff_exists]

@[simp] theorem getElem?_insert (m : BTreeMap κ α) (k k' : κ) (v : α) :
    (m.insert k v)[k']? = if k = k' then some v else m[k']? := by
  rw [Std.ExtTreeMap.getElem?_insert]
  simp only [Std.compare_eq_iff_eq]

@[simp] theorem getElem?_insertIfNew (m : BTreeMap κ α) (k k' : κ) (v : α) :
    (m.insertIfNew k v)[k']? = if k = k' ∧ m[k]? = none then some v else m[k']? := by
  rw [Std.ExtTreeMap.getElem?_insertIfNew]
  simp only [Std.compare_eq_iff_eq, getElem?_eq_none_iff]

@[simp] theorem getElem?_erase (m : BTreeMap κ α) (k k' : κ) :
    (m.erase k)[k']? = if k = k' then none else m[k']? := by
  rw [Std.ExtTreeMap.getElem?_erase]
  simp only [Std.compare_eq_iff_eq]

theorem getElem?_filter (m : BTreeMap κ α) (f : κ → Bool) (k : κ) :
    (m.filter (fun k _ => f k))[k]? = if f k then m[k]? else none := by
  rw [Std.ExtTreeMap.getElem?_filter']
  cases m[k]? with
  | none => simp
  | some v => simp [Option.filter]

/-- Taking an entry out and putting it back changes nothing. -/
theorem insert_erase_self {m : BTreeMap κ α} {k : κ} {v : α} (h : m[k]? = some v) :
    (m.erase k).insert k v = m := by
  apply ext_getElem?
  intro k'
  by_cases hk : k = k'
  · subst hk
    simp [h]
  · simp [hk]

/-- The keys in ascending order are determined by which they are. -/
theorem keys_eq_of_mem {m : BTreeMap κ α} {keys : List κ} (hmem : ∀ k, k ∈ m.keys ↔ k ∈ keys)
    (hsorted : keys.Pairwise (· < ·)) : m.keys = keys := by
  have hkeys : m.keys.Pairwise (· < ·) := by
    rw [← Std.ExtTreeMap.map_fst_toList_eq_keys]
    exact List.pairwise_map.mpr (pairwise_toList m)
  have hperm : m.keys.Perm keys :=
    (List.perm_ext_iff_of_nodup (hkeys.imp (fun h => h.ne)) (hsorted.imp (fun h => h.ne))).mpr hmem
  exact hperm.eq_of_pairwise (fun a b _ _ hab hba => absurd hba hab.asymm) hkeys hsorted

/-! ## Maps of lists -/

/-- What a map of a list holds is in the list. -/
theorem mem_of_getElem?_ofList {xs : List (κ × α)} {k : κ} {v : α}
    (h : (Std.ExtTreeMap.ofList xs compare)[k]? = some v) : (k, v) ∈ xs := by
  rw [Std.ExtTreeMap.ofList_eq_foldl] at h
  induction xs using List.reverseRecOn with
  | nil => simp at h
  | append_singleton xs x ih =>
      rw [List.foldl_append, List.foldl_cons, List.foldl_nil, getElem?_insert] at h
      split at h
      · next hk =>
          cases h
          simp [← hk]
      · exact List.mem_append_left _ (ih h)

theorem size_ofList {xs : List (κ × α)} (h : (xs.map Prod.fst).Nodup) :
    (Std.ExtTreeMap.ofList xs compare).size = xs.length := by
  apply Std.ExtTreeMap.size_ofList
  rw [List.Nodup, List.pairwise_map] at h
  exact h.imp (fun hne heq => hne (compare_eq_iff_eq.mp heq))

/-! ## Tabulated maps -/

/-- The map has exactly these keys, with the values of a function. -/
def Tabulates (m : BTreeMap κ α) (keys : List κ) (φ : κ → α) : Prop :=
  ∀ k, m[k]? = if k ∈ keys then some (φ k) else none

namespace Tabulates

variable {m : BTreeMap κ α} {keys : List κ} {φ : κ → α}

theorem empty (φ : κ → α) : Tabulates ∅ [] φ := by
  intro k
  simp

theorem insert_snoc (h : Tabulates m keys φ) (k : κ) :
    Tabulates (m.insert k (φ k)) (keys ++ [k]) φ := by
  intro k'
  by_cases hk : k = k'
  · subst hk
    simp
  · simp [hk, h k', Ne.symm hk]

theorem erase (h : Tabulates m keys φ) {k : κ} {others : List κ}
    (hothers : ∀ k', k' ∈ others ↔ k' ∈ keys ∧ k' ≠ k) : Tabulates (m.erase k) others φ := by
  intro k'
  simp only [getElem?_erase, h k', hothers k']
  by_cases hk : k = k'
  · simp [hk]
  · simp [hk, Ne.symm hk]

theorem map {γ : Type} (h : Tabulates m keys φ) (f : κ → α → γ) :
    Tabulates (Std.ExtTreeMap.map f m) keys (fun k => f k (φ k)) := by
  intro k
  rw [Std.ExtTreeMap.getElem?_map, h k]
  split <;> rfl

theorem eq_of_getElem? (h : Tabulates m keys φ) {k : κ} {v : α} (hv : m[k]? = some v) : v = φ k := by
  rw [h k] at hv
  split at hv
  · exact (Option.some.inj hv).symm
  · cases hv

theorem congr {ψ : κ → α} (h : Tabulates m keys φ) (hφ : ∀ k, φ k = ψ k) :
    Tabulates m keys ψ := by
  rwa [← funext hφ]

/-- The entries determine the map. -/
theorem unique {m' : BTreeMap κ α} (h : Tabulates m keys φ) (h' : Tabulates m' keys φ) : m = m' :=
  ext_getElem? (fun k => (h k).trans (h' k).symm)

theorem exists_map (keys : List κ) (φ : κ → α) : ∃ m : BTreeMap κ α, Tabulates m keys φ := by
  induction keys using List.reverseRecOn with
  | nil => exact ⟨∅, empty φ⟩
  | append_singleton keys k ih =>
      obtain ⟨m, hm⟩ := ih
      exact ⟨m.insert k (φ k), hm.insert_snoc k⟩

theorem getElem?_of_mem (h : Tabulates m keys φ) {k : κ} (hk : k ∈ keys) : m[k]? = some (φ k) := by
  rw [h k, if_pos hk]

/-- Iteration goes through the keys in their order. -/
theorem toList_eq (h : Tabulates m keys φ) (hsorted : keys.Pairwise (· < ·)) :
    m.toList = keys.map (fun k => (k, φ k)) := by
  have hpairs : (keys.map (fun k => (k, φ k))).Pairwise (fun a b => a.1 < b.1) :=
    List.pairwise_map.mpr hsorted
  have hperm : m.toList.Perm (keys.map (fun k => (k, φ k))) := by
    refine (List.perm_ext_iff_of_nodup (nodup_toList m) ?_).mpr ?_
    · exact hpairs.imp (fun hab heq => absurd (congrArg Prod.fst heq) hab.ne)
    · rintro ⟨k, v⟩
      rw [mem_toList, h k, List.mem_map]
      by_cases hk : k ∈ keys
      · rw [if_pos hk]
        simp [hk]
      · rw [if_neg hk]
        simp only [reduceCtorEq, Prod.mk.injEq, false_iff, not_exists, not_and]
        rintro k' hk' rfl
        exact absurd hk' hk
  exact hperm.eq_of_pairwise (fun a b _ _ hab hba => absurd hba hab.asymm) (pairwise_toList m) hpairs

theorem size_eq (h : Tabulates m keys φ) (hsorted : keys.Pairwise (· < ·)) :
    m.size = keys.length := by
  rw [← Std.ExtTreeMap.length_toList, h.toList_eq hsorted, List.length_map]

theorem keys_eq (h : Tabulates m keys φ) (hsorted : keys.Pairwise (· < ·)) :
    m.keys = keys := by
  rw [← Std.ExtTreeMap.map_fst_toList_eq_keys, h.toList_eq hsorted, List.map_map]
  exact List.map_id' keys

end Tabulates

/-! ## Collecting messages -/

/-- Decode the messages one by one and file each under its key. A message
    without a key is skipped; one that does not decode ends the loop. -/
def collect (key : β → Option κ) (decode : β → Except ε α) (xs : List β) :
    Except ε (BTreeMap κ α) :=
  xs.foldlM (fun m x =>
    match key x with
    | some k => do
        let v ← decode x
        pure (m.insert k v)
    | none => pure m) ∅

variable {key : β → Option κ} {decode : β → Except ε α}

private theorem collect_append_singleton (xs : List β) (x : β) :
    collect key decode (xs ++ [x]) =
      (collect key decode xs >>= fun m =>
        match key x with
        | some k => do
            let v ← decode x
            pure (m.insert k v)
        | none => pure m) := by
  simp only [collect, List.foldlM_append, List.foldlM_cons, List.foldlM_nil, bind_pure]

/-- The last message filed under `k`. -/
def lastUnder (key : β → Option κ) (k : κ) (xs : List β) : Option β :=
  (xs.filter (fun x => key x = some k)).getLast?

theorem lastUnder_append_singleton (k : κ) (xs : List β) (x : β) :
    lastUnder key k (xs ++ [x]) = if key x = some k then some x else lastUnder key k xs := by
  unfold lastUnder
  rw [List.filter_append]
  by_cases h : key x = some k <;> simp [h]

/-- After collecting, each key carries the decoding of the last message filed
    under it. -/
theorem collect_getElem? {xs : List β} {m : BTreeMap κ α} (h : collect key decode xs = .ok m)
    (k : κ) : m[k]? = (lastUnder key k xs).bind (fun x => (decode x).toOption) := by
  induction xs using List.reverseRecOn generalizing m with
  | nil =>
      cases h
      simp [lastUnder]
  | append_singleton xs x ih =>
      rw [collect_append_singleton] at h
      cases hxs : collect key decode xs with
      | error e => rw [hxs] at h; cases h
      | ok m₀ =>
          rw [hxs, Except.ok_bind] at h
          rw [lastUnder_append_singleton]
          cases hkey : key x with
          | none =>
              rw [hkey] at h
              cases h
              simpa using ih hxs
          | some k' =>
              rw [hkey] at h
              cases hdec : decode x with
              | error e => rw [hdec] at h; cases h
              | ok v =>
                  rw [hdec] at h
                  cases h
                  by_cases hk : k' = k
                  · simp [hk, hdec, Except.toOption]
                  · simpa [hk] using ih hxs

/-- Collecting succeeds once every message that has a key decodes. -/
theorem collect_ok {xs : List β} (h : ∀ x ∈ xs, (key x).isSome → ∃ v, decode x = .ok v) :
    ∃ m, collect key decode xs = .ok m := by
  induction xs using List.reverseRecOn with
  | nil => exact ⟨∅, rfl⟩
  | append_singleton xs x ih =>
      obtain ⟨m, hm⟩ := ih (fun y hy => h y (List.mem_append_left _ hy))
      rw [collect_append_singleton, hm, Except.ok_bind]
      cases hkey : key x with
      | none => exact ⟨m, rfl⟩
      | some k =>
          obtain ⟨v, hv⟩ := h x (by simp) (by simp [hkey])
          exact ⟨m.insert k v, by rw [hv]; rfl⟩

/-- The last message under `k` of an ascending list is the one no other exceeds. -/
theorem lastUnder_eq_some {γ : Type} [LinearOrder γ] {rank : β → γ} {k : κ} {xs : List β} {x : β}
    (hsorted : xs.Pairwise (fun a b => rank a < rank b)) (hx : x ∈ xs) (hkey : key x = some k)
    (hmax : ∀ y ∈ xs, key y = some k → rank y ≤ rank x) :
    lastUnder key k xs = some x := by
  obtain ⟨pre, post, rfl⟩ := List.append_of_mem hx
  have hpost : post.filter (fun y => key y = some k) = [] := by
    rw [List.filter_eq_nil_iff]
    intro y hy hyk
    have hle := hmax y (by simp [hy]) (of_decide_eq_true hyk)
    have hlt : rank x < rank y :=
      (List.pairwise_cons.mp (List.pairwise_append.mp hsorted).2.1).1 y hy
    exact absurd hle (not_le.mpr hlt)
  unfold lastUnder
  rw [List.filter_append, List.filter_cons_of_pos (by simpa using hkey), hpost]
  simp

theorem lastUnder_eq_none {k : κ} {xs : List β} (h : ∀ y ∈ xs, key y ≠ some k) :
    lastUnder key k xs = none := by
  unfold lastUnder
  rw [List.filter_eq_nil_iff.mpr (by simpa using h)]
  rfl

end BTreeMap
