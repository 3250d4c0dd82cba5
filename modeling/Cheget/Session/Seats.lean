-- SUMMARY: Seat numbering is a bijection on rosters that a `u16` can number.
import Cheget.Session.SigningSession

namespace Session

open Crypto Transport

/-- The seat of the `i`-th roster identifier. -/
def seatAt (i : Nat) : Seat := ⟨UInt16.ofNat (i + 1)⟩

/-- Up to `2^16` seats the numbering does not wrap onto itself. -/
theorem seatAt_inj {i j : Nat} (hi : i < 65536) (hj : j < 65536) (h : seatAt i = seatAt j) :
    i = j := by
  have hmod : (i + 1) % 65536 = (j + 1) % 65536 := by
    have := congrArg (fun s : Seat => s.idx.toNat) h
    simpa [seatAt, UInt16.toNat_ofNat'] using this
  omega

private theorem assignSeats_append_singleton (roster : List Identifier) (id : Identifier) :
    assignSeats (roster ++ [id]) =
      ((assignSeats roster).1.insert (seatAt roster.length) id,
        (assignSeats roster).2.insert id (seatAt roster.length)) := by
  simp [assignSeats, seatAt, List.zipIdx_append]

private theorem getElem?_append_singleton {roster : List Identifier} {new id : Identifier} {i : Nat} :
    (roster ++ [new])[i]? = some id ↔ roster[i]? = some id ∨ (i = roster.length ∧ id = new) := by
  rcases Nat.lt_trichotomy i roster.length with hi | rfl | hi
  · rw [List.getElem?_append_left hi]
    simp [hi.ne]
  · simp [eq_comm]
  · rw [List.getElem?_eq_none (by simp; omega), List.getElem?_eq_none (by omega)]
    simp [hi.ne']

/-- A seat is that of a roster identifier, however long the roster. -/
theorem exists_of_assignSeats_fst {roster : List Identifier} {seat : Seat} {id : Identifier}
    (h : (assignSeats roster).1[seat]? = some id) : ∃ i, roster[i]? = some id ∧ seat = seatAt i := by
  induction roster using List.reverseRecOn with
  | nil => simp [assignSeats] at h
  | append_singleton roster new ih =>
      rw [assignSeats_append_singleton, BTreeMap.getElem?_insert] at h
      simp only [getElem?_append_singleton]
      split at h
      · next hseat =>
          cases h
          exact ⟨roster.length, Or.inr ⟨rfl, rfl⟩, hseat.symm⟩
      · obtain ⟨i, hi, hseat⟩ := ih h
        exact ⟨i, Or.inl hi, hseat⟩

theorem assignSeats_fst {roster : List Identifier} (hsize : roster.length ≤ 65536) {seat : Seat}
    {id : Identifier} :
    (assignSeats roster).1[seat]? = some id ↔ ∃ i, roster[i]? = some id ∧ seat = seatAt i := by
  refine ⟨exists_of_assignSeats_fst, ?_⟩
  induction roster using List.reverseRecOn with
  | nil => simp [assignSeats]
  | append_singleton roster new ih =>
      rw [List.length_append, List.length_singleton] at hsize
      have ih := ih (by omega)
      rw [assignSeats_append_singleton, BTreeMap.getElem?_insert]
      simp only [getElem?_append_singleton]
      rintro ⟨i, hi | ⟨rfl, rfl⟩, rfl⟩
      · have hlt : i < roster.length := (List.getElem?_eq_some_iff.mp hi).1
        rw [if_neg, ih ⟨i, hi, rfl⟩]
        intro hseat
        exact hlt.ne' (seatAt_inj (by omega) (by omega) hseat)
      · rw [if_pos rfl]

theorem assignSeats_snd {roster : List Identifier} (hnodup : roster.Nodup) {seat : Seat}
    {id : Identifier} :
    (assignSeats roster).2[id]? = some seat ↔ ∃ i, roster[i]? = some id ∧ seat = seatAt i := by
  induction roster using List.reverseRecOn with
  | nil => simp [assignSeats]
  | append_singleton roster new ih =>
      have hfresh : new ∉ roster := by
        intro hmem
        exact (List.disjoint_of_nodup_append hnodup) hmem (List.mem_singleton_self new)
      have ih := ih hnodup.of_append_left
      rw [assignSeats_append_singleton, BTreeMap.getElem?_insert]
      simp only [getElem?_append_singleton]
      constructor
      · intro h
        split at h
        · next hid =>
            cases h
            exact ⟨roster.length, Or.inr ⟨rfl, hid.symm⟩, rfl⟩
        · obtain ⟨i, hi, hseat⟩ := ih.mp h
          exact ⟨i, Or.inl hi, hseat⟩
      · rintro ⟨i, hi | ⟨rfl, rfl⟩, rfl⟩
        · rw [if_neg, ih.mpr ⟨i, hi, rfl⟩]
          rintro rfl
          exact hfresh (List.mem_of_getElem? hi)
        · rw [if_pos rfl]

variable [Frost]

namespace SigningSession

variable {self : SigningSession} {id : Identifier} {seat : Seat}

/-- A roster that a `u16` numbers without reuse. -/
def Numbered (self : SigningSession) : Prop := self.keyPackages.keys.length ≤ 65536

theorem idOfSeat_eq_some (h : self.Numbered) :
    self.idOfSeat[seat]? = some id ↔
      ∃ i, self.keyPackages.keys[i]? = some id ∧ seat = seatAt i := by
  have hmap : self.idOfSeat = (assignSeats self.keyPackages.keys).1 :=
    congrArg Prod.fst self.seats_eq
  rw [hmap, assignSeats_fst h]

theorem seatOfId_eq_some :
    self.seatOfId[id]? = some seat ↔
      ∃ i, self.keyPackages.keys[i]? = some id ∧ seat = seatAt i := by
  have hmap : self.seatOfId = (assignSeats self.keyPackages.keys).2 :=
    congrArg Prod.snd self.seats_eq
  rw [hmap, assignSeats_snd Std.ExtTreeMap.nodup_keys]

/-- The two seat maps of a numbered roster are inverse to each other. -/
theorem idOfSeat_iff_seatOfId (h : self.Numbered) :
    self.idOfSeat[seat]? = some id ↔ self.seatOfId[id]? = some seat := by
  rw [idOfSeat_eq_some h, seatOfId_eq_some]

/-- The seat of an identifier is listed under it. -/
def Told (self : SigningSession) (id : Identifier) : Prop :=
  ∀ seat ∈ self.seatOfId[id]?, self.idOfSeat[seat]? = some id

instance (self : SigningSession) (id : Identifier) : Decidable (self.Told id) :=
  inferInstanceAs (Decidable (∀ seat ∈ self.seatOfId[id]?, self.idOfSeat[seat]? = some id))

theorem Numbered.told (h : self.Numbered) (id : Identifier) : self.Told id :=
  fun _ hseat => (idOfSeat_iff_seatOfId h).mpr hseat

/-- The seat under which an identifier is listed is its own, even where the
    numbering wraps. -/
theorem seatOfId_of_idOfSeat (h : self.idOfSeat[seat]? = some id) : self.seatOfId[id]? = some seat := by
  have hmap : self.idOfSeat = (assignSeats self.keyPackages.keys).1 :=
    congrArg Prod.fst self.seats_eq
  rw [hmap] at h
  exact seatOfId_eq_some.mpr (exists_of_assignSeats_fst h)

theorem seatOfId_of_keyPackage {kp : KeyPackage} (h : self.keyPackages[id]? = some kp) :
    ∃ seat, self.seatOfId[id]? = some seat := by
  have hmem : id ∈ self.keyPackages.keys := BTreeMap.mem_keys.mpr ⟨kp, h⟩
  obtain ⟨i, hi⟩ := List.getElem?_of_mem hmem
  exact ⟨seatAt i, seatOfId_eq_some.mpr ⟨i, hi, rfl⟩⟩

end SigningSession

end Session
