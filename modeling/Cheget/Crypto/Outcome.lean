-- SUMMARY: What a key generation that succeeded returns: one package for each of the first identifiers, all of one group.
import Cheget.Crypto.Schedule

namespace Crypto

theorem map_scalar_firstSeats {k : Nat} (hk : k < UInt16.size) :
    (firstSeats k).map Identifier.scalar = List.range' 1 k := by
  induction k with
  | zero => rfl
  | succ k ih =>
      obtain ⟨h, hsucc⟩ := firstSeats_succ hk
      rw [hsucc, List.map_append, ih (by omega), List.range'_concat, Nat.one_mul, Nat.add_comm 1 k]
      rfl

variable [Dkg]

/-- The two packages that a seat ends up with carry one group key. -/
def PackagesAgree : Prop :=
  ∀ (secret : R2Secret) (others : BTreeMap Identifier R1Package)
      (inbox : BTreeMap Identifier R2Package) (kp : KeyPackage) (pubkeys : PublicKeyPackage),
    Dkg.part3 secret others inbox = .ok (kp, pubkeys) →
      FrostKeys.seatKey (FrostKeys.seatIntoEvenY kp) =
        FrostKeys.groupKey (FrostKeys.groupIntoEvenY pubkeys)

/-- The confirmation has gone through the seats `ids`. -/
structure Confirmed (ids : List Identifier)
    (s : BTreeMap Identifier KeyPackage × Option PublicKeyPackage) : Prop where
  keys : ∀ id : Identifier, id ∈ s.1.keys ↔ id ∈ ids
  group : s.2 = none ↔ ids = []
  seatKey : PackagesAgree → ∀ (id : Identifier) (kp : KeyPackage), s.1[id]? = some kp →
    ∃ group, s.2 = some group ∧ FrostKeys.seatKey kp = FrostKeys.groupKey group

variable [DecidableEq VerifyingKey] {packages : BTreeMap Identifier R1Package}
  {byRecipient : Mailboxes}

theorem Confirmed.seat {ids : List Identifier} {seat : Identifier × R2Secret}
    {s s' : BTreeMap Identifier KeyPackage × Option PublicKeyPackage} (hs : Confirmed ids s)
    (h : sequentialSeat3 packages byRecipient s seat = .ok s') : Confirmed (ids ++ [seat.1]) s' := by
  obtain ⟨out, hround3, hconfirm⟩ := Except.bind_eq_ok.mp h
  obtain ⟨raw, hpart3, hraw⟩ := Except.bind_eq_ok.mp hround3
  cases hraw
  have hown : PackagesAgree → FrostKeys.seatKey (FrostKeys.seatIntoEvenY raw.1) =
      FrostKeys.groupKey (FrostKeys.groupIntoEvenY raw.2) :=
    fun hagree => hagree _ _ _ _ _ (Except.mapError_eq_ok.mp hpart3)
  -- whichever group stands, it carries the key of this seat and of those before
  have hstep : ∃ group, s' = (s.1.insert seat.1 (FrostKeys.seatIntoEvenY raw.1), some group) ∧
      (PackagesAgree → FrostKeys.seatKey (FrostKeys.seatIntoEvenY raw.1) = FrostKeys.groupKey group) ∧
      ∀ old, s.2 = some old → group = old := by
    simp only [confirmSeat, Except.ok_bind] at hconfirm
    cases hgroup : s.2 with
    | none =>
        simp only [hgroup] at hconfirm
        cases hconfirm
        refine ⟨_, rfl, hown, fun old hold => ?_⟩
        cases hold
    | some old =>
        simp only [hgroup] at hconfirm
        split at hconfirm
        · cases hconfirm
        · next heq =>
            cases hconfirm
            have heq := not_not.mp heq
            exact ⟨old, rfl, fun hagree => (hown hagree).trans heq.symm,
              fun _ hold => Option.some.inj hold⟩
  obtain ⟨group, rfl, hkey, hold⟩ := hstep
  refine ⟨?_, by simp, ?_⟩
  · intro id
    rw [BTreeMap.mem_keys, List.mem_append, List.mem_singleton, ← hs.keys, BTreeMap.mem_keys]
    simp only [BTreeMap.getElem?_insert]
    by_cases hid : seat.1 = id
    · simp [hid]
    · simp [hid, Ne.symm hid]
  · intro hagree id kp hkp
    rw [BTreeMap.getElem?_insert] at hkp
    split at hkp
    · cases hkp
      exact ⟨group, rfl, hkey hagree⟩
    · obtain ⟨old, hsome, hseat⟩ := hs.seatKey hagree id kp hkp
      exact ⟨group, rfl, hold old hsome ▸ hseat⟩

theorem Confirmed.seats {ids : List Identifier} {seats : List (Identifier × R2Secret)}
    {s s' : BTreeMap Identifier KeyPackage × Option PublicKeyPackage} (hs : Confirmed ids s)
    (h : seats.foldlM (sequentialSeat3 packages byRecipient) s = .ok s') :
    Confirmed (ids ++ seats.map Prod.fst) s' := by
  induction seats generalizing ids s with
  | nil =>
      cases h
      rwa [List.map_nil, List.append_nil]
  | cons seat seats ih =>
      rw [List.foldlM_cons] at h
      obtain ⟨next, hseat, hrest⟩ := Except.bind_eq_ok.mp h
      have hall := ih (hs.seat hseat) hrest
      rwa [List.append_assoc] at hall

/-- A ceremony that succeeds returns a package for each of the identifiers
    `1..=n`, all of the returned group. -/
theorem runInprocessDkg_confirmed {split2 split3 : List Nat} {minSigners maxSigners : UInt16}
    {rng : Rng} {keyPackages : BTreeMap Identifier KeyPackage} {group : PublicKeyPackage}
    (h : runInprocessDkgWithRng split2 split3 minSigners maxSigners rng = .ok (keyPackages, group)) :
    Confirmed (firstSeats maxSigners.toNat) (keyPackages, some group) := by
  rw [runInprocessDkg_eq_sequential, Except.mapError_eq_ok] at h
  obtain ⟨r1, hround1, h⟩ := Except.bind_eq_ok.mp h
  obtain ⟨⟨secrets, boxes⟩, hround2, h⟩ := Except.bind_eq_ok.mp h
  obtain ⟨s, hround3, h⟩ := Except.bind_eq_ok.mp h
  obtain ⟨group', hgroup, h⟩ := Except.bind_eq_ok.mp h
  cases h
  have hempty : Confirmed [] ((∅ : BTreeMap Identifier KeyPackage), (none : Option PublicKeyPackage)) :=
    ⟨fun id => by simp, by simp, fun _ id kp hkp => by simp at hkp⟩
  have hall := hempty.seats hround3
  have hids := (sequentialRound2_seats hround2).trans (round1_seats hround1).1
  rw [List.nil_append, hids] at hall
  rwa [← Prod.mk.eta (p := s), Option.okOr_eq_ok.mp hgroup] at hall

theorem runInprocessDkg_toList {split2 split3 : List Nat} {minSigners maxSigners : UInt16}
    {rng : Rng} {keyPackages : BTreeMap Identifier KeyPackage} {group : PublicKeyPackage}
    (h : runInprocessDkgWithRng split2 split3 minSigners maxSigners rng = .ok (keyPackages, group)) :
    keyPackages.toList.map (fun seat => seat.1.scalar) = List.range' 1 maxSigners.toNat := by
  have hkeys := BTreeMap.keys_eq_of_mem (runInprocessDkg_confirmed h).keys
    (pairwise_firstSeats maxSigners.toNat_lt)
  rw [← map_scalar_firstSeats maxSigners.toNat_lt, ← hkeys, ← Std.ExtTreeMap.map_fst_toList_eq_keys,
    List.map_map]
  rfl

theorem runInprocessDkg_toList_ne_nil {split2 split3 : List Nat} {minSigners maxSigners : UInt16}
    {rng : Rng} {keyPackages : BTreeMap Identifier KeyPackage} {group : PublicKeyPackage}
    (h : runInprocessDkgWithRng split2 split3 minSigners maxSigners rng = .ok (keyPackages, group)) :
    keyPackages.toList ≠ [] := by
  have hconfirmed := runInprocessDkg_confirmed h
  have hkeys := BTreeMap.keys_eq_of_mem hconfirmed.keys (pairwise_firstSeats maxSigners.toNat_lt)
  intro hempty
  rw [← Std.ExtTreeMap.map_fst_toList_eq_keys, hempty] at hkeys
  exact absurd (hconfirmed.group.mpr hkeys.symm) (by simp)

end Crypto
