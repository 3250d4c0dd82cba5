-- SUMMARY: The parallel key generation computes what a sequential one does, errors included, however its rounds are split.
import Cheget.Crypto.Ceremony

/-!
# Schedule independence

A failed call leaves the worker's pool without the entry of its seat, so every
later seat of the same block is computed from the wrong packages. None of that
is visible: results are resolved in order, and the failure comes first.
-/

namespace Crypto

variable [Dkg]

/-! ## The sequential algorithm -/

/-- A freshly built map of the packages of all other seats. -/
def othersFor {α : Type} (packages : BTreeMap Identifier α) (id : Identifier) :
    BTreeMap Identifier α :=
  packages.filter (fun other _ => decide (other ≠ id))

/-- What a seat computes in round 2. -/
def seatRound2 (packages : BTreeMap Identifier R1Package) (seat : Identifier × R1Secret) :
    Except (KeygenError Dkg.Error) (R2Secret × BTreeMap Identifier R2Package) :=
  (Dkg.part2 seat.2 (othersFor packages seat.1)).mapError .frost

/-- Round 2, one seat after the other. -/
def sequentialRound2 (packages : BTreeMap Identifier R1Package)
    (secrets : List (Identifier × R1Secret)) :
    Except (KeygenError Dkg.Error) (List (Identifier × R2Secret) × Mailboxes) :=
  secrets.foldlM (fun s seat => do
    let (secret2, sent) ← seatRound2 packages seat
    pure (s.1 ++ [(seat.1, secret2)], fanOut seat.1 s.2 sent.toList)) ([], ∅)

/-- What a seat computes in round 3. -/
def seatRound3 (packages : BTreeMap Identifier R1Package) (byRecipient : Mailboxes)
    (seat : Identifier × R2Secret) : Except (KeygenError Dkg.Error) (KeyPackage × PublicKeyPackage) := do
  let (kp, pubkeys) ←
    (Dkg.part3 seat.2 (othersFor packages seat.1) (byRecipient[seat.1]?.getD ∅)).mapError .frost
  pure (FrostKeys.seatIntoEvenY kp, FrostKeys.groupIntoEvenY pubkeys)

variable [DecidableEq VerifyingKey]

/-- One seat of round 3, compared with the first. -/
def sequentialSeat3 (packages : BTreeMap Identifier R1Package) (byRecipient : Mailboxes)
    (s : BTreeMap Identifier KeyPackage × Option PublicKeyPackage) (seat : Identifier × R2Secret) :
    Except (KeygenError Dkg.Error) (BTreeMap Identifier KeyPackage × Option PublicKeyPackage) := do
  let (kp, pubkeys) ← seatRound3 packages byRecipient seat
  confirmSeat s (.ok (seat.1, kp, pubkeys))

/-- Round 3, one seat after the other. -/
def sequentialRound3 (packages : BTreeMap Identifier R1Package) (byRecipient : Mailboxes)
    (secrets : List (Identifier × R2Secret)) :
    Except (KeygenError Dkg.Error) (BTreeMap Identifier KeyPackage × PublicKeyPackage) := do
  let (keyPackages, group) ← secrets.foldlM (sequentialSeat3 packages byRecipient) (∅, none)
  let group ← group.okOr .empty
  pure (keyPackages, group)

/-- The plain sequential ceremony. -/
def sequentialDkg (minSigners maxSigners : UInt16) (rng : Rng) :
    Except (KeygenError Dkg.Error) (BTreeMap Identifier KeyPackage × PublicKeyPackage) := do
  let r1 ← round1 minSigners maxSigners rng
  let (secrets, byRecipient) ← sequentialRound2 r1.packages r1.secrets
  sequentialRound3 r1.packages byRecipient secrets

/-! ## Workers -/

omit [Dkg] [DecidableEq VerifyingKey] in
theorem erase_eq_othersFor {α : Type} (packages : BTreeMap Identifier α) (id : Identifier) :
    packages.erase id = othersFor packages id := by
  apply BTreeMap.ext_getElem?
  intro other
  rw [othersFor, BTreeMap.getElem?_erase, BTreeMap.getElem?_filter]
  by_cases hother : id = other
  · simp [hother]
  · simp [hother, Ne.symm hother]

omit [DecidableEq VerifyingKey] in
/-- The step of a worker whose pool has the seat: the pool is left as it was
    unless the call fails. -/
theorem withOthers_of_mem {α β : Type} {id : Identifier}
    {call : BTreeMap Identifier α → Except (KeygenError Dkg.Error) β} {pool : BTreeMap Identifier α}
    {own : α} (hown : pool[id]? = some own) :
    withOthers id call pool = some (call (othersFor pool id),
      if (call (othersFor pool id)).isOk then pool else pool.erase id) := by
  unfold withOthers
  rw [hown]
  simp only [← erase_eq_othersFor]
  cases call (pool.erase id) with
  | ok result => simp [Except.isOk, Except.toBool, BTreeMap.insert_erase_self hown]
  | error e => simp [Except.isOk, Except.toBool]

omit [DecidableEq VerifyingKey] in
/-- No split into blocks makes a difference before the first failure. -/
theorem mapWith_withOthers {α β γ : Type} (sizes : List Nat)
    (call : Identifier × γ → BTreeMap Identifier α → Except (KeygenError Dkg.Error) β)
    {pool : BTreeMap Identifier α} {seats : List (Identifier × γ)}
    (hnodup : (seats.map Prod.fst).Nodup) (hmem : ∀ seat ∈ seats, pool[seat.1]?.isSome) :
    ∃ ys, Parallel.mapWith sizes (fun pool seat => withOthers seat.1 (call seat) pool) pool seats =
        some ys ∧
      Parallel.AgreeUntil (fun res => res.isOk = false) ys
        (seats.map (fun seat => call seat (othersFor pool seat.1))) := by
  refine Parallel.mapWith_agree
    (F := fun pool seats => (seats.map Prod.fst).Nodup ∧ ∀ seat ∈ seats, pool[seat.1]?.isSome)
    ?_ ?_ ?_
  · -- a seat that is done takes at most its own entry out of the pool
    intro pool seat rest h
    obtain ⟨hnot, hrest⟩ := List.nodup_cons.mp h.1
    obtain ⟨own, hown⟩ := Option.isSome_iff_exists.mp (h.2 seat List.mem_cons_self)
    refine ⟨_, _, withOthers_of_mem hown, hrest, ?_⟩
    intro other hother
    have hin := h.2 other (List.mem_cons_of_mem _ hother)
    have hne : seat.1 ≠ other.1 := fun heq => hnot (heq ▸ List.mem_map_of_mem hother)
    split
    · exact hin
    · rw [BTreeMap.getElem?_erase, if_neg hne]
      exact hin
  · intro block hblock
    have hsub : block.Sublist seats := by
      have hsub := List.sublist_flatten_of_mem hblock
      rwa [Parallel.flatten_cut] at hsub
    exact ⟨hnodup.sublist (hsub.map _), fun seat hseat => hmem seat (hsub.subset hseat)⟩
  · intro seat hseat
    obtain ⟨own, hown⟩ := Option.isSome_iff_exists.mp (hmem seat hseat)
    refine ⟨_, withOthers_of_mem hown, ?_⟩
    intro hok
    rw [if_pos (Bool.eq_true_of_not_eq_false hok)]

/-! ## The rounds -/

omit [DecidableEq VerifyingKey] in
theorem round1_seats {minSigners maxSigners : UInt16} {rng : Rng} {r1 : Round1State}
    (h : round1 minSigners maxSigners rng = .ok r1) :
    r1.secrets.map Prod.fst = firstSeats maxSigners.toNat ∧
      ∀ seat ∈ r1.secrets, r1.packages[seat.1]?.isSome := by
  have hloop : ∀ k ≤ maxSigners.toNat, ∀ s,
      ((List.range' 1 k).map UInt16.ofNat).foldlM (round1Seat minSigners maxSigners)
          ⟨[], ∅, rng⟩ = .ok s →
        s.secrets.map Prod.fst = firstSeats k ∧ ∀ seat ∈ s.secrets, s.packages[seat.1]?.isSome := by
    intro k
    induction k with
    | zero =>
        intro _ s hs
        cases hs
        exact ⟨rfl, fun seat hseat => nomatch hseat⟩
    | succ k ih =>
        intro hk s hs
        rw [List.range'_concat, List.map_append, List.foldlM_append, Nat.one_mul,
          Nat.add_comm 1 k] at hs
        obtain ⟨s', hs', hlast⟩ := Except.bind_eq_ok.mp hs
        obtain ⟨hids, hpool⟩ := ih (by omega) s' hs'
        have hsize : k + 1 < UInt16.size := Nat.lt_of_le_of_lt hk maxSigners.toNat_lt
        obtain ⟨hlt, hid⟩ := ofU16_ofNat (Nat.succ_pos k) hsize
        obtain ⟨_, hsucc⟩ := firstSeats_succ hsize
        rw [List.map_cons, List.map_nil, List.foldlM_cons, round1Seat, hid, Option.okOr_some,
          Except.ok_bind] at hlast
        obtain ⟨s'', hpart, hnil⟩ := Except.bind_eq_ok.mp hlast
        obtain ⟨out, -, hout⟩ := Except.bind_eq_ok.mp hpart
        cases hout
        cases hnil
        refine ⟨by rw [List.map_append, hids, hsucc]; rfl, ?_⟩
        intro seat hseat
        rw [BTreeMap.getElem?_insert]
        split
        · rfl
        · next hne =>
            rcases List.mem_append.mp hseat with hold | hnew
            · exact hpool seat hold
            · exact absurd (List.mem_singleton.mp hnew ▸ rfl) hne
  exact hloop maxSigners.toNat (Nat.le_refl _) r1 h

omit [DecidableEq VerifyingKey] in
/-- Round 2 as it is resolved is the sequential round 2. -/
theorem round2_eq_sequential (sizes : List Nat) {packages : BTreeMap Identifier R1Package}
    {secrets : List (Identifier × R1Secret)} (hnodup : (secrets.map Prod.fst).Nodup)
    (hmem : ∀ seat ∈ secrets, packages[seat.1]?.isSome) :
    ∃ computed, Parallel.mapWith sizes round2Seat packages secrets = some computed ∧
      resolveRound2 computed = sequentialRound2 packages secrets := by
  obtain ⟨computed, hmap, hagree⟩ := mapWith_withOthers sizes
    (fun seat others => do
      let (secret2, sent) ← (Dkg.part2 seat.2 others).mapError .frost
      pure (seat.1, secret2, sent)) hnodup hmem
  refine ⟨computed, hmap, ?_⟩
  rw [resolveRound2, hagree.foldlM_eq, List.foldlM_map, sequentialRound2]
  · simp only [seatRound2, bind_assoc, pure_bind]
  · intro s res hres
    cases res with
    | ok out => cases hres
    | error e => exact ⟨e, rfl⟩

/-- Round 3 as it is resolved is the sequential round 3. -/
theorem round3_eq_sequential (sizes : List Nat) {packages : BTreeMap Identifier R1Package}
    {secrets : List (Identifier × R2Secret)} (byRecipient : Mailboxes)
    (hnodup : (secrets.map Prod.fst).Nodup) (hmem : ∀ seat ∈ secrets, packages[seat.1]?.isSome) :
    ∃ computed, Parallel.mapWith sizes (round3Seat byRecipient) packages secrets = some computed ∧
      resolveRound3 computed = sequentialRound3 packages byRecipient secrets := by
  obtain ⟨computed, hmap, hagree⟩ := mapWith_withOthers sizes
    (fun seat others => do
      let (kp, pubkeys) ←
        (Dkg.part3 seat.2 others (byRecipient[seat.1]?.getD ∅)).mapError .frost
      pure (seat.1, FrostKeys.seatIntoEvenY kp, FrostKeys.groupIntoEvenY pubkeys)) hnodup hmem
  refine ⟨computed, hmap, ?_⟩
  rw [resolveRound3, hagree.foldlM_eq, List.foldlM_map, sequentialRound3]
  · have hseat : sequentialSeat3 packages byRecipient = fun s seat =>
        confirmSeat s (do
          let (kp, pubkeys) ← (Dkg.part3 seat.2 (othersFor packages seat.1)
            (byRecipient[seat.1]?.getD ∅)).mapError .frost
          pure (seat.1, FrostKeys.seatIntoEvenY kp, FrostKeys.groupIntoEvenY pubkeys)) := by
      funext s seat
      simp only [sequentialSeat3, seatRound3, confirmSeat, bind_assoc, pure_bind]
      rfl
    rw [hseat]
  · intro s res hres
    cases res with
    | ok out => cases hres
    | error e => exact ⟨e, rfl⟩

omit [DecidableEq VerifyingKey] in
theorem sequentialRound2_seats {packages : BTreeMap Identifier R1Package}
    {secrets : List (Identifier × R1Secret)} {out : List (Identifier × R2Secret) × Mailboxes}
    (h : sequentialRound2 packages secrets = .ok out) : out.1.map Prod.fst = secrets.map Prod.fst := by
  unfold sequentialRound2 at h
  induction secrets using List.reverseRecOn generalizing out with
  | nil =>
      cases h
      rfl
  | append_singleton secrets seat ih =>
      rw [List.foldlM_append] at h
      obtain ⟨s, hs, hlast⟩ := Except.bind_eq_ok.mp h
      rw [List.foldlM_cons] at hlast
      obtain ⟨s', hstep, hnil⟩ := Except.bind_eq_ok.mp hlast
      obtain ⟨sent, -, hout⟩ := Except.bind_eq_ok.mp hstep
      cases hout
      cases hnil
      rw [List.map_append, List.map_append, ih hs]
      rfl

/-- What a seat contributes to round 3 once the first seat has fixed the group. -/
def confirmedRound3 (packages : BTreeMap Identifier R1Package) (byRecipient : Mailboxes)
    (first seat : Identifier × R2Secret) : Except (KeygenError Dkg.Error) KeyPackage := do
  let (_, group) ← seatRound3 packages byRecipient first
  let (kp, pubkeys) ← seatRound3 packages byRecipient seat
  if FrostKeys.groupKey group ≠ FrostKeys.groupKey pubkeys then
    .error (.groupKeyMismatch seat.1)
  else
    pure kp

omit [DecidableEq VerifyingKey] in
theorem sequentialRound2_error {packages : BTreeMap Identifier R1Package}
    {secrets : List (Identifier × R1Secret)} {e : KeygenError Dkg.Error}
    (h : FirstError (seatRound2 packages) secrets e) : sequentialRound2 packages secrets = .error e := by
  refine h.foldlM (I := fun _ => True) ?_ ?_ trivial
  · intro s seat e _ hseat
    rw [hseat]
    rfl
  · intro s seat out _ hseat
    rw [hseat]
    exact ⟨_, rfl, trivial⟩

/-- After the first seat, a seat fails exactly as it does against the first. -/
theorem sequentialSeat3_of_first {packages : BTreeMap Identifier R1Package} {byRecipient : Mailboxes}
    {first : Identifier × R2Secret} {out : KeyPackage × PublicKeyPackage}
    (hfirst : seatRound3 packages byRecipient first = .ok out) (seat : Identifier × R2Secret)
    (keyPackages : BTreeMap Identifier KeyPackage) :
    sequentialSeat3 packages byRecipient (keyPackages, some out.2) seat =
      (confirmedRound3 packages byRecipient first seat).map
        (fun kp => (keyPackages.insert seat.1 kp, some out.2)) := by
  simp only [sequentialSeat3, confirmedRound3, confirmSeat, hfirst, Except.ok_bind]
  cases seatRound3 packages byRecipient seat with
  | error e => rfl
  | ok own =>
      simp only [Except.ok_bind]
      split <;> rfl

theorem sequentialRound3_error {packages : BTreeMap Identifier R1Package} {byRecipient : Mailboxes}
    {first : Identifier × R2Secret} {rest : List (Identifier × R2Secret)} {e : KeygenError Dkg.Error}
    (h : FirstError (confirmedRound3 packages byRecipient first) (first :: rest) e) :
    sequentialRound3 packages byRecipient (first :: rest) = .error e := by
  rw [sequentialRound3, List.foldlM_cons]
  cases hfirst : seatRound3 packages byRecipient first with
  | error e' =>
      -- the first seat fails, and so does every comparison with it
      have hall : ∀ seat, confirmedRound3 packages byRecipient first seat = .error e' := by
        intro seat
        rw [confirmedRound3, hfirst]
        rfl
      rcases h.cons with he | ⟨hok, -⟩
      · rw [hall] at he
        cases he
        rw [sequentialSeat3, hfirst]
        rfl
      · rw [hall] at hok
        cases hok
  | ok out =>
      have hself : confirmedRound3 packages byRecipient first first = .ok out.1 := by
        simp only [confirmedRound3, hfirst, Except.ok_bind, ne_eq, not_true, if_false]
        rfl
      have hrest : FirstError (confirmedRound3 packages byRecipient first) rest e := by
        rcases h.cons with he | ⟨-, hrest⟩
        · rw [hself] at he
          cases he
        · exact hrest
      have hstart : sequentialSeat3 packages byRecipient (∅, none) first =
          .ok ((∅ : BTreeMap Identifier KeyPackage).insert first.1 out.1, some out.2) := by
        rw [sequentialSeat3, hfirst]
        rfl
      have hloop := hrest.foldlM (f := sequentialSeat3 packages byRecipient)
        (I := fun s => s.2 = some out.2)
        (fun s seat e' hs he => by
          rw [← Prod.mk.eta (p := s), hs, sequentialSeat3_of_first hfirst, he]
          rfl)
        (fun s seat kp hs hok => by
          rw [← Prod.mk.eta (p := s), hs, sequentialSeat3_of_first hfirst, hok]
          exact ⟨_, rfl, rfl⟩)
        (c := ((∅ : BTreeMap Identifier KeyPackage).insert first.1 out.1, some out.2)) rfl
      rw [hstart, Except.ok_bind, hloop]
      rfl

/-! ## The ceremony -/

/-- The ceremony is the sequential one, however its rounds are split. -/
theorem runInprocessDkg_eq_sequential (split2 split3 : List Nat) (minSigners maxSigners : UInt16)
    (rng : Rng) :
    runInprocessDkgWithRng split2 split3 minSigners maxSigners rng =
      (sequentialDkg minSigners maxSigners rng).mapError .error := by
  rw [runInprocessDkgWithRng, sequentialDkg]
  cases hround1 : round1 minSigners maxSigners rng with
  | error e => rfl
  | ok r1 =>
      obtain ⟨hids, hpool⟩ := round1_seats hround1
      have hnodup : (r1.secrets.map Prod.fst).Nodup := hids ▸ nodup_firstSeats maxSigners.toNat_lt
      obtain ⟨computed2, hmap2, hround2⟩ := round2_eq_sequential split2 hnodup hpool
      simp only [Except.mapError_ok, Except.ok_bind, hmap2, Option.okOr_some, hround2]
      cases hseq2 : sequentialRound2 r1.packages r1.secrets with
      | error e => rfl
      | ok out =>
          have hids2 := sequentialRound2_seats hseq2
          have hpool2 : ∀ seat ∈ out.1, r1.packages[seat.1]?.isSome := by
            intro seat hseat
            have hmem : seat.1 ∈ r1.secrets.map Prod.fst := hids2 ▸ List.mem_map_of_mem hseat
            obtain ⟨own, hown, heq⟩ := List.mem_map.mp hmem
            exact heq ▸ hpool own hown
          obtain ⟨computed3, hmap3, hround3⟩ :=
            round3_eq_sequential split3 out.2 (hids2 ▸ hnodup) hpool2
          simp only [Except.mapError_ok, Except.ok_bind, hmap3, Option.okOr_some, hround3]

/-- However the two parallel rounds are split, and whatever fails in them, the
    ceremony returns what the sequential one does and does not panic. The error
    is that of the first seat, in the order of the identifiers, that fails a
    round or disagrees with the first seat on the group key. -/
theorem runInprocessDkg_schedule_independent (split2 split3 : List Nat)
    (minSigners maxSigners : UInt16) (rng : Rng) :
    runInprocessDkgWithRng split2 split3 minSigners maxSigners rng =
        (sequentialDkg minSigners maxSigners rng).mapError .error ∧
      ∀ r1, round1 minSigners maxSigners rng = .ok r1 →
        r1.secrets.map Prod.fst = firstSeats maxSigners.toNat ∧
        (∀ e, FirstError (seatRound2 r1.packages) r1.secrets e →
          sequentialDkg minSigners maxSigners rng = .error e) ∧
        ∀ r2 byRecipient, sequentialRound2 r1.packages r1.secrets = .ok (r2, byRecipient) →
          r2.map Prod.fst = firstSeats maxSigners.toNat ∧
          ∀ first rest e, r2 = first :: rest →
            FirstError (confirmedRound3 r1.packages byRecipient first) r2 e →
              sequentialDkg minSigners maxSigners rng = .error e := by
  refine ⟨runInprocessDkg_eq_sequential split2 split3 minSigners maxSigners rng, ?_⟩
  intro r1 hround1
  have hids := (round1_seats hround1).1
  refine ⟨hids, ?_, ?_⟩
  · intro e he
    rw [sequentialDkg, hround1, Except.ok_bind, sequentialRound2_error he]
    rfl
  · intro r2 byRecipient hround2
    refine ⟨(sequentialRound2_seats hround2).trans hids, ?_⟩
    rintro first rest e rfl he
    rw [sequentialDkg, hround1, Except.ok_bind, hround2, Except.ok_bind]
    exact sequentialRound3_error he

end Crypto
