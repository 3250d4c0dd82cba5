-- SUMMARY: The key generation over Feldman's verifiable secret sharing: all seats hold shares of one polynomial, whose value at zero is the group's secret key.
import Cheget.Base.Coefficients
import Cheget.Crypto.Ceremony
import Mathlib.Algebra.Field.ZMod
import Mathlib.Tactic.NormNum.Prime

/-!
# Feldman's key generation

The standard scheme behind the three parts: seat `i` draws a polynomial of
degree below the threshold, commits to its coefficients, and sends its value
at `j` to seat `j`. A seat checks every value it receives against the sender's
commitment and adds them up, and the group key is the sum of the committed
constants.
-/

namespace Crypto

/-- A group of points over a field of scalars: its generator, and which points
    have an even y-coordinate. -/
structure Curve (K V : Type) [Field K] [AddCommGroup V] [Module K V] where
  generator : V
  generator_ne_zero : generator ≠ 0
  /-- Distinct seat indices are distinct scalars. -/
  index_injective : ∀ a b : Nat, a < UInt16.size → b < UInt16.size → (a : K) = b → a = b
  evenY : V → Bool
  /-- Of a point and its negation exactly one is even. -/
  evenY_neg : ∀ p, p ≠ 0 → evenY (-p) = !evenY p

namespace Feldman

variable {K V : Type} [Field K] [AddCommGroup V] [Module K V] [DecidableEq V]

/-! ## The scheme -/

structure Secret1 (K V : Type) where
  identifier : Identifier
  coefficients : List K
  commitment : List V
  maxSigners : UInt16

structure Secret2 (K V : Type) where
  identifier : Identifier
  commitment : List V
  secretShare : K
  maxSigners : UInt16

structure SeatPackage (K V : Type) where
  identifier : Identifier
  signingShare : K
  verifyingKey : V

inductive Error where
  | invalidMinSigners
  | invalidMaxSigners
  | incorrectNumberOfPackages
  | incorrectPackage
  | invalidSecretShare (culprit : Identifier)

/-- The point of the field at which a seat's share is taken. -/
def point (K : Type) [Field K] (id : Identifier) : K := id.scalar

/-- Check the parameters, and commit to the polynomial that is drawn. The
    randomness is the stream of the polynomials that the seats draw. -/
def part1 (curve : Curve K V) (id : Identifier) (maxSigners minSigners : UInt16)
    (rng : Nat → Nat → K) : Except Error (Secret1 K V × List V × (Nat → Nat → K)) :=
  if minSigners < 2 then .error .invalidMinSigners
  else if maxSigners < 2 then .error .invalidMaxSigners
  else if maxSigners < minSigners then .error .invalidMinSigners
  else
    let coefficients := (List.range minSigners.toNat).map (rng 0)
    let commitment := coefficients.map (· • curve.generator)
    .ok (⟨id, coefficients, commitment, maxSigners⟩, commitment, fun i => rng (i + 1))

/-- Evaluate the polynomial for every other seat, and for the own one. -/
def part2 (secret : Secret1 K V) (others : BTreeMap Identifier (List V)) :
    Except Error (Secret2 K V × BTreeMap Identifier K) :=
  if others.size ≠ secret.maxSigners.toNat - 1 then .error .incorrectNumberOfPackages
  else
    let sent := Std.ExtTreeMap.map
      (fun id _ => Coefficients.eval (point K id) secret.coefficients) others
    let own := Coefficients.eval (point K secret.identifier) secret.coefficients
    .ok (⟨secret.identifier, secret.commitment, own, secret.maxSigners⟩, sent)

/-- A share fits the commitment of its sender. -/
def verifyShare (curve : Curve K V) (id : Identifier) (share : K) (commitment : List V) : Bool :=
  Coefficients.eval (point K id) commitment = share • curve.generator

/-- Check and add up the shares that were received. -/
def addShares (curve : Curve K V) (id : Identifier) (others : BTreeMap Identifier (List V))
    (inbox : List (Identifier × K)) : Except Error K :=
  inbox.foldlM (fun sum share => do
    let commitment ← others[share.1]?.okOr .incorrectPackage
    if verifyShare curve id share.2 commitment then
      pure (sum + share.2)
    else
      .error (.invalidSecretShare share.1)) 0

def part3 (curve : Curve K V) (secret2 : Secret2 K V) (others : BTreeMap Identifier (List V))
    (inbox : BTreeMap Identifier K) : Except Error (SeatPackage K V × V) :=
  if others.size ≠ secret2.maxSigners.toNat - 1 then .error .incorrectNumberOfPackages
  else if others.size ≠ inbox.size then .error .incorrectNumberOfPackages
  else if others.keys.any (fun id => !inbox.contains id) then .error .incorrectPackage
  else do
    let received ← addShares curve secret2.identifier others inbox.toList
    let constants := (others.toList.map (fun pkg => pkg.2.headD 0)).sum
    let verifyingKey := constants + secret2.commitment.headD 0
    pure (⟨secret2.identifier, received + secret2.secretShare, verifyingKey⟩, verifyingKey)

/-- Negate the share and the key if the key is odd. -/
def seatIntoEvenY (curve : Curve K V) (kp : SeatPackage K V) : SeatPackage K V :=
  if curve.evenY kp.verifyingKey then kp
  else ⟨kp.identifier, -kp.signingShare, -kp.verifyingKey⟩

def groupIntoEvenY (curve : Curve K V) (verifyingKey : V) : V :=
  if curve.evenY verifyingKey then verifyingKey else -verifyingKey

@[reducible] def dkg (curve : Curve K V) : Dkg where
  KeyPackage := SeatPackage K V
  PublicKeyPackage := V
  VerifyingKey := V
  seatKey kp := kp.verifyingKey
  groupKey group := group
  seatIntoEvenY := seatIntoEvenY curve
  groupIntoEvenY := groupIntoEvenY curve
  Rng := Nat → Nat → K
  Error := Error
  R1Secret := Secret1 K V
  R1Package := List V
  R2Secret := Secret2 K V
  R2Package := K
  part1 := part1 curve
  part2 := part2
  part3 := part3 curve

/-- The in-process ceremony over this scheme. -/
def runInprocessDkg (curve : Curve K V) (split2 split3 : List Nat) (minSigners maxSigners : UInt16)
    (rng : Nat → Nat → K) :
    Except (Abort (KeygenError Error)) (BTreeMap Identifier (SeatPackage K V) × V) :=
  letI := dkg curve
  runInprocessDkgWithRng split2 split3 minSigners maxSigners rng

/-- The client's confirmation over this scheme. -/
def confirm (curve : Curve K V) (packages : BTreeMap Identifier (SeatPackage K V)) (group : V) :
    Except (KeygenError Error) Unit :=
  letI := dkg curve
  confirmGroupKey packages group

/-! ## The sum of the polynomials -/

section Ceremony

variable (curve : Curve K V) (minSigners maxSigners : UInt16) (choices : Nat → Nat → K)

/-- The coefficients that a seat draws. -/
def coefficients (id : Identifier) : List K :=
  (List.range minSigners.toNat).map (choices (id.scalar - 1))

/-- The sum at `x` of what all seats draw. -/
def total (x : K) : K :=
  ((firstSeats maxSigners.toNat).map
    (fun id => Coefficients.eval x (coefficients minSigners choices id))).sum

noncomputable def totalPoly : Polynomial K :=
  ((firstSeats maxSigners.toNat).map
    (fun id => Coefficients.toPoly (coefficients minSigners choices id))).sum

theorem eval_totalPoly (x : K) :
    (totalPoly minSigners maxSigners choices).eval x = total minSigners maxSigners choices x := by
  rw [totalPoly, total, Polynomial.eval_listSum, List.map_map]
  congr 1
  apply List.map_congr_left
  intro id _
  exact Coefficients.eval_toPoly x _

theorem degree_totalPoly_lt :
    (totalPoly minSigners maxSigners choices).degree < minSigners.toNat := by
  rw [← Polynomial.mem_degreeLT]
  apply list_sum_mem
  intro p hp
  obtain ⟨id, -, rfl⟩ := List.mem_map.mp hp
  rw [Polynomial.mem_degreeLT]
  have hdegree := Coefficients.degree_toPoly_lt (coefficients minSigners choices id)
  rwa [coefficients, List.length_map, List.length_range] at hdegree

omit [Field K] [DecidableEq V] [Module K V] in
/-- What all others contribute and the own contribution make the total. -/
theorem sum_othersOf (f : Identifier → V) {id : Identifier}
    (hid : id ∈ firstSeats maxSigners.toNat) :
    ((othersOf maxSigners id).map f).sum + f id = ((firstSeats maxSigners.toNat).map f).sum := by
  have hnodup := (pairwise_firstSeats maxSigners.toNat_lt).imp (fun h => h.ne)
  have herase : othersOf maxSigners id = (firstSeats maxSigners.toNat).erase id := by
    rw [List.Nodup.erase_eq_filter hnodup, othersOf]
    apply List.filter_congr
    intro other _
    rw [Bool.eq_iff_iff]
    simp
  rw [herase, add_comm, List.sum_map_erase f hid]

omit [Field K] [DecidableEq V] [Module K V] in
theorem sum_firstSeats (f : Nat → V) {k : Nat} (hk : k < UInt16.size) :
    ((firstSeats k).map (fun id => f (id.scalar - 1))).sum = ∑ i ∈ Finset.range k, f i := by
  induction k with
  | zero => rfl
  | succ k ih =>
      obtain ⟨h, hsucc⟩ := firstSeats_succ hk
      rw [hsucc, List.map_append, List.sum_append, ih (by omega), Finset.sum_range_succ]
      simp

/-- The sum at zero is the sum of the constants that were drawn. -/
theorem total_zero (hpos : 0 < minSigners.toNat) :
    total minSigners maxSigners choices 0 = ∑ i ∈ Finset.range maxSigners.toNat, choices i 0 := by
  have hhead : ∀ id, Coefficients.eval (0 : K) (coefficients minSigners choices id) =
      choices (id.scalar - 1) 0 := by
    intro id
    rw [Coefficients.eval_zero, coefficients]
    cases hrange : minSigners.toNat with
    | zero => omega
    | succ k => simp [List.range_succ_eq_map]
  simp only [total, hhead]
  exact sum_firstSeats (fun i => choices i 0) maxSigners.toNat_lt

/-! ## The ceremony -/

def commitment (id : Identifier) : List V :=
  (coefficients minSigners choices id).map (· • curve.generator)

/-- The share that a sender computes for a recipient. -/
def share (sender recipient : Identifier) : K :=
  Coefficients.eval (point K recipient) (coefficients minSigners choices sender)

omit [DecidableEq V] in
theorem headD_commitment (id : Identifier) :
    (commitment curve minSigners choices id).headD 0 =
      Coefficients.eval (0 : K) (coefficients minSigners choices id) • curve.generator := by
  rw [← Coefficients.eval_zero (K := K), commitment, Coefficients.eval_map_smul]

omit [DecidableEq V] in
/-- The sum of all committed constants commits to the total at zero. -/
theorem sum_headD_commitment :
    ((firstSeats maxSigners.toNat).map
        (fun id => (commitment curve minSigners choices id).headD 0)).sum =
      total minSigners maxSigners choices 0 • curve.generator := by
  rw [total, List.sum_smul, List.map_map]
  congr 1
  apply List.map_congr_left
  intro id _
  exact headD_commitment curve minSigners choices id

/-- Shares that fit their commitments are all accepted. -/
theorem addShares_eq_ok (id : Identifier) (others : BTreeMap Identifier (List V))
    (senders : List Identifier)
    (hothers : ∀ s ∈ senders, others[s]? = some (commitment curve minSigners choices s)) :
    addShares curve id others (senders.map (fun s => (s, share minSigners choices s id))) =
      .ok (senders.map (fun s => share minSigners choices s id)).sum := by
  unfold addShares
  induction senders using List.reverseRecOn with
  | nil => rfl
  | append_singleton senders s ih =>
      have hverify : verifyShare curve id (share minSigners choices s id)
          (commitment curve minSigners choices s) = true := by
        rw [verifyShare, commitment, Coefficients.eval_map_smul, share, decide_eq_true_iff]
      rw [List.map_append, List.foldlM_append,
        ih (fun s hs => hothers s (List.mem_append_left _ hs))]
      simp only [Except.ok_bind, List.map_cons, List.map_nil, List.foldlM_cons, List.foldlM_nil,
        hothers s (by simp), Option.okOr_some, hverify, if_true, List.map_append, List.sum_append,
        List.sum_cons, List.sum_nil, add_zero]
      rfl

/-- A seat's package before it is made even. -/
def rawPackage (id : Identifier) : SeatPackage K V :=
  ⟨id, total minSigners maxSigners choices (point K id),
    total minSigners maxSigners choices 0 • curve.generator⟩

variable {minSigners maxSigners}

omit [DecidableEq V] in
theorem part1_eq_ok (hmin : 2 ≤ minSigners) (hmax : minSigners ≤ maxSigners) (id : Identifier) :
    part1 curve id maxSigners minSigners (fun i => choices (i + (id.scalar - 1))) =
      .ok (⟨id, coefficients minSigners choices id, commitment curve minSigners choices id,
          maxSigners⟩, commitment curve minSigners choices id, fun i => choices (i + id.scalar)) := by
  have hpos := id.pos
  have hrng : (fun i => choices (i + 1 + (id.scalar - 1))) = fun i => choices (i + id.scalar) := by
    funext i
    congr 1
    omega
  rw [part1, if_neg (UInt16.not_lt.mpr hmin),
    if_neg (UInt16.not_lt.mpr (UInt16.le_trans hmin hmax)), if_neg (UInt16.not_lt.mpr hmax), hrng]
  simp only [Nat.zero_add]
  rfl

theorem length_othersOf {id : Identifier} (hid : id.scalar ≤ maxSigners.toNat) :
    (othersOf maxSigners id).length = maxSigners.toNat - 1 := by
  have hmem := (mem_firstSeats maxSigners.toNat_lt).mpr hid
  have hsum := sum_othersOf maxSigners (fun _ => (1 : Int)) hmem
  simp only [List.map_const', List.sum_replicate, length_firstSeats maxSigners.toNat_lt] at hsum
  simp at hsum
  omega

omit [DecidableEq V] in
theorem part2_eq_ok {id : Identifier} (hid : id.scalar ≤ maxSigners.toNat)
    {others : BTreeMap Identifier (List V)} {sent : BTreeMap Identifier K}
    (hothers : others.Tabulates (othersOf maxSigners id) (commitment curve minSigners choices))
    (hsent : sent.Tabulates (othersOf maxSigners id) (share minSigners choices id)) :
    part2 ⟨id, coefficients minSigners choices id, commitment curve minSigners choices id,
        maxSigners⟩ others =
      .ok (⟨id, commitment curve minSigners choices id, share minSigners choices id id,
        maxSigners⟩, sent) := by
  have hsize := hothers.size_eq ((pairwise_firstSeats maxSigners.toNat_lt).filter _)
  rw [length_othersOf hid] at hsize
  have hmap := (hothers.map (fun r _ => share minSigners choices id r)).unique hsent
  rw [part2, if_neg (not_not.mpr hsize), ← hmap]
  rfl

theorem part3_eq_ok {id : Identifier} (hid : id.scalar ≤ maxSigners.toNat)
    {others : BTreeMap Identifier (List V)} {inbox : BTreeMap Identifier K}
    (hothers : others.Tabulates (othersOf maxSigners id) (commitment curve minSigners choices))
    (hinbox : inbox.Tabulates (othersOf maxSigners id)
      (fun sender => share minSigners choices sender id)) :
    part3 curve ⟨id, commitment curve minSigners choices id, share minSigners choices id id,
        maxSigners⟩ others inbox =
      .ok (rawPackage curve minSigners maxSigners choices id,
        total minSigners maxSigners choices 0 • curve.generator) := by
  have hsorted := (pairwise_firstSeats maxSigners.toNat_lt).filter (· ≠ id)
  have hmem := (mem_firstSeats maxSigners.toNat_lt).mpr hid
  have hsize : others.size = maxSigners.toNat - 1 := by
    rw [hothers.size_eq hsorted, ← length_othersOf hid]
  have hsizes : others.size = inbox.size := by
    rw [hothers.size_eq hsorted, hinbox.size_eq hsorted]
  have hkeys : others.keys.any (fun id => !inbox.contains id) = false := by
    rw [List.any_eq_false, hothers.keys_eq hsorted]
    intro sender hsender
    have hget := hinbox.getElem?_of_mem hsender
    simp [Std.ExtTreeMap.contains_eq_isSome_getElem?, hget]
  have hreceived := addShares_eq_ok curve minSigners choices id others
    (othersOf maxSigners id) (fun s hs => hothers.getElem?_of_mem hs)
  have hshares : ((othersOf maxSigners id).map (fun s => share minSigners choices s id)).sum +
      share minSigners choices id id = total minSigners maxSigners choices (point K id) :=
    sum_othersOf maxSigners (fun s => share minSigners choices s id) hmem
  have hconstants : ((othersOf maxSigners id).map
        (fun s => (commitment curve minSigners choices s).headD 0)).sum +
      (commitment curve minSigners choices id).headD 0 =
        total minSigners maxSigners choices 0 • curve.generator :=
    (sum_othersOf maxSigners _ hmem).trans (sum_headD_commitment curve minSigners maxSigners choices)
  rw [part3, if_neg (not_not.mpr hsize), if_neg (not_not.mpr hsizes), if_neg (by simp [hkeys]),
    hinbox.toList_eq hsorted, hothers.toList_eq hsorted]
  refine (congrArg (· >>= _) hreceived).trans ?_
  rw [Except.ok_bind, List.map_map]
  simp only [Function.comp_def, hconstants, hshares]
  rfl

/-- The ceremony in which the seats draw the given polynomials. -/
noncomputable def ceremony (hmin : 2 ≤ minSigners) (hmax : minSigners ≤ maxSigners) :
    @Ceremony (dkg curve) minSigners maxSigners :=
  letI := dkg curve
  { rngAt := fun k i => choices (i + k)
    secret := fun id => ⟨id, coefficients minSigners choices id,
      commitment curve minSigners choices id, maxSigners⟩
    pkg := commitment curve minSigners choices
    secret2 := fun id => ⟨id, commitment curve minSigners choices id,
      share minSigners choices id id, maxSigners⟩
    sent := fun id => (BTreeMap.Tabulates.exists_map (othersOf maxSigners id)
      (share minSigners choices id)).choose
    share := share minSigners choices
    keyPackage := fun id =>
      seatIntoEvenY curve (rawPackage curve minSigners maxSigners choices id)
    group := groupIntoEvenY curve (total minSigners maxSigners choices 0 • curve.generator)
    part1 := fun id _ => part1_eq_ok curve choices hmin hmax id
    part2 := fun _ _ hid hothers =>
      part2_eq_ok curve choices hid hothers (BTreeMap.Tabulates.exists_map _ _).choose_spec
    sends := fun _ _ => (BTreeMap.Tabulates.exists_map _ _).choose_spec
    part3 := fun _ _ _ hid hothers hinbox =>
      ⟨_, _, part3_eq_ok curve choices hid hothers hinbox, rfl, rfl⟩ }

end Ceremony

/-! ## One key -/

/-- The packages are a sharing, with threshold `minSigners`, of the discrete
    logarithm of the group key by the polynomial `p`. -/
structure Shares (curve : Curve K V) (minSigners maxSigners : UInt16)
    (packages : BTreeMap Identifier (SeatPackage K V)) (group : V) (p : Polynomial K) : Prop where
  seats : ∀ id : Identifier, (∃ kp, packages[id]? = some kp) ↔ id.scalar ≤ maxSigners.toNat
  degree : p.degree < minSigners.toNat
  share : ∀ (id : Identifier) (kp : SeatPackage K V), packages[id]? = some kp →
    kp.signingShare = p.eval (point K id)
  key : group = p.eval 0 • curve.generator
  even : curve.evenY group = true

omit [DecidableEq V] in
/-- Any threshold of shares interpolates to the secret key. -/
theorem Shares.interpolate {curve : Curve K V} {minSigners maxSigners : UInt16}
    {packages : BTreeMap Identifier (SeatPackage K V)} {group : V} {p : Polynomial K}
    (h : Shares curve minSigners maxSigners packages group p)
    {s : Finset Identifier} {shares : Identifier → K} (hcard : s.card = minSigners.toNat)
    (hshares : ∀ id ∈ s, ∃ kp, packages[id]? = some kp ∧ shares id = kp.signingShare) :
    (Lagrange.interpolate s (point K) shares).eval 0 = p.eval 0 := by
  have hbound : ∀ id ∈ s, id.scalar < UInt16.size := by
    intro id hid
    obtain ⟨kp, hkp, -⟩ := hshares id hid
    exact Nat.lt_of_le_of_lt ((h.seats id).mp ⟨kp, hkp⟩) maxSigners.toNat_lt
  apply Coefficients.eval_interpolate
  · intro a ha b hb hab
    exact Identifier.scalar_injective (curve.index_injective _ _ (hbound a ha) (hbound b hb) hab)
  · rw [hcard]
    exact h.degree
  · intro id hid
    obtain ⟨kp, hkp, hshare⟩ := hshares id hid
    rw [hshare, h.share id kp hkp]

omit [DecidableEq V] in
theorem evenY_groupIntoEvenY (curve : Curve K V) {p : V} (hp : p ≠ 0) :
    curve.evenY (groupIntoEvenY curve p) = true := by
  unfold groupIntoEvenY
  split
  · assumption
  · next hodd => rw [curve.evenY_neg p hp, Bool.eq_false_iff.mpr hodd, Bool.not_false]

/-- The polynomial behind the shares: the sum of what was drawn, negated when
    its key is odd. -/
noncomputable def evenPoly (curve : Curve K V) (minSigners maxSigners : UInt16)
    (choices : Nat → Nat → K) : Polynomial K :=
  if curve.evenY (total minSigners maxSigners choices 0 • curve.generator) then
    totalPoly minSigners maxSigners choices
  else
    -totalPoly minSigners maxSigners choices

omit [DecidableEq V] in
/-- A seat's normalised package holds the value of that polynomial, and its key
    is normalised as the group's is. -/
theorem seatIntoEvenY_rawPackage (curve : Curve K V) (minSigners maxSigners : UInt16)
    (choices : Nat → Nat → K) (id : Identifier) :
    seatIntoEvenY curve (rawPackage curve minSigners maxSigners choices id) =
      ⟨id, (evenPoly curve minSigners maxSigners choices).eval (point K id),
        groupIntoEvenY curve (total minSigners maxSigners choices 0 • curve.generator)⟩ := by
  unfold seatIntoEvenY groupIntoEvenY evenPoly rawPackage
  split
  · rw [eval_totalPoly]
  · rw [Polynomial.eval_neg, eval_totalPoly]

/-- The package that a seat ends up with. -/
noncomputable def seatPackage (curve : Curve K V) (minSigners maxSigners : UInt16)
    (choices : Nat → Nat → K) (id : Identifier) : SeatPackage K V :=
  ⟨id, (evenPoly curve minSigners maxSigners choices).eval (point K id),
    groupIntoEvenY curve (total minSigners maxSigners choices 0 • curve.generator)⟩

omit [DecidableEq V] in
theorem shares_evenPoly (curve : Curve K V) (minSigners maxSigners : UInt16)
    (choices : Nat → Nat → K) {packages : BTreeMap Identifier (SeatPackage K V)}
    (htab : packages.Tabulates (firstSeats maxSigners.toNat)
      (seatPackage curve minSigners maxSigners choices))
    (hkey : total minSigners maxSigners choices 0 • curve.generator ≠ 0) :
    Shares curve minSigners maxSigners packages
      (groupIntoEvenY curve (total minSigners maxSigners choices 0 • curve.generator))
      (evenPoly curve minSigners maxSigners choices) where
  seats := by
    intro id
    rw [htab id, ← mem_firstSeats maxSigners.toNat_lt]
    by_cases hid : id ∈ firstSeats maxSigners.toNat <;> simp [hid]
  degree := by
    have hdegree := degree_totalPoly_lt minSigners maxSigners choices
    unfold evenPoly
    split
    · exact hdegree
    · rwa [Polynomial.degree_neg]
  share := by
    intro id kp hkp
    rw [htab.eq_of_getElem? hkp]
    rfl
  key := by
    unfold groupIntoEvenY evenPoly
    split
    · rw [eval_totalPoly]
    · rw [Polynomial.eval_neg, eval_totalPoly, neg_smul]
  even := evenY_groupIntoEvenY curve hkey

theorem runInprocessDkg_eq_ok (curve : Curve K V) {minSigners maxSigners : UInt16}
    (hmin : 2 ≤ minSigners) (hmax : minSigners ≤ maxSigners) (hpos : 0 < maxSigners.toNat)
    (choices : Nat → Nat → K) (split2 split3 : List Nat) :
    ∃ packages, runInprocessDkg curve split2 split3 minSigners maxSigners choices =
        .ok (packages,
          groupIntoEvenY curve (total minSigners maxSigners choices 0 • curve.generator)) ∧
      packages.Tabulates (firstSeats maxSigners.toNat)
        (seatPackage curve minSigners maxSigners choices) := by
  obtain ⟨packages, hrun, htab⟩ := @Ceremony.run_eq_ok (dkg curve) _ minSigners maxSigners
    (ceremony curve choices hmin hmax) split2 split3 hpos
  exact ⟨packages, hrun,
    htab.congr (seatIntoEvenY_rawPackage curve minSigners maxSigners choices)⟩

/-- Whatever polynomials the seats draw, as long as their constants do not
    cancel, the ceremony yields one threshold sharing of one even key, and the
    client's confirmation accepts it. -/
theorem runInprocessDkg_shares_one_key (curve : Curve K V)
    (minSigners maxSigners : UInt16) (hmin : 2 ≤ minSigners) (hmax : minSigners ≤ maxSigners)
    (choices : Nat → Nat → K) (hsum : ∑ i ∈ Finset.range maxSigners.toNat, choices i 0 ≠ 0)
    (split2 split3 : List Nat) :
    ∃ packages group p,
      runInprocessDkg curve split2 split3 minSigners maxSigners choices = .ok (packages, group) ∧
      Shares curve minSigners maxSigners packages group p ∧
      (∀ (s : Finset Identifier) (shares : Identifier → K), s.card = minSigners.toNat →
        (∀ id ∈ s, ∃ kp, packages[id]? = some kp ∧ shares id = kp.signingShare) →
          (Lagrange.interpolate s (point K) shares).eval 0 = p.eval 0) ∧
      confirm curve packages group = .ok () := by
  have hminpos : 0 < minSigners.toNat := by
    have hle := UInt16.le_iff_toNat_le.mp hmin
    simp at hle
    omega
  have hmaxpos : 0 < maxSigners.toNat := hminpos.trans_le (UInt16.le_iff_toNat_le.mp hmax)
  obtain ⟨packages, hrun, htab⟩ :=
    runInprocessDkg_eq_ok curve hmin hmax hmaxpos choices split2 split3
  have hkey : total minSigners maxSigners choices 0 • curve.generator ≠ 0 := by
    rw [total_zero minSigners maxSigners choices hminpos]
    exact smul_ne_zero hsum curve.generator_ne_zero
  have hshares := shares_evenPoly curve minSigners maxSigners choices htab hkey
  refine ⟨packages, _, _, hrun, hshares,
    fun s shares hcard hpackages => hshares.interpolate hcard hpackages, ?_⟩
  apply (@confirmGroupKey_eq_ok (dkg curve).toFrostKeys _ _ _ _).mpr
  intro id kp hkp
  rw [htab.eq_of_getElem? hkp]
  rfl

instance fact_prime : Fact (Nat.Prime 65537) := ⟨by norm_num⟩

/-- The additive group of a prime field, its own scalars, where a point is even
    if its representative is. -/
def primeCurve : Curve (ZMod 65537) (ZMod 65537) where
  generator := 1
  generator_ne_zero := by decide
  index_injective := by
    intro a b ha hb hab
    have hmod := (ZMod.natCast_eq_natCast_iff' a b 65537).mp hab
    simp only [UInt16.size] at ha hb
    omega
  evenY p := p.val % 2 == 0
  evenY_neg := by
    intro p hp
    have hlt := p.val_lt
    have hpos : p.val ≠ 0 := fun h => hp ((ZMod.val_eq_zero p).mp h)
    rw [ZMod.neg_val, if_neg hp, Bool.eq_iff_iff]
    simp
    omega

/-- Three seats with threshold two, and uneven blocks. -/
theorem runInprocessDkg_two_of_three :
    ∃ packages group p,
      runInprocessDkg primeCurve [1] [0, 2] 2 3 (fun i k => ((i + k + 1 : Nat) : ZMod 65537)) =
        .ok (packages, group) ∧
      Shares primeCurve 2 3 packages group p ∧
      (∀ (s : Finset Identifier) (shares : Identifier → ZMod 65537), s.card = 2 →
        (∀ id ∈ s, ∃ kp, packages[id]? = some kp ∧ shares id = kp.signingShare) →
          (Lagrange.interpolate s (point (ZMod 65537)) shares).eval 0 = p.eval 0) ∧
      confirm primeCurve packages group = .ok () :=
  runInprocessDkg_shares_one_key primeCurve 2 3 (by decide) (by decide) _ (by decide) [1] [0, 2]

end Feldman

end Crypto
