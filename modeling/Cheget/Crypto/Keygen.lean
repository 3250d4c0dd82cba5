-- SUMMARY: The in-process key generation: a sequential first round, two parallel rounds over a shared package pool, and the group-key confirmation.
import Cheget.Base.Parallel
import Cheget.Crypto.Frost

/-!
# In-process key generation

The ceremony runs all seats in one process. Round 1 is sequential, since it
draws randomness. In rounds 2 and 3 a worker holds one copy of all round-1
packages: it takes a seat's own package out, calls the primitive with what is
left, and puts the package back.
-/

namespace Crypto

/-- The three parts of FROST's distributed key generation. -/
class Dkg extends FrostKeys where
  Rng : Type
  Error : Type
  R1Secret : Type
  R1Package : Type
  R2Secret : Type
  R2Package : Type
  /-- `dkg::part1(identifier, max_signers, min_signers, rng)` -/
  part1 : Identifier → UInt16 → UInt16 → Rng → Except Error (R1Secret × R1Package × Rng)
  part2 : R1Secret → BTreeMap Identifier R1Package →
    Except Error (R2Secret × BTreeMap Identifier R2Package)
  part3 : R2Secret → BTreeMap Identifier R1Package → BTreeMap Identifier R2Package →
    Except Error (KeyPackage × PublicKeyPackage)

export Dkg (Rng R1Secret R1Package R2Secret R2Package)

inductive KeygenError (FrostError : Type) where
  | frost (e : FrostError)
  | identifier (index : UInt16)
  | groupKeyMismatch (seat : Identifier)
  | empty

/-! ## Round 1 -/

/-- The indices `1..=max_signers`. -/
def signerIndices (maxSigners : UInt16) : List UInt16 :=
  (List.range' 1 maxSigners.toNat).map UInt16.ofNat

section Rounds

variable [Dkg]

/-- What round 1 has gathered: the secrets in order, and the package pool. -/
structure Round1State where
  secrets : List (Identifier × R1Secret)
  packages : BTreeMap Identifier R1Package
  rng : Rng

/-- One seat of round 1. -/
def round1Seat (minSigners maxSigners : UInt16) (s : Round1State) (i : UInt16) :
    Except (KeygenError Dkg.Error) Round1State := do
  let id ← (Identifier.ofU16 i).okOr (.identifier i)
  let (secret, pkg, rng) ← (Dkg.part1 id maxSigners minSigners s.rng).mapError .frost
  pure ⟨s.secrets ++ [(id, secret)], s.packages.insert id pkg, rng⟩

/-- Round 1: every seat in turn, threading the randomness. -/
def round1 (minSigners maxSigners : UInt16) (rng : Rng) :
    Except (KeygenError Dkg.Error) Round1State :=
  (signerIndices maxSigners).foldlM (round1Seat minSigners maxSigners) ⟨[], ∅, rng⟩

/-! ## Workers -/

/-- The step of a worker: take the seat's own package out of the pool, call the
    primitive with the others, and put it back. A failed call returns early and
    leaves the package out; a seat that is not in the pool is a panic. -/
def withOthers {α β : Type} (id : Identifier)
    (call : BTreeMap Identifier α → Except (KeygenError Dkg.Error) β)
    (pool : BTreeMap Identifier α) :
    Option (Except (KeygenError Dkg.Error) β × BTreeMap Identifier α) :=
  match pool[id]? with
  | none => none
  | some selfPkg =>
      match call (pool.erase id) with
      | .ok result => some (.ok result, (pool.erase id).insert id selfPkg)
      | .error e => some (.error e, pool.erase id)

/-! ## Round 2 -/

/-- The packages on their way, by recipient and then by sender. -/
abbrev Mailboxes := BTreeMap Identifier (BTreeMap Identifier R2Package)

/-- The closure of round 2. -/
def round2Seat (pool : BTreeMap Identifier R1Package) (seat : Identifier × R1Secret) :
    Option (Except (KeygenError Dkg.Error) (Identifier × R2Secret × BTreeMap Identifier R2Package) ×
      BTreeMap Identifier R1Package) :=
  withOthers seat.1 (fun others => do
    let (secret2, sent) ← (Dkg.part2 seat.2 others).mapError .frost
    pure (seat.1, secret2, sent)) pool

/-- Put one seat's outgoing packages into the mailboxes of their recipients. -/
def fanOut (id : Identifier) (byRecipient : Mailboxes) (sent : List (Identifier × R2Package)) :
    Mailboxes :=
  sent.foldl (fun boxes pkg =>
    boxes.insert pkg.1 ((boxes[pkg.1]?.getD ∅).insert id pkg.2)) byRecipient

/-- Resolve the results of round 2 in order, the first error ending it. -/
def resolveRound2
    (computed :
      List (Except (KeygenError Dkg.Error) (Identifier × R2Secret × BTreeMap Identifier R2Package))) :
    Except (KeygenError Dkg.Error) (List (Identifier × R2Secret) × Mailboxes) :=
  computed.foldlM (fun s res => do
    let (id, secret2, sent) ← res
    pure (s.1 ++ [(id, secret2)], fanOut id s.2 sent.toList)) ([], ∅)

/-! ## Round 3 -/

/-- The closure of round 3. -/
def round3Seat (byRecipient : Mailboxes) (pool : BTreeMap Identifier R1Package)
    (seat : Identifier × R2Secret) :
    Option (Except (KeygenError Dkg.Error) (Identifier × KeyPackage × PublicKeyPackage) ×
      BTreeMap Identifier R1Package) :=
  withOthers seat.1 (fun others => do
    let (kp, pubkeys) ←
      (Dkg.part3 seat.2 others (byRecipient[seat.1]?.getD ∅)).mapError .frost
    pure (seat.1, FrostKeys.seatIntoEvenY kp, FrostKeys.groupIntoEvenY pubkeys)) pool

variable [DecidableEq VerifyingKey]

/-- Compare a seat's group key with the one of the first seat. -/
def confirmSeat (s : BTreeMap Identifier KeyPackage × Option PublicKeyPackage)
    (res : Except (KeygenError Dkg.Error) (Identifier × KeyPackage × PublicKeyPackage)) :
    Except (KeygenError Dkg.Error) (BTreeMap Identifier KeyPackage × Option PublicKeyPackage) := do
  let (id, kp, pubkeys) ← res
  match s.2 with
  | some g =>
      if FrostKeys.groupKey g ≠ FrostKeys.groupKey pubkeys then
        .error (.groupKeyMismatch id)
      else
        pure (s.1.insert id kp, some g)
  | none => pure (s.1.insert id kp, some pubkeys)

/-- Resolve the results of round 3 in order. -/
def resolveRound3
    (computed : List (Except (KeygenError Dkg.Error) (Identifier × KeyPackage × PublicKeyPackage))) :
    Except (KeygenError Dkg.Error) (BTreeMap Identifier KeyPackage × PublicKeyPackage) := do
  let (keyPackages, group) ← computed.foldlM confirmSeat (∅, none)
  let group ← group.okOr .empty
  pure (keyPackages, group)

/-! ## The ceremony -/

/-- The key packages and the group package of a whole ceremony. `split2` and
    `split3` are the block sizes that the two parallel maps happen to use. -/
def runInprocessDkgWithRng (split2 split3 : List Nat) (minSigners maxSigners : UInt16) (rng : Rng) :
    Except (Abort (KeygenError Dkg.Error)) (BTreeMap Identifier KeyPackage × PublicKeyPackage) := do
  let r1 ← (round1 minSigners maxSigners rng).mapError .error
  let r2Computed ← (Parallel.mapWith split2 round2Seat r1.packages r1.secrets).okOr .panic
  let (r2Secret, byRecipient) ← (resolveRound2 r2Computed).mapError .error
  let r3Computed ←
    (Parallel.mapWith split3 (round3Seat byRecipient) r1.packages r2Secret).okOr .panic
  (resolveRound3 r3Computed).mapError .error

end Rounds

/-! ## Confirmation -/

/-- Every seat's verifying key must be the group's. -/
def confirmGroupKey [FrostKeys] [DecidableEq VerifyingKey] {FrostError : Type}
    (packages : BTreeMap Identifier KeyPackage) (group : PublicKeyPackage) :
    Except (KeygenError FrostError) Unit :=
  packages.toList.forM (fun seat =>
    if FrostKeys.seatKey seat.2 ≠ FrostKeys.groupKey group then
      .error (.groupKeyMismatch seat.1)
    else
      .ok ())

/-- Confirmation succeeds exactly for packages of the group. -/
theorem confirmGroupKey_eq_ok [FrostKeys] [DecidableEq VerifyingKey] {FrostError : Type}
    {packages : BTreeMap Identifier KeyPackage} {group : PublicKeyPackage} :
    (confirmGroupKey packages group : Except (KeygenError FrostError) Unit) = .ok () ↔
      ∀ (id : Identifier) (kp : KeyPackage), packages[id]? = some kp →
        FrostKeys.seatKey kp = FrostKeys.groupKey group := by
  have hloop : ∀ seats : List (Identifier × KeyPackage),
      seats.forM (fun seat =>
        if FrostKeys.seatKey seat.2 ≠ FrostKeys.groupKey group then
          (.error (.groupKeyMismatch seat.1) : Except (KeygenError FrostError) Unit)
        else
          .ok ()) = .ok () ↔
      ∀ seat ∈ seats, FrostKeys.seatKey seat.2 = FrostKeys.groupKey group := by
    intro seats
    induction seats with
    | nil => simp [List.forM]; rfl
    | cons seat seats ih =>
        rw [List.forM, List.forall_mem_cons, ← ih, Except.bind_eq_ok]
        by_cases hseat : FrostKeys.seatKey seat.2 = FrostKeys.groupKey group
        · simp [hseat]
        · simp [hseat]
  rw [confirmGroupKey, hloop, Prod.forall]
  exact forall₂_congr (fun id kp => by rw [BTreeMap.mem_toList])

end Crypto
