-- SUMMARY: The address of a group and the check of its signatures agree on the output key.
import Cheget.Base.XOnly
import Cheget.Bridge.Taproot
import Mathlib.Data.UInt
import Mathlib.Data.ZMod.Basic

/-!
# The output key

`bitcoin` derives the output key of an address from the x-coordinate of the
internal key, FROST derives the key that signatures verify against from the group
key and its parity. Read over one curve, both are the same point's x-coordinate.
-/

namespace Bridge

open Chain Crypto Session

/-! ## Both libraries over one curve -/

section Curve

variable [Frost] [Taproot] {K V : Type} [Ring K] [AddCommGroup V] [Module K V]

/-- The output key that an address commits to: its script is `OP_1` and a push of
    the 32 bytes of the key. -/
def committedKey (addr : Address) : Bytes := (Taproot.scriptPubkey addr).drop 2

/-- What the two libraries compute, for the points of verifying keys and the
    x-coordinates of x-only keys. -/
structure ReadsAs (curve : XOnlyCurve K V Bytes) (point : VerifyingKey → V)
    (xOf : XOnlyPublicKey → Bytes) : Prop where
  hasEvenY : ∀ vk, Taproot.hasEvenY vk = curve.evenY (point vk)
  serialize : ∀ vk, point vk ≠ 0 →
    Taproot.serialize vk =
      some ((if curve.evenY (point vk) then 2 else 3) :: curve.x (point vk))
  length_x : ∀ p, p ≠ 0 → (curve.x p).length = 32
  fromSlice : ∀ p, p ≠ 0 → ∃ key, Taproot.fromSlice (curve.x p) = .ok key ∧ xOf key = curve.x p
  p2tr : ∀ key hrp, Taproot.scriptPubkey (Taproot.p2tr key hrp) =
    0x51 :: 0x20 ::
      curve.x (curve.liftX (xOf key) + curve.tapTweakHash (xOf key) • curve.generator)
  groupIntoEvenY : ∀ pkg, point (FrostKeys.groupKey (FrostKeys.groupIntoEvenY pkg)) =
    curve.intoEvenY (point (FrostKeys.groupKey pkg))
  groupTweak : ∀ pkg, point (FrostKeys.groupKey (Frost.groupTweak pkg)) =
    curve.outputKey (point (FrostKeys.groupKey pkg))

namespace ReadsAs

variable [Build] {curve : XOnlyCurve K V Bytes} {point : VerifyingKey → V}
  {xOf : XOnlyPublicKey → Bytes} (reads : ReadsAs curve point xOf) {vk : VerifyingKey}

include reads

/-- An even key passes every check, and its coordinate is what is parsed. -/
theorem internalKeyXonly_even (hvk : point vk ≠ 0) (heven : curve.evenY (point vk) = true) :
    internalKeyXonly vk =
      (Taproot.fromSlice (curve.x (point vk))).mapError (fun e => .error (.secp e)) := by
  have hparity : ¬ Taproot.hasEvenY vk = false := by
    rw [reads.hasEvenY, heven]
    exact Bool.noConfusion
  have hsec1 := reads.serialize vk hvk
  rw [if_pos heven] at hsec1
  rw [internalKeyXonly, if_neg hparity, hsec1]
  simp [Option.okOr, reads.length_x _ hvk]

theorem internalKeyXonly_odd (hodd : curve.evenY (point vk) = false) :
    internalKeyXonly vk = .error (.error .oddY) := by
  apply if_pos
  rw [reads.hasEvenY, hodd]

/-- The x-only form of an even key. -/
theorem exists_internalKeyXonly (hvk : point vk ≠ 0) (heven : curve.evenY (point vk) = true) :
    ∃ key, internalKeyXonly vk = .ok key ∧ xOf key = curve.x (point vk) := by
  obtain ⟨key, hparse, hx⟩ := reads.fromSlice _ hvk
  refine ⟨key, ?_, hx⟩
  rw [reads.internalKeyXonly_even hvk heven, hparse]
  rfl

/-- The key that is handed out is the coordinate of the one that was given. -/
theorem xOf_of_internalKeyXonly (hvk : point vk ≠ 0) {key : XOnlyPublicKey}
    (h : internalKeyXonly vk = .ok key) : xOf key = curve.x (point vk) := by
  cases hparity : curve.evenY (point vk) with
  | false =>
      rw [reads.internalKeyXonly_odd hparity] at h
      cases h
  | true =>
      obtain ⟨key', hkey', hx⟩ := reads.exists_internalKeyXonly hvk hparity
      rw [hkey'] at h
      cases h
      exact hx

theorem addressFromGroupKey_odd_iff (hvk : point vk ≠ 0) (hrp : KnownHrp) :
    addressFromGroupKey vk hrp = .error (.error .oddY) ↔ curve.evenY (point vk) = false := by
  cases hparity : curve.evenY (point vk) with
  | false =>
      rw [addressFromGroupKey, reads.internalKeyXonly_odd hparity]
      exact iff_of_true rfl rfl
  | true =>
      obtain ⟨key, hkey, _⟩ := reads.exists_internalKeyXonly hvk hparity
      rw [addressFromGroupKey, hkey]
      constructor <;> exact fun h => nomatch h

/-- The address of an even key commits to the key's output key. -/
theorem exists_addressFromGroupKey (hvk : point vk ≠ 0) (heven : curve.evenY (point vk) = true)
    (hrp : KnownHrp) :
    ∃ addr, addressFromGroupKey vk hrp = .ok addr ∧
      committedKey addr = curve.x (curve.outputKey (point vk)) := by
  obtain ⟨key, hkey, hx⟩ := reads.exists_internalKeyXonly hvk heven
  refine ⟨Taproot.p2tr key hrp, ?_, ?_⟩
  · rw [addressFromGroupKey, hkey]
    rfl
  · rw [committedKey, reads.p2tr, hx, curve.liftX_eq hvk]
    rfl

omit [Build] in
/-- The key that signatures are verified against. -/
theorem point_outputKeyQ (pkg : PublicKeyPackage) (hP : point (FrostKeys.groupKey pkg) ≠ 0) :
    point (outputKeyQ pkg) = curve.outputKey (point (FrostKeys.groupKey pkg)) := by
  rw [outputKeyQ, reads.groupTweak, reads.groupIntoEvenY, curve.outputKey_intoEvenY hP]

end ReadsAs

/-- The output key of the address, that of the signature check, the refusal of odd
    keys and the internal key are all functions of one x-coordinate. -/
theorem address_commits_outputKeyQ [Build] {curve : XOnlyCurve K V Bytes} {point : VerifyingKey → V}
    {xOf : XOnlyPublicKey → Bytes} (reads : ReadsAs curve point xOf) (pkg : PublicKeyPackage)
    (hP : point (FrostKeys.groupKey pkg) ≠ 0) (hrp : KnownHrp) :
    (∀ vk, point vk = curve.intoEvenY (point (FrostKeys.groupKey pkg)) →
      (∃ addr, addressFromGroupKey vk hrp = .ok addr ∧
        committedKey addr = curve.x (point (outputKeyQ pkg))) ∧
      ∃ key, internalKeyXonly vk = .ok key ∧ xOf key = curve.x (point (FrostKeys.groupKey pkg))) ∧
    (∀ key, internalKeyXonly (FrostKeys.groupKey pkg) = .ok key →
      xOf key = curve.x (point (FrostKeys.groupKey pkg))) ∧
    (addressFromGroupKey (FrostKeys.groupKey pkg) hrp = .error (.error .oddY) ↔
      curve.evenY (point (FrostKeys.groupKey pkg)) = false) ∧
    (∀ neg, point (FrostKeys.groupKey neg) = -point (FrostKeys.groupKey pkg) →
      addressFromGroupKey (FrostKeys.groupKey (FrostKeys.groupIntoEvenY neg)) hrp =
        addressFromGroupKey (FrostKeys.groupKey (FrostKeys.groupIntoEvenY pkg)) hrp ∧
      curve.x (point (outputKeyQ neg)) = curve.x (point (outputKeyQ pkg))) := by
  have hnormal : curve.intoEvenY (point (FrostKeys.groupKey pkg)) ≠ 0 := curve.intoEvenY_ne_zero hP
  have heven : curve.evenY (curve.intoEvenY (point (FrostKeys.groupKey pkg))) = true :=
    curve.evenY_intoEvenY hP
  refine ⟨?_, fun key => reads.xOf_of_internalKeyXonly hP,
    reads.addressFromGroupKey_odd_iff hP hrp, ?_⟩
  · intro vk hvk
    rw [reads.point_outputKeyQ pkg hP]
    rw [← hvk] at hnormal heven
    obtain ⟨addr, haddr, hcommits⟩ := reads.exists_addressFromGroupKey hnormal heven hrp
    obtain ⟨key, hkey, hx⟩ := reads.exists_internalKeyXonly hnormal heven
    rw [hvk, curve.outputKey_intoEvenY hP] at hcommits
    rw [hvk, curve.x_intoEvenY hP] at hx
    exact ⟨⟨addr, haddr, hcommits⟩, key, hkey, hx⟩
  · intro neg hneg
    have hN : point (FrostKeys.groupKey neg) ≠ 0 := by
      rw [hneg]
      exact neg_ne_zero.mpr hP
    -- both packages normalise to keys of one point, and the bridge sees only the point
    have hsame : point (FrostKeys.groupKey (FrostKeys.groupIntoEvenY neg)) =
        point (FrostKeys.groupKey (FrostKeys.groupIntoEvenY pkg)) := by
      rw [reads.groupIntoEvenY, reads.groupIntoEvenY, hneg, curve.intoEvenY_neg hP]
    have hpkg := reads.groupIntoEvenY pkg
    rw [← hpkg] at hnormal heven
    constructor
    · rw [addressFromGroupKey, addressFromGroupKey, reads.internalKeyXonly_even hnormal heven,
        reads.internalKeyXonly_even (hsame ▸ hnormal) (hsame ▸ heven), hsame]
    · rw [reads.point_outputKeyQ neg hN, reads.point_outputKeyQ pkg hP, hneg, curve.outputKey_neg hP]

end Curve

/-! ## A curve of seven points -/

namespace Plain

/-- Coordinates of 32 bytes: the square of the point. -/
def square (p : ZMod 7) : Bytes := List.replicate 31 0 ++ [UInt8.ofNat (p * p).val]

def isEven (p : ZMod 7) : Bool := p.val % 2 == 0

/-- The even point with a coordinate; two where there is none. -/
def lift (x : Bytes) : ZMod 7 :=
  if x = square 4 then 4 else if x = square 6 then 6 else 2

@[reducible] def sevenPoints : XOnlyCurve (ZMod 7) (ZMod 7) Bytes where
  generator := 1
  x := square
  evenY := isEven
  liftX := lift
  tapTweakHash x := (x.sum.toNat : ZMod 7)
  x_eq_iff := by decide +kernel
  evenY_neg := by decide +kernel
  liftX_ne_zero := by decide +kernel
  x_liftX := by decide +kernel
  evenY_liftX := by decide +kernel

/-- Packages and keys that are points of the curve. -/
@[reducible] def pointFrost : Frost where
  KeyPackage := Unit
  PublicKeyPackage := ZMod 7
  VerifyingKey := ZMod 7
  seatKey _ := 0
  groupKey p := p
  seatIntoEvenY kp := kp
  groupIntoEvenY p := sevenPoints.intoEvenY p
  SigningShare := Unit
  SigningNonces := Unit
  SigningCommitments := Unit
  SignatureShare := Unit
  Signature := Unit
  Error := Unit
  Entropy := Unit
  signingShare _ := ()
  newNonces _ _ := ()
  commitmentsOf _ := ()
  serializeCommitments _ := .ok []
  deserializeCommitments _ := .ok ()
  signWithTweak _ _ _ := .ok ()
  serializeShare _ := []
  deserializeShare _ := .ok ()
  aggregateWithTweak _ _ _ := .ok ()
  culprits _ := []
  groupTweak p := sevenPoints.outputKey p
  verify _ _ _ := .ok ()
  serializeSignature _ := .ok []

scoped instance instPointFrost : Frost := pointFrost

@[reducible] def pointTaproot : Taproot where
  XOnlyPublicKey := Bytes
  Address := Bytes
  SecpError := Unit
  hasEvenY p := isEven p
  serialize p := some ((if isEven p then 2 else 3) :: square p)
  fromSlice bytes := .ok bytes
  p2tr key _ :=
    0x51 :: 0x20 ::
      square (lift key + sevenPoints.tapTweakHash key • sevenPoints.generator)
  scriptPubkey addr := addr

scoped instance instPointTaproot : Taproot := pointTaproot

theorem readsAs : ReadsAs sevenPoints (fun vk => vk) (fun key => key) where
  hasEvenY _ := rfl
  serialize _ _ := rfl
  length_x p _ := by simp [square]
  fromSlice p _ := ⟨square p, rfl, rfl⟩
  p2tr _ _ := rfl
  groupIntoEvenY _ := rfl
  groupTweak _ := rfl

scoped instance instBuild : Build := ⟨true⟩

end Plain

open Plain in
/-- A package with an odd key. -/
theorem address_commits_outputKeyQ_odd :
    addressFromGroupKey (3 : ZMod 7) .mainnet = .error (.error .oddY) ∧
      ∃ addr, addressFromGroupKey (4 : ZMod 7) .mainnet = .ok addr ∧
        committedKey addr = square (outputKeyQ (3 : ZMod 7)) := by
  have hnonzero : (3 : ZMod 7) ≠ 0 := by decide
  have h := address_commits_outputKeyQ readsAs (3 : ZMod 7) hnonzero .mainnet
  exact ⟨h.2.2.1.mpr (by decide), (h.1 (4 : ZMod 7) (by decide)).1⟩

end Bridge
