-- SUMMARY: The paths of a store determine the root and the coordinates they were made from.
import Cheget.Base.Text
import Cheget.Store.Participant

namespace Store

open Cli Crypto

deriving instance DecidableEq for ShareTag

/-! ## Seats -/

theorem seatBytes_hexBytes (hex : String) (bytes : Bytes) :
    seatBytes hex (Bytes.hexBytes bytes) = .ok bytes := by
  induction bytes with
  | nil => rfl
  | cons b bytes ih =>
      have hascii : ∀ n < 16, (Bytes.hexDigit n).toNat < 128 := by decide
      have hlt := b.toNat_lt
      have hcons : Bytes.hexBytes (b :: bytes) =
          Bytes.hexDigit (b.toNat / 16) :: Bytes.hexDigit (b.toNat % 16) ::
            Bytes.hexBytes bytes := rfl
      rw [hcons, seatBytes,
        if_pos (Or.inl ⟨hascii _ (by omega), hascii _ (Nat.mod_lt _ (by decide))⟩),
        Bytes.hexPair_hexDigit, ih]
      rfl

/-- The spelling of a seat denotes it. -/
theorem seatFromHex_seatHex [KeyCodec] [Json] (seat : SeatId) : seatFromHex (seatHex seat) = .ok seat := by
  have hutf8 : Bytes.utf8 (seatHex seat) = Bytes.hexBytes seat.serialize := Bytes.utf8_hex _
  rw [seatFromHex, hutf8, Bytes.length_hexBytes, if_neg (by simp), seatBytes_hexBytes, Except.mapError_ok,
    Except.ok_bind, Identifier.deserialize_serialize, Option.okOr_some]

theorem seatHex_injective : Function.Injective seatHex := by
  intro a b h
  have hutf8 : Bytes.hexBytes a.serialize = Bytes.hexBytes b.serialize := by
    rw [← Bytes.utf8_hex, ← Bytes.utf8_hex]
    exact congrArg Bytes.utf8 h
  have hbytes : (Except.ok a.serialize : Except ManifestFault Bytes) = .ok b.serialize := by
    rw [← seatBytes_hexBytes "", ← seatBytes_hexBytes "", hutf8]
  have hid := congrArg Identifier.deserialize (Except.ok.inj hbytes)
  rw [Identifier.deserialize_serialize, Identifier.deserialize_serialize] at hid
  exact Option.some.inj hid

/-! ## Paths -/

theorem Epoch.ext_toNat {a b : Epoch} (h : a.number.toNat = b.number.toNat) : a = b := by
  cases a
  cases b
  exact congrArg Epoch.mk (UInt64.toNat_inj.mp h)

theorem manifestPath_inj {root root' : FilePath} (h : manifestPath root = manifestPath root') :
    root = root' :=
  (List.append_inj' h rfl).1

theorem sharePath_inj {root root' : FilePath} {tag tag' : ShareTag}
    (h : sharePath root tag = sharePath root' tag') : root = root' ∧ tag = tag' := by
  unfold sharePath at h
  obtain ⟨hroot, htag⟩ := List.append_inj' h (by simp)
  obtain ⟨keyId, epoch, seat⟩ := tag
  obtain ⟨keyId', epoch', seat'⟩ := tag'
  simp only [List.cons.injEq, true_and, and_true] at htag
  obtain ⟨hkey, hepoch, hseat⟩ := htag
  refine ⟨hroot, ?_⟩
  rw [KeyId.label_injective hkey,
    Epoch.ext_toNat (Nat.toString_injective (String.append_right_injective _ hepoch)),
    seatHex_injective (String.append_right_injective _ (String.append_left_injective _ hseat))]

theorem publicPath_inj {root root' : FilePath} {keyId keyId' : KeyId} {epoch epoch' : Epoch}
    (h : publicPath root keyId epoch = publicPath root' keyId' epoch') :
    root = root' ∧ keyId = keyId' ∧ epoch = epoch' := by
  unfold publicPath at h
  obtain ⟨hroot, hrest⟩ := List.append_inj' h (by simp)
  simp only [List.cons.injEq, true_and, and_true] at hrest
  refine ⟨hroot, KeyId.label_injective hrest.1, ?_⟩
  exact Epoch.ext_toNat (Nat.toString_injective
    (String.append_right_injective _ (String.append_left_injective _ hrest.2)))

/-- Files of different kinds have names that start differently. -/
theorem concat_ne_of_head {dir dir' : FilePath} {name name' : String}
    (h : name.toList.head? ≠ name'.toList.head?) : dir ++ [name] ≠ dir' ++ [name'] := by
  intro heq
  obtain ⟨-, hname⟩ := List.append_inj' heq rfl
  cases hname
  exact h rfl

theorem sharePath_eq_concat (root : FilePath) (tag : ShareTag) :
    sharePath root tag =
      (root ++ ["shares", tag.keyId.label, "epoch-" ++ toString tag.epoch.number.toNat]) ++
        ["seat-" ++ seatHex tag.seat ++ ".age"] := by
  simp [sharePath]

theorem publicPath_eq_concat (root : FilePath) (keyId : KeyId) (epoch : Epoch) :
    publicPath root keyId epoch =
      (root ++ ["pubkey", keyId.label]) ++ ["epoch-" ++ toString epoch.number.toNat ++ ".json"] := by
  simp [publicPath]

theorem sharePath_ne_manifestPath (root root' : FilePath) (tag : ShareTag) :
    sharePath root tag ≠ manifestPath root' := by
  rw [sharePath_eq_concat]
  exact concat_ne_of_head (by simp [String.toList_append])

theorem publicPath_ne_manifestPath (root root' : FilePath) (keyId : KeyId) (epoch : Epoch) :
    publicPath root keyId epoch ≠ manifestPath root' := by
  rw [publicPath_eq_concat]
  exact concat_ne_of_head (by simp [String.toList_append])

theorem sharePath_ne_publicPath (root root' : FilePath) (tag : ShareTag) (keyId : KeyId)
    (epoch : Epoch) : sharePath root tag ≠ publicPath root' keyId epoch := by
  rw [sharePath_eq_concat, publicPath_eq_concat]
  exact concat_ne_of_head (by simp [String.toList_append])

end Store
