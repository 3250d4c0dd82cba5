-- SUMMARY: The spellings of a seat: one up to letter case, but for those with a sign in the place of a digit.
import Cheget.Store.Paths
import Cheget.Store.Plain

/-!
# Spellings of seats

A manifest spells a seat as the digits of its identifier. The decoder hands each
pair of characters to the integer parser, which takes a plus sign before a digit.
-/

namespace Store

open Cli Crypto

/-- Pairs of characters that are numbers, and these numbers. -/
inductive Spells : Bytes → Bytes → Prop
  | nil : Spells [] []
  | cons {a b x : UInt8} {digits bytes : Bytes} (hpair : Bytes.hexPair a b = some x)
      (hrest : Spells digits bytes) : Spells (a :: b :: digits) (x :: bytes)

/-- A spelling with a plus sign, of the bytes of an identifier. -/
def SignedSpelling (hex : String) : Prop :=
  43 ∈ Bytes.utf8 hex ∧ ∃ bytes, Spells (Bytes.utf8 hex) bytes ∧
    bytes.length = 32 ∧ 0 < Bytes.ofBigEndian bytes ∧ Bytes.ofBigEndian bytes < secp256k1Order

/-! ## What the decoder accepts -/

theorem Spells.even {digits bytes : Bytes} (h : Spells digits bytes) : digits.length % 2 = 0 := by
  induction h with
  | nil => rfl
  | cons hpair hrest ih =>
      rw [List.length_cons, List.length_cons]
      omega

theorem seatBytes_eq_ok {hex : String} {digits bytes : Bytes} (heven : digits.length % 2 = 0) :
    seatBytes hex digits = .ok bytes ↔ Spells digits bytes := by
  constructor
  · intro h
    induction digits using seatBytes.induct generalizing bytes with
    | case1 a b rest hascii hnone => simp [seatBytes, hascii, hnone] at h
    | case2 a b rest hascii x hpair ih =>
        rw [seatBytes, if_pos hascii, hpair] at h
        have heven' : rest.length % 2 = 0 := by
          rw [List.length_cons, List.length_cons] at heven
          omega
        cases hrest : seatBytes hex rest with
        | error e => simp [hrest, Except.map] at h
        | ok tail =>
            simp only [hrest, Except.map, Except.ok.injEq] at h
            exact h ▸ .cons hpair (ih heven' hrest)
    | case3 a b rest hascii => simp [seatBytes, hascii] at h
    | case4 digits hshort =>
        cases digits with
        | nil =>
            cases h
            exact .nil
        | cons a rest =>
            cases rest with
            | nil => simp at heven
            | cons b rest => exact (hshort a b rest rfl).elim
  · intro h
    clear heven
    induction h with
    | nil => rfl
    | @cons a b x digits bytes hpair hrest ih =>
        rw [seatBytes, if_pos (Or.inl (Bytes.ascii_of_hexPair hpair)), hpair]
        simp [ih, Except.map]

theorem seatFromHex_eq_ok [KeyCodec] [Json] {hex : String} {seat : SeatId} :
    seatFromHex hex = .ok seat ↔
      ∃ bytes, Spells (Bytes.utf8 hex) bytes ∧ Identifier.deserialize bytes = some seat := by
  unfold seatFromHex
  constructor
  · intro h
    split at h
    · cases h
    · next heven =>
        obtain ⟨bytes, hbytes, hid⟩ := Except.bind_eq_ok.mp h
        have hspells := (seatBytes_eq_ok (not_not.mp heven)).mp (Except.mapError_eq_ok.mp hbytes)
        exact ⟨bytes, hspells, Option.okOr_eq_ok.mp hid⟩
  · rintro ⟨bytes, hspells, hid⟩
    rw [if_neg (not_not.mpr hspells.even), (seatBytes_eq_ok hspells.even).mpr hspells, Except.mapError_ok,
      Except.ok_bind, hid, Option.okOr_some]

/-! ## Letter case -/

theorem Spells.ascii {digits bytes : Bytes} (h : Spells digits bytes) : ∀ b ∈ digits, b.toNat < 128 := by
  induction h with
  | nil => exact fun _ hb => nomatch hb
  | cons hpair hrest ih =>
      obtain ⟨ha, hb⟩ := Bytes.ascii_of_hexPair hpair
      intro c hc
      rcases List.mem_cons.mp hc with rfl | hc
      · exact ha
      · rcases List.mem_cons.mp hc with rfl | hc
        · exact hb
        · exact ih c hc

/-- Without a sign, a spelling is the encoding up to letter case. -/
theorem Spells.map_lower {digits bytes : Bytes} (h : Spells digits bytes) (hsign : 43 ∉ digits) :
    digits.map Bytes.lower = Bytes.hexBytes bytes := by
  induction h with
  | nil => rfl
  | @cons a b x digits bytes hpair hrest ih =>
      obtain ⟨ha, hrest'⟩ := not_or.mp (fun hmem => hsign (List.mem_cons.mpr hmem))
      have htail := ih (fun hmem => hrest' (List.mem_cons_of_mem b hmem))
      obtain ⟨hhigh, hlow⟩ := Bytes.lower_of_hexPair (Ne.symm ha) hpair
      have hcons : Bytes.hexBytes (x :: bytes) =
          Bytes.hexDigit (x.toNat / 16) :: Bytes.hexDigit (x.toNat % 16) :: Bytes.hexBytes bytes := rfl
      rw [hcons, List.map_cons, List.map_cons, hhigh, hlow, htail]

/-- No encoding has a sign in it. -/
theorem plus_not_mem_hex (bytes : Bytes) : '+' ∉ (Bytes.hex bytes).toList := by
  have hdigit : ∀ n < 16, Char.ofNat (Bytes.hexDigit n).toNat ≠ '+' := by decide
  unfold Bytes.hex Bytes.hexBytes
  rw [String.toList_ofList]
  intro hmem
  obtain ⟨d, hd, hplus⟩ := List.mem_map.mp hmem
  obtain ⟨b, -, hb⟩ := List.mem_flatMap.mp hd
  have hlt := b.toNat_lt
  rcases List.mem_cons.mp hb with rfl | hb
  · exact hdigit _ (by omega) hplus
  · rw [List.mem_singleton] at hb
    subst hb
    exact hdigit _ (Nat.mod_lt _ (by decide)) hplus

theorem serialize_of_deserialize {bytes : Bytes} {seat : SeatId}
    (h : Identifier.deserialize bytes = some seat) : seat.serialize = bytes := by
  unfold Identifier.deserialize at h
  split at h
  · next hvalid =>
      cases h
      exact Bytes.bigEndian_ofBigEndian hvalid.1
  · cases h

/-! ## The spellings of a seat -/

section Spellings

variable [KeyCodec] [Json]

/-- A string denotes at most the seat that it spells up to letter case, and else
    is refused. -/
def SpellsOnlyItself (hex : String) : Prop :=
  ∀ seat, seatFromHex hex = .ok seat → hex.toLower = seatHex seat

/-- Every seat is denoted by its spelling. A string denotes a seat that it does
    not spell exactly if it has a sign in the place of a digit. -/
theorem spellsOnlyItself_iff :
    (∀ seat, seatFromHex (seatHex seat) = .ok seat) ∧
      ∀ hex, SpellsOnlyItself hex ↔ ¬ SignedSpelling hex := by
  refine ⟨seatFromHex_seatHex, fun hex => ⟨fun h hsigned => ?_, fun hsigned seat hseat => ?_⟩⟩
  · obtain ⟨hsign, bytes, hspells, hvalid⟩ := hsigned
    have hid : Identifier.deserialize bytes = some ⟨Bytes.ofBigEndian bytes, hvalid.2.1, hvalid.2.2⟩ :=
      dif_pos hvalid
    have hlower := h _ (seatFromHex_eq_ok.mpr ⟨bytes, hspells, hid⟩)
    rw [Bytes.toLower_of_ascii hspells.ascii] at hlower
    have hplus : '+' ∈ (seatHex ⟨Bytes.ofBigEndian bytes, hvalid.2.1, hvalid.2.2⟩).toList := by
      rw [← hlower, String.toList_ofList, List.map_map]
      exact List.mem_map.mpr ⟨43, hsign, by decide⟩
    exact plus_not_mem_hex _ hplus
  · obtain ⟨bytes, hspells, hid⟩ := seatFromHex_eq_ok.mp hseat
    have hserialize := serialize_of_deserialize hid
    have hsign : 43 ∉ Bytes.utf8 hex := by
      intro hmem
      refine hsigned ⟨hmem, bytes, hspells, ?_⟩
      unfold Identifier.deserialize at hid
      split at hid
      · next hvalid => exact hvalid
      · cases hid
    rw [Bytes.toLower_of_ascii hspells.ascii, hspells.map_lower hsign, seatHex, hserialize, Bytes.hex]

end Spellings

/-! ## A signed spelling -/

open Store.Plain

/-- Sixty-two zeros and a signed one. -/
def signedOne : String := String.ofList (List.replicate 62 '0' ++ ['+', '1'])

/-- A string with a sign in it denotes the first seat. -/
theorem signed_spelling_accepted :
    seatFromHex signedOne = .ok firstTag.seat ∧ ¬ ∀ hex, SpellsOnlyItself hex := by
  have hoption : (seatFromHex signedOne).toOption = some firstTag.seat := by decide +kernel
  have haccepted : seatFromHex signedOne = .ok firstTag.seat := Except.toOption_eq_some.mp hoption
  refine ⟨haccepted, fun h => ?_⟩
  have hne : signedOne.toLower ≠ seatHex firstTag.seat := by decide +kernel
  exact hne (h signedOne firstTag.seat haccepted)

end Store
