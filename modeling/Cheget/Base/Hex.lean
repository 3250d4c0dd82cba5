-- SUMMARY: Hexadecimal and big-endian encodings of byte strings, and that decoding inverts them.
import Cheget.Base.Bytes
import Mathlib.Data.List.Induction

namespace Bytes

/-! ## Big-endian numbers -/

/-- The last `k` bytes of a number, most significant first. -/
def bigEndian : Nat → Nat → Bytes
  | 0, _ => []
  | k + 1, n => bigEndian k (n / 256) ++ [UInt8.ofNat (n % 256)]

def ofBigEndian (bytes : Bytes) : Nat := bytes.foldl (fun n b => 256 * n + b.toNat) 0

/-- What is left of a number without its last `k` bytes. -/
def dropBytes : Nat → Nat → Nat
  | 0, n => n
  | k + 1, n => dropBytes k (n / 256)

theorem dropBytes_mono (k : Nat) {m n : Nat} (h : m ≤ n) : dropBytes k m ≤ dropBytes k n := by
  induction k generalizing m n with
  | zero => exact h
  | succ k ih => exact ih (Nat.div_le_div_right h)

theorem length_bigEndian (k n : Nat) : (bigEndian k n).length = k := by
  induction k generalizing n with
  | zero => rfl
  | succ k ih => simp [bigEndian, ih]

theorem ofBigEndian_bigEndian {k n : Nat} (h : dropBytes k n = 0) :
    ofBigEndian (bigEndian k n) = n := by
  induction k generalizing n with
  | zero => exact h.symm
  | succ k ih =>
      have hbyte : (UInt8.ofNat (n % 256)).toNat = n % 256 :=
        UInt8.toNat_ofNat_of_lt' (Nat.mod_lt n (by decide))
      have hinit := ih h
      unfold ofBigEndian at hinit ⊢
      rw [bigEndian, List.foldl_append, hinit]
      simp only [List.foldl_cons, List.foldl_nil, hbyte]
      exact Nat.div_add_mod n 256

theorem bigEndian_ofBigEndian {k : Nat} {bytes : Bytes} (h : bytes.length = k) :
    bigEndian k (ofBigEndian bytes) = bytes := by
  induction bytes using List.reverseRecOn generalizing k with
  | nil =>
      subst h
      rfl
  | append_singleton bytes b ih =>
      subst h
      have hlt := b.toNat_lt
      have hvalue : ofBigEndian (bytes ++ [b]) = 256 * ofBigEndian bytes + b.toNat := by
        unfold ofBigEndian
        rw [List.foldl_append, List.foldl_cons, List.foldl_nil]
      have hdiv : (256 * ofBigEndian bytes + b.toNat) / 256 = ofBigEndian bytes := by omega
      have hmod : (256 * ofBigEndian bytes + b.toNat) % 256 = b.toNat := by omega
      rw [hvalue, List.length_append, List.length_singleton, bigEndian, hdiv, hmod, ih rfl,
        UInt8.ofNat_toNat]

/-! ## Digits -/

/-- The lowercase digit of a value below 16. -/
def hexDigit (n : Nat) : UInt8 := if n < 10 then UInt8.ofNat (48 + n) else UInt8.ofNat (87 + n)

/-- The value of an ASCII digit, of either case. -/
def hexValue (b : UInt8) : Option Nat :=
  if 48 ≤ b.toNat ∧ b.toNat ≤ 57 then some (b.toNat - 48)
  else if 97 ≤ b.toNat ∧ b.toNat ≤ 102 then some (b.toNat - 87)
  else if 65 ≤ b.toNat ∧ b.toNat ≤ 70 then some (b.toNat - 55)
  else none

theorem hexValue_hexDigit : ∀ n < 16, hexValue (hexDigit n) = some n := by decide

/-- `u8::from_str_radix(_, 16)` of two characters: the first may be a plus sign. -/
def hexPair (a b : UInt8) : Option UInt8 :=
  if a = 43 then (hexValue b).map UInt8.ofNat
  else
    match hexValue a, hexValue b with
    | some hi, some lo => some (UInt8.ofNat (16 * hi + lo))
    | _, _ => none

theorem hexDigit_ne_plus : ∀ n < 16, hexDigit n ≠ 43 := by decide

theorem hexPair_hexDigit (b : UInt8) :
    hexPair (hexDigit (b.toNat / 16)) (hexDigit (b.toNat % 16)) = some b := by
  have hlt := b.toNat_lt
  have hhi : b.toNat / 16 < 16 := by omega
  have hlo : b.toNat % 16 < 16 := Nat.mod_lt _ (by decide)
  rw [hexPair, if_neg (hexDigit_ne_plus _ hhi), hexValue_hexDigit _ hhi, hexValue_hexDigit _ hlo]
  simp only [Nat.div_add_mod, UInt8.ofNat_toNat]

/-- Only pairs of ASCII characters are numbers. -/
theorem ascii_of_hexPair {a b x : UInt8} (h : hexPair a b = some x) : a.toNat < 128 ∧ b.toNat < 128 := by
  have hdigit : ∀ {c : UInt8} {n : Nat}, hexValue c = some n → c.toNat < 128 := by
    intro c n hc
    unfold hexValue at hc
    split at hc
    · omega
    · split at hc
      · omega
      · split at hc
        · omega
        · cases hc
  unfold hexPair at h
  split at h
  · next hplus =>
      obtain ⟨n, hb, -⟩ := Option.map_eq_some_iff.mp h
      exact ⟨by rw [hplus]; decide, hdigit hb⟩
  · split at h
    · next ha hb => exact ⟨hdigit ha, hdigit hb⟩
    · cases h

/-- The lowercase of an ASCII character. -/
def lower (b : UInt8) : UInt8 := if 65 ≤ b.toNat ∧ b.toNat ≤ 90 then b + 32 else b

theorem lower_eq_hexDigit {b : UInt8} {v : Nat} (h : hexValue b = some v) :
    v < 16 ∧ lower b = hexDigit v := by
  have hall : ∀ n < 256, (hexValue (UInt8.ofNat n)).all
      (fun v => decide (v < 16 ∧ lower (UInt8.ofNat n) = hexDigit v)) = true := by decide +kernel
  have hb := hall b.toNat b.toNat_lt
  rw [UInt8.ofNat_toNat, h] at hb
  exact of_decide_eq_true hb

/-- The digits of a number without a sign, in lower case, are those that it is
    encoded with. -/
theorem lower_of_hexPair {a b x : UInt8} (ha : a ≠ 43) (h : hexPair a b = some x) :
    lower a = hexDigit (x.toNat / 16) ∧ lower b = hexDigit (x.toNat % 16) := by
  rw [hexPair, if_neg ha] at h
  split at h
  · next hi lo hhi hlo =>
      cases h
      obtain ⟨hhi16, hhigh⟩ := lower_eq_hexDigit hhi
      obtain ⟨hlo16, hlow⟩ := lower_eq_hexDigit hlo
      have hvalue : (UInt8.ofNat (16 * hi + lo)).toNat = 16 * hi + lo :=
        UInt8.toNat_ofNat_of_lt' (by unfold UInt8.size; omega)
      have hdiv : (16 * hi + lo) / 16 = hi := by omega
      have hmod : (16 * hi + lo) % 16 = lo := by omega
      rw [hvalue, hdiv, hmod]
      exact ⟨hhigh, hlow⟩
  · cases h

/-! ## Strings -/

/-- The digits of all bytes, as ASCII. -/
def hexBytes (bytes : Bytes) : Bytes :=
  bytes.flatMap (fun b => [hexDigit (b.toNat / 16), hexDigit (b.toNat % 16)])

theorem length_hexBytes (bytes : Bytes) : (hexBytes bytes).length = 2 * bytes.length := by
  simp [hexBytes, List.length_flatMap, Nat.mul_comm]

/-- `{b:02x}` of every byte. -/
def hex (bytes : Bytes) : String :=
  String.ofList ((hexBytes bytes).map (fun b => Char.ofNat b.toNat))

theorem utf8_ofList_ascii {bytes : Bytes} (h : ∀ b ∈ bytes, b.toNat < 128) :
    utf8 (String.ofList (bytes.map (fun b => Char.ofNat b.toNat))) = bytes := by
  have hchar : ∀ b ∈ bytes, String.utf8EncodeChar (Char.ofNat b.toNat) = [b] := by
    intro b hb
    have hlt := h b hb
    have hval : (Char.ofNat b.toNat).val.toNat = b.toNat := by
      have hvalid : b.toNat.isValidChar := Or.inl (by omega)
      rw [Char.ofNat, dif_pos hvalid]
      rfl
    unfold String.utf8EncodeChar
    simp only [hval]
    rw [if_pos (by omega), UInt8.ofNat_toNat]
  rw [utf8, String.toUTF8_eq_toByteArray, String.toByteArray_ofList, List.utf8Encode,
    List.toList_data_toByteArray, List.flatMap_map]
  induction bytes with
  | nil => rfl
  | cons b bytes ih =>
      rw [List.flatMap_cons, hchar b List.mem_cons_self,
        ih (fun x hx => h x (List.mem_cons_of_mem b hx))
          (fun x hx => hchar x (List.mem_cons_of_mem b hx))]
      rfl

theorem utf8_hex (bytes : Bytes) : utf8 (hex bytes) = hexBytes bytes := by
  have hascii : ∀ n < 16, (hexDigit n).toNat < 128 := by decide
  apply utf8_ofList_ascii
  intro d hd
  obtain ⟨b, -, hmem⟩ := List.mem_flatMap.mp hd
  have hlt := b.toNat_lt
  rcases List.mem_cons.mp hmem with rfl | hmem
  · exact hascii _ (by omega)
  · rw [List.mem_singleton.mp hmem]
    exact hascii _ (Nat.mod_lt _ (by decide))

theorem utf8_injective : Function.Injective utf8 := by
  intro s t h
  have hdata : s.toUTF8.data = t.toUTF8.data := Array.toList_inj.mp h
  rw [String.toUTF8_eq_toByteArray, String.toUTF8_eq_toByteArray] at hdata
  exact String.toByteArray_inj.mp (ByteArray.ext hdata)

theorem eq_ofList_of_ascii {s : String} (h : ∀ b ∈ utf8 s, b.toNat < 128) :
    s = String.ofList ((utf8 s).map (fun b => Char.ofNat b.toNat)) :=
  utf8_injective (utf8_ofList_ascii h).symm

/-- The lower case of a string of ASCII characters, byte by byte. -/
theorem toLower_of_ascii {s : String} (h : ∀ b ∈ utf8 s, b.toNat < 128) :
    s.toLower = String.ofList (((utf8 s).map lower).map (fun b => Char.ofNat b.toNat)) := by
  have hchar : ∀ n < 128, (Char.ofNat n).toLower = Char.ofNat (lower (UInt8.ofNat n)).toNat := by
    decide +kernel
  apply String.toList_inj.mp
  conv_lhs => rw [eq_ofList_of_ascii h]
  change (String.map Char.toLower _).toList = _
  rw [String.toList_map, String.toList_ofList, String.toList_ofList, List.map_map,
    List.map_map]
  refine List.map_congr_left (fun b hb => ?_)
  have hb' := hchar b.toNat (h b hb)
  rw [UInt8.ofNat_toNat] at hb'
  exact hb'

end Bytes
