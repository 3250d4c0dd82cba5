-- SUMMARY: Decimal numerals and formatted strings determine the numbers and strings they were made from.
import Mathlib.Data.String.Basic

/-- Splitting at the last separator recovers both parts. -/
theorem List.append_separator_inj {α : Type} {a : α} {xs ys ds es : List α} (hd : a ∉ ds) (he : a ∉ es)
    (h : xs ++ a :: ds = ys ++ a :: es) : xs = ys ∧ ds = es := by
  rcases List.append_eq_append_iff.mp h with ⟨zs, hys, htail⟩ | ⟨zs, hxs, htail⟩
  · cases zs with
    | nil =>
        rw [List.append_nil] at hys
        exact ⟨hys.symm, (List.cons.inj htail).2⟩
    | cons z zs =>
        have hds := (List.cons.inj htail).2
        exact absurd (hds ▸ List.mem_append_right zs List.mem_cons_self) hd
  · cases zs with
    | nil =>
        rw [List.append_nil] at hxs
        exact ⟨hxs, (List.cons.inj htail).2.symm⟩
    | cons z zs =>
        have hes := (List.cons.inj htail).2
        exact absurd (hes ▸ List.mem_append_right zs List.mem_cons_self) he

/-- A numeral holds digits only. -/
theorem Nat.notMem_toDigits (n : Nat) {c : Char} (hc : c.isDigit = false) : c ∉ Nat.toDigits 10 n := by
  intro hmem
  have hdigit := Nat.isDigit_of_mem_toDigits (by decide) (by decide) hmem
  rw [hc] at hdigit
  cases hdigit

theorem Nat.toDigits_injective {i j : Nat} (h : Nat.toDigits 10 i = Nat.toDigits 10 j) : i = j := by
  have hvalue := congrArg (fun digits => Nat.ofDigitChars 10 digits 0) h
  simpa using hvalue

theorem Nat.toString_injective {i j : Nat} (h : toString i = toString j) : i = j := by
  apply Nat.toDigits_injective
  have hlist := congrArg String.toList h
  simpa [Nat.toString_eq_repr, Nat.toList_repr] using hlist

/-- Leading zeros do not change the value of a numeral. -/
theorem Nat.ofDigitChars_zeros_append (k : Nat) (digits : List Char) :
    Nat.ofDigitChars 10 (List.replicate k '0' ++ digits) 0 = Nat.ofDigitChars 10 digits 0 := by
  induction k with
  | zero => rfl
  | succ k ih => simpa [List.replicate_succ, Nat.ofDigitChars_cons] using ih

namespace String

theorem append_right_injective (s : String) {t t' : String} (h : s ++ t = s ++ t') : t = t' := by
  have hlist := congrArg String.toList h
  rw [String.toList_append, String.toList_append] at hlist
  exact String.toList_inj.mp (List.append_cancel_left hlist)

theorem append_left_injective (s : String) {t t' : String} (h : t ++ s = t' ++ s) : t = t' := by
  have hlist := congrArg String.toList h
  rw [String.toList_append, String.toList_append] at hlist
  exact String.toList_inj.mp (List.append_cancel_right hlist)

end String
