-- SUMMARY: A topic determines the session id and the input index it was made from, whatever characters the id holds.
import Cheget.Base.Text
import Cheget.Session.SigningSession

namespace Session

variable [Crypto.Frost]

namespace SigningSession

theorem toList_topic (self : SigningSession) (i : Nat) :
    (self.topic i).toList = self.id.toList ++ '#' :: Nat.toDigits 10 i := by
  simp [topic, String.toList_append, Nat.toString_eq_repr, Nat.toList_repr]

theorem topic_inj {a b : SigningSession} {i j : Nat} :
    a.topic i = b.topic j ↔ a.id = b.id ∧ i = j := by
  constructor
  · intro h
    have hlist := congrArg String.toList h
    rw [toList_topic, toList_topic] at hlist
    obtain ⟨hid, hdigits⟩ := List.append_separator_inj (Nat.notMem_toDigits i (by decide))
      (Nat.notMem_toDigits j (by decide)) hlist
    exact ⟨String.toList_inj.mp hid, Nat.toDigits_injective hdigits⟩
  · rintro ⟨hid, rfl⟩
    rw [topic, topic, hid]

end SigningSession

end Session
