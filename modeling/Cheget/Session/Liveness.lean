-- SUMMARY: Selecting exactly a threshold of seats from those that answered the liveness poll.
import Cheget.Crypto.Types

namespace Session

open Crypto

inductive LivenessError where
  | insufficientLiveSeats (needed got : Nat)
  deriving DecidableEq

/-- Exactly the first `t` responders, or an error where fewer answered. -/
def pollAndSelect (responders : List Identifier) (t : Nat) :
    Except LivenessError (List Identifier) :=
  if responders.length < t then .error (.insufficientLiveSeats t responders.length)
  else .ok (responders.take t)

theorem pollAndSelect_eq_ok {responders selected : List Identifier} {t : Nat} :
    pollAndSelect responders t = .ok selected ↔
      t ≤ responders.length ∧ selected = responders.take t := by
  unfold pollAndSelect
  split
  · next h => simp [h]
  · next h => simp [Nat.not_lt.mp h, eq_comm]

end Session
