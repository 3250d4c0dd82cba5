-- SUMMARY: The liveness poll of a fresh session selects exactly the first seats of the roster, and can be repeated.
import Cheget.Session.Honest

/-!
# The liveness poll

The acknowledgements of a session differ only in the seat, whose two bytes the
64-bit digest tells apart. So no acknowledgement is lost on the board, whatever
the session's id.
-/

namespace Session

open Crypto Transport

section Polls

variable [Frost]

namespace SigningSession

variable {self : SigningSession} {s : Host} {board : InMemoryTransport}

/-! ## Acknowledgements -/

theorem livenessAck_id_injective (self : SigningSession) {a b : Seat}
    (h : (self.livenessAck a).id = (self.livenessAck b).id) : a = b := by
  have hdigest := congrArg EnvelopeId.digest h
  simp only [Envelope.id, livenessAck, Envelope.broadcast] at hdigest
  have hseat := Bytes.fnvMix_injective _ (Bytes.fnvMix_injective _ (Bytes.fnvMix_injective _ hdigest))
  obtain ⟨hlow, hhigh⟩ := Bytes.fnvMix_pair_injective hseat
  have hbytes : Bytes.le16 a.idx = Bytes.le16 b.idx := by rw [Bytes.le16, Bytes.le16, hlow, hhigh]
  exact Seat.idx_injective (congrArg UInt16.toNat (Bytes.le16_injective hbytes))

/-- The acknowledgements of the roster. -/
def acks (self : SigningSession) : List Envelope := self.idOfSeat.keys.map self.livenessAck

theorem collisionFree_acks (self : SigningSession) : CollisionFree {e | e ∈ self.acks} := by
  refine collisionFree_list (fun a ha b hb hid => ?_)
  obtain ⟨seat, -, rfl⟩ := List.mem_map.mp ha
  obtain ⟨seat', -, rfl⟩ := List.mem_map.mp hb
  rw [self.livenessAck_id_injective hid]

/-! ## Responders -/

/-- If the board delivers the roster's acknowledgements, the responders are the
    roster. -/
theorem responders_eq (hnumbered : self.Numbered) {returned : List Envelope}
    (hreturned : ∀ e, e ∈ returned ↔ e ∈ self.acks) : self.responders returned = self.keyPackages.keys := by
  refine (BTreeMap.keys_eq_of_mem (fun id => ?_) (List.pairwise_destutter_ne
    (List.pairwise_insertionSort (· ≤ ·) _))).symm
  rw [List.mem_destutter_ne, List.mem_insertionSort, List.mem_filterMap]
  constructor
  · intro hid
    obtain ⟨kp, hkp⟩ := BTreeMap.mem_keys.mp hid
    obtain ⟨seat, hseat⟩ := seatOfId_of_keyPackage hkp
    have hback := (idOfSeat_iff_seatOfId hnumbered).mpr hseat
    have hack := List.mem_map_of_mem (f := self.livenessAck) (BTreeMap.mem_keys.mpr ⟨id, hback⟩)
    exact ⟨self.livenessAck seat, (hreturned _).mpr hack, hback⟩
  · rintro ⟨e, -, hseat⟩
    obtain ⟨i, hi, -⟩ := (idOfSeat_eq_some hnumbered).mp hseat
    exact List.mem_of_getElem? hi

/-! ## The poll -/

/-- What the poll of a roster should come to. -/
def pollResult (self : SigningSession) : Except (Abort SessionError) (List Identifier) :=
  if self.t ≤ self.keyPackages.size then .ok (self.keyPackages.keys.take self.t)
  else .error (.error (.liveness (.insufficientLiveSeats self.t self.keyPackages.size)))

theorem published_livenessSelect (self : SigningSession) (s : Host) :
    published (self.livenessSelect.run Host.world s).trace = self.acks := by
  obtain ⟨hloop, hacks⟩ := self.published_acks Host.world self.idOfSeat.keys s
  unfold livenessSelect
  rw [Program.run_bind_ok hloop, published_append, hacks]
  simp [Program.run_bind, Program.Run.andThen, acks]

/-- A board that holds nothing but acknowledgements of the roster holds them all
    after a poll, which selects from the whole roster. -/
theorem livenessSelect_of_acks (hnumbered : self.Numbered)
    (hheld : ∀ e, s.board.Holds e → e ∈ self.acks) :
    (self.livenessSelect.run Host.world s).result = self.pollResult ∧
      ∀ e, (self.livenessSelect.run Host.world s).state.board.Holds e ↔ e ∈ self.acks := by
  have hboard : (self.livenessSelect.run Host.world s).state.board = s.board.publishAll self.acks := by
    rw [Host.run_board, published_livenessSelect]
  have hholds : ∀ e, (s.board.publishAll self.acks).Holds e ↔ e ∈ self.acks := by
    intro e
    rw [InMemoryTransport.holds_publishAll_of_collisionFree self.collisionFree_acks hheld (fun e he => he)]
    exact or_iff_right_of_imp (hheld e)
  refine ⟨?_, fun e => by rw [hboard]; exact hholds e⟩
  have hreturned : ∀ e, e ∈ (s.board.publishAll self.acks).subscribe self.livenessFilter ↔ e ∈ self.acks := by
    intro e
    rw [InMemoryTransport.mem_subscribe, hholds]
    refine and_iff_left_of_imp (fun he => ?_)
    obtain ⟨seat, -, rfl⟩ := List.mem_map.mp he
    exact livenessFilter_matches self seat
  obtain ⟨hloop, hacks⟩ := self.published_acks Host.world self.idOfSeat.keys s
  unfold livenessSelect
  rw [Program.run_bind_ok hloop]
  simp only [Program.run_bind, run_subscribe, run_lift, Program.Run.andThen, Host.world_subscribe,
    Host.run_board, hacks]
  rw [← acks, responders_eq hnumbered hreturned, pollAndSelect, pollResult, Std.ExtTreeMap.length_keys]
  by_cases hle : self.t ≤ self.keyPackages.size
  · rw [if_neg (Nat.not_lt.mpr hle), if_pos hle]
    rfl
  · rw [if_pos (Nat.lt_of_not_le hle), if_neg hle]
    rfl

/-- On an empty board the poll selects the first `t` seats of the roster, or says
    that there are too few. Polling again leaves the board as it is and comes to
    the same. -/
theorem livenessSelect_exact (self : SigningSession) (hsize : self.keyPackages.size ≤ 65535) (s : Host)
    (hempty : s.board = .new) :
    (self.livenessSelect.run Host.world s).result = self.pollResult ∧
      (self.livenessSelect.run Host.world (self.livenessSelect.run Host.world s).state).result =
        self.pollResult ∧
      (self.livenessSelect.run Host.world (self.livenessSelect.run Host.world s).state).state.board =
        (self.livenessSelect.run Host.world s).state.board := by
  have hnumbered : self.Numbered := by
    unfold Numbered
    rw [Std.ExtTreeMap.length_keys]
    omega
  have hstart : ∀ e, s.board.Holds e → e ∈ self.acks := by
    intro e he
    rw [hempty] at he
    exact absurd he (InMemoryTransport.holds_new e)
  obtain ⟨hfirst, hboard⟩ := livenessSelect_of_acks hnumbered hstart
  generalize (self.livenessSelect.run Host.world s).state = s' at hboard ⊢
  obtain ⟨hsecond, -⟩ := livenessSelect_of_acks hnumbered (fun e he => (hboard e).mp he)
  refine ⟨hfirst, hsecond, ?_⟩
  rw [Host.run_board, published_livenessSelect]
  exact InMemoryTransport.publishAll_of_holds (fun e he => (hboard e).mpr he)

end SigningSession

end Polls

/-! ## Two seats -/

open Session.Plain

/-- Both seats of the roster are selected. -/
theorem SigningSession.livenessSelect_exact_both :
    (Plain.session.livenessSelect.run Host.world host).result = .ok [firstSeat, secondSeat] := by
  have hsize : Plain.session.keyPackages.size = 2 := by decide +kernel
  have hkeys : Plain.session.keyPackages.keys = [firstSeat, secondSeat] := by decide +kernel
  obtain ⟨hfirst, -⟩ := livenessSelect_exact Plain.session (by omega) host rfl
  rw [hfirst, pollResult, hsize, hkeys]
  rfl

end Session
