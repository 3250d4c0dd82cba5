-- SUMMARY: What a run publishes: the roll of the roster, and for every input all commitments before any share.
import Cheget.Base.Schedule
import Cheget.Session.Loops

/-!
# The transcript of a run

The transport decides what a run reads, and so how far it gets. It does not
decide what the run publishes up to there: the seats of the roster answer the
poll, and then the selected seats send their commitments and their shares, one
input after the other.
-/

namespace Session

open Chain Crypto Transport

/-! ## Messages -/

/-- A message of a run. -/
inductive Message where
  | alive (seat : Seat)
  | commitments (input : Nat) (seat : Seat)
  | share (input : Nat) (seat : Seat)

variable [Frost]

namespace SigningSession

/-- The envelope carries the message in this session. -/
def Carries (self : SigningSession) : Message → Envelope → Prop
  | .alive seat, env => env = self.livenessAck seat
  | .commitments i seat, env => ∃ payload, env = commitmentEnvelope (self.topic i) seat payload
  | .share i seat, env => ∃ payload, env = shareEnvelope (self.topic i) seat payload

/-- Every seat of the roster answers the poll. -/
def roll (self : SigningSession) : List Message := self.idOfSeat.keys.map .alive

/-- For one input every selected seat commits before any of them signs. -/
def inputSchedule (selected : List Seat) (i : Nat) : List Message :=
  selected.map (.commitments i) ++ selected.map (.share i)

def schedule (self : SigningSession) (selected : List Seat) : List Message :=
  self.roll ++ (List.range self.psbt.unsignedTx.input.length).flatMap (inputSchedule selected)

/-- What an event publishes. -/
def sends : Event Op Op.Resp → Option Envelope
  | ⟨.publish env, _⟩ => some env
  | _ => none

theorem published_eq (trace : List (Event Op Op.Resp)) : published trace = trace.filterMap sends := by
  unfold published
  refine List.filterMap_congr (fun ev _ => ?_)
  obtain ⟨op, r⟩ := ev
  cases op <;> rfl

variable {σ : Type} {w : World σ} {self : SigningSession} {s : σ}

theorem follows_publish {ε : Type} {m : Message} {env : Envelope} (h : self.Carries m env) :
    (publish env : Action ε EnvelopeId).Follows w sends self.Carries [m] (fun _ => True) s :=
  Program.follows_send (fun _ => ⟨env, rfl, h⟩)

theorem follows_subscribe {ε : Type} (filter : Filter) :
    (subscribe filter : Action ε (List Envelope)).Follows w sends self.Carries [] (fun _ => True) s :=
  Program.follows_silent (fun _ => rfl)

theorem follows_draw {ε : Type} :
    (draw : Action ε Entropy).Follows w sends self.Carries [] (fun _ => True) s :=
  Program.follows_silent (fun _ => rfl)

theorem follows_lift {α : Type} (x : Except SessionError α) :
    (lift x).Follows w sends self.Carries [] (fun _ => True) s :=
  Program.follows_ofExcept (fun _ _ => trivial)

/-! ## The poll -/

/-- The seats of identifiers, in their order. -/
def seatsOf (self : SigningSession) (ids : List Identifier) : List Seat :=
  ids.filterMap (fun id => self.seatOfId[id]?)

/-- What the seat of an identifier sends. -/
def sentBy (self : SigningSession) (message : Seat → Message) (id : Identifier) : List Message :=
  (self.seatOfId[id]?.map message).toList

theorem sentBy_eq {message : Seat → Message} {id : Identifier} {seat : Seat}
    (h : self.seatOfId[id]? = some seat) : self.sentBy message id = [message seat] := by
  rw [sentBy, h]
  rfl

theorem flatMap_sentBy (message : Seat → Message) (ids : List Identifier) :
    ids.flatMap (self.sentBy message) = (self.seatsOf ids).map message := by
  induction ids with
  | nil => rfl
  | cons id ids ih =>
      rw [List.flatMap_cons, ih]
      cases hseat : self.seatOfId[id]? <;> simp [sentBy, seatsOf, hseat]

theorem livenessSelect_follows (self : SigningSession) :
    self.livenessSelect.Follows w sends self.Carries self.roll (fun _ => True) s := by
  have hroll : (self.idOfSeat.keys.forM (fun seat => do
      let _ ← publish (self.livenessAck seat)) : SessionM PUnit).Follows w sends self.Carries self.roll
        (fun _ => True) s := by
    rw [roll, List.map_eq_flatMap]
    refine Program.Follows.forM (fun seat _ s => ?_)
    have hack : self.Carries (.alive seat) (self.livenessAck seat) := rfl
    exact (follows_publish hack).bind (fun _ _ _ => Program.follows_done trivial)
  refine hroll.bind_silent (fun _ s _ => ?_)
  exact (follows_subscribe self.livenessFilter).bind (fun _ s _ => follows_lift _)

theorem seatsOf_roster {ids : List Identifier} (hnodup : ids.Nodup)
    (hroster : ∀ id ∈ ids, ∃ seat : Seat, self.idOfSeat[seat]? = some id) :
    (self.seatsOf ids).length = ids.length ∧ (self.seatsOf ids).Nodup ∧
      ∀ seat ∈ self.seatsOf ids, ∃ id ∈ ids, self.idOfSeat[seat]? = some id := by
  induction ids with
  | nil => simp [seatsOf]
  | cons id ids ih =>
      obtain ⟨hfresh, hnodup⟩ := List.nodup_cons.mp hnodup
      obtain ⟨seat, hseat⟩ := hroster id List.mem_cons_self
      obtain ⟨hlength, hseats, hback⟩ := ih hnodup (fun id' hid' => hroster id' (List.mem_cons_of_mem _ hid'))
      have hcons : self.seatsOf (id :: ids) = seat :: self.seatsOf ids :=
        List.filterMap_cons_some (seatOfId_of_idOfSeat hseat)
      rw [hcons]
      refine ⟨congrArg Nat.succ hlength, List.nodup_cons.mpr ⟨?_, hseats⟩, ?_⟩
      · intro hmem
        obtain ⟨id', hid', hseat'⟩ := hback seat hmem
        rw [hseat, Option.some.injEq] at hseat'
        exact hfresh (hseat' ▸ hid')
      · intro seat' hmem
        rcases List.mem_cons.mp hmem with rfl | hmem
        · exact ⟨id, List.mem_cons_self, hseat⟩
        · obtain ⟨id', hid', hseat'⟩ := hback seat' hmem
          exact ⟨id', List.mem_cons_of_mem _ hid', hseat'⟩

/-- What the poll selects: `t` identifiers in ascending order, each with a seat of
    the roster of its own. -/
theorem selected_seats {selected : List Identifier} (h : (self.livenessSelect.run w s).result = .ok selected) :
    selected.Pairwise (· < ·) ∧ (self.seatsOf selected).length = self.t ∧ (self.seatsOf selected).Nodup ∧
      ∀ seat ∈ self.seatsOf selected, seat ∈ self.idOfSeat.keys := by
  unfold livenessSelect at h
  obtain ⟨_, -, h⟩ := Program.result_bind_ok h
  obtain ⟨acks, -, h⟩ := Program.result_bind_ok h
  rw [run_lift] at h
  obtain ⟨henough, rfl⟩ := pollAndSelect_eq_ok.mp (Except.mapError_eq_ok.mp (Except.mapError_eq_ok.mp h))
  have hsorted : (self.responders acks).Pairwise (· < ·) :=
    List.pairwise_destutter_ne (List.pairwise_insertionSort (· ≤ ·) _)
  have hselected : ((self.responders acks).take self.t).Pairwise (· < ·) :=
    hsorted.sublist (List.take_sublist _ _)
  have hroster : ∀ id ∈ (self.responders acks).take self.t, ∃ seat : Seat, self.idOfSeat[seat]? = some id := by
    intro id hid
    have hid := List.mem_of_mem_take hid
    rw [responders, List.mem_destutter_ne, List.mem_insertionSort, List.mem_filterMap] at hid
    obtain ⟨env, -, hseat⟩ := hid
    exact ⟨env.seat, hseat⟩
  obtain ⟨hlength, hnodup, hback⟩ := seatsOf_roster (hselected.imp (fun h => h.ne)) hroster
  refine ⟨hselected, by rw [hlength, List.length_take_of_le henough], hnodup, fun seat hseat => ?_⟩
  obtain ⟨id, -, hid⟩ := hback seat hseat
  exact BTreeMap.mem_keys.mpr ⟨id, hid⟩

/-! ## Rounds -/

theorem commitSeat_follows (self : SigningSession) (i : Nat) (nonces : BTreeMap Identifier EphemeralNonces)
    (id : Identifier) :
    (self.commitSeat (self.topic i) nonces id).Follows w sends self.Carries
      (self.sentBy (.commitments i) id) (fun _ => True) s := by
  unfold commitSeat
  cases hseat : self.seatOfId[id]? with
  | none => exact (follows_lift _).silent_bind (fun kp s _ => Program.follows_fail _ _ _)
  | some seat =>
      rw [sentBy_eq hseat]
      refine (follows_lift _).silent_bind (fun kp s _ => ?_)
      simp only [Option.okOr_some, lift_ok, Program.done_bind]
      refine follows_draw.silent_bind (fun entropy s _ => ?_)
      refine (follows_lift _).silent_bind (fun payload s _ => ?_)
      have hcarries : self.Carries (.commitments i seat) (commitmentEnvelope (self.topic i) seat payload) :=
        ⟨payload, rfl⟩
      exact (follows_publish hcarries).bind_silent (fun _ s _ => Program.follows_done trivial)

theorem round1_follows [Bitcoin] (self : SigningSession) (i : Nat) {selected : List Identifier}
    (hsorted : selected.Pairwise (· < ·)) :
    (self.round1 i selected).Follows w sends self.Carries ((self.seatsOf selected).map (.commitments i))
      (fun r1 => r1.nonces.keys = selected) s := by
  unfold round1
  have hloop : ∀ s, (selected.foldlM (self.commitSeat (self.topic i)) ∅).Follows w sends self.Carries
      ((self.seatsOf selected).map (.commitments i)) (fun _ => True) s := by
    intro s
    rw [← flatMap_sentBy]
    exact Program.Follows.foldlM (fun id _ nonces s _ => self.commitSeat_follows i nonces id) trivial
  refine (follows_lift _).bind (fun sighash s _ => ?_)
  refine (hloop s).result.bind_silent (fun nonces s' hnonces => ?_)
  have hkeys : nonces.keys = selected := by
    obtain ⟨hcommits, hother⟩ := commitLoop_ok (hsorted.imp (fun h => h.ne)) hnonces.1
    refine BTreeMap.keys_eq_of_mem (fun id => ?_) hsorted
    rw [BTreeMap.mem_keys]
    constructor
    · rintro ⟨nonce, hnonce⟩
      by_contra hid
      rw [hother id hid] at hnonce
      simp at hnonce
    · intro hid
      obtain ⟨env, -, kp, seat, entropy, payload, -, -, hnonce, -⟩ := hcommits.exists_right hid
      exact ⟨_, hnonce⟩
  refine (follows_subscribe _).bind (fun collected s _ => ?_)
  exact (follows_lift _).bind (fun commitments s _ => Program.follows_done hkeys)

variable [Bitcoin] [Build]

theorem signSeat_follows (self : SigningSession) (i : Nat) (pkg : SigningPackage SigningCommitments)
    (prevouts : List TxOut) (yes : Bool) (seatNonce : Identifier × EphemeralNonces) :
    (self.signSeat i pkg prevouts yes seatNonce).Follows w sends self.Carries
      (self.sentBy (.share i) seatNonce.1) (fun _ => True) s := by
  obtain ⟨id, nonce⟩ := seatNonce
  simp only [signSeat]
  cases hseat : self.seatOfId[id]? with
  | none => exact (follows_lift _).silent_bind (fun kp s _ => Program.follows_fail _ _ _)
  | some seat =>
      rw [sentBy_eq hseat]
      refine (follows_lift _).silent_bind (fun kp s _ => ?_)
      simp only [Option.okOr_some, lift_ok, Program.done_bind]
      have hgate : ∀ x : Except (Abort SessionError) SpendSummary,
          (Program.ofExcept x).Follows w sends self.Carries [] (fun _ => True) s :=
        fun _ => Program.follows_ofExcept (fun _ _ => trivial)
      refine (hgate _).silent_bind (fun _ s _ => ?_)
      refine (follows_lift _).silent_bind (fun share s _ => ?_)
      have hcarries : self.Carries (.share i seat)
          (shareEnvelope (self.topic i) seat (Frost.serializeShare share)) := ⟨_, rfl⟩
      exact (follows_publish hcarries).bind_silent (fun _ s _ => Program.follows_done trivial)

theorem round2_follows (self : SigningSession) (i : Nat) (r1 : Round1) (yes : Bool) :
    (self.round2 i r1 yes).Follows w sends self.Carries
      ((self.seatsOf r1.nonces.keys).map (.share i)) (fun _ => True) s := by
  have hloop : ∀ prevouts s, (r1.nonces.toList.forM (self.signSeat i r1.signingPackage prevouts yes)).Follows
      w sends self.Carries ((self.seatsOf r1.nonces.keys).map (.share i)) (fun _ => True) s := by
    intro prevouts s
    rw [← flatMap_sentBy, ← Std.ExtTreeMap.map_fst_toList_eq_keys, List.flatMap_map]
    exact Program.Follows.forM (fun seatNonce _ s => self.signSeat_follows i _ prevouts yes seatNonce)
  have hcollect : (self.collectShares i r1 yes).Follows w sends self.Carries
      ((self.seatsOf r1.nonces.keys).map (.share i)) (fun _ => True) s := by
    refine (follows_lift _).bind (fun prevouts s _ => ?_)
    refine (hloop prevouts s).bind_silent (fun _ s _ => ?_)
    exact (follows_subscribe _).bind (fun collected s _ => follows_lift _)
  exact hcollect.bind_silent (fun shares s _ => follows_lift _)

theorem signInput_follows (self : SigningSession) {selected : List Identifier}
    (hsorted : selected.Pairwise (· < ·)) (yes : Bool) (tx : Transaction) (i : Nat) :
    (self.signInput selected yes tx i).Follows w sends self.Carries
      (inputSchedule (self.seatsOf selected) i) (fun _ => True) s := by
  unfold signInput inputSchedule
  refine (self.round1_follows i hsorted).bind (fun r1 s hkeys => ?_)
  rw [← hkeys]
  refine (self.round2_follows i r1 yes).bind_silent (fun sig s _ => ?_)
  exact (follows_lift _).bind (fun bytes s _ => Program.follows_done trivial)

/-- A run that is not refused follows the schedule of the seats that the poll
    selects, and where the poll fails it ends with the roll. -/
theorem signAll_follows (self : SigningSession) (yes : Bool) (s : σ) :
    (∃ selected, (self.livenessSelect.run w s).result = .ok selected ∧
      (self.signAll yes).Follows w sends self.Carries (self.schedule (self.seatsOf selected))
        (fun _ => True) s) ∨
    (self.signAll yes).Follows w sends self.Carries self.roll (fun _ => False) s := by
  unfold signAll
  split
  · exact Or.inr (Program.follows_fail _ _ _)
  · cases hpoll : (self.livenessSelect.run w s).result with
    | error e =>
        right
        refine self.livenessSelect_follows.result.bind_silent (fun selected s' hselected => ?_)
        rw [hpoll] at hselected
        cases hselected.1
    | ok selected =>
        left
        obtain ⟨hsorted, -⟩ := selected_seats hpoll
        refine ⟨selected, rfl, self.livenessSelect_follows.result.bind (fun selected' s' hselected => ?_)⟩
        rw [hpoll] at hselected
        cases hselected.1
        exact Program.Follows.foldlM (fun i _ tx s _ => self.signInput_follows hsorted yes tx i) trivial

/-- Whatever the transport answers, a run publishes a beginning of the schedule of
    `t` distinct seats of the roster, and where it returns a transaction all of
    it. -/
theorem run_follows_schedule {ε : Type} (self : SigningSession) (yes : Bool) (w : World σ) (s : σ) :
    ∃ (selected : List Seat) (sent : List Message),
      selected.Nodup ∧ (∀ seat ∈ selected, seat ∈ self.idOfSeat.keys) ∧
      List.Forall₂ self.Carries sent (published ((self.run yes : Action ε _).run w s).trace) ∧
      sent <+: self.schedule selected ∧ (selected.length = self.t ∨ sent <+: self.roll) ∧
      ∀ tx self', ((self.run yes : Action ε _).run w s).result = .ok (.ok tx, self') →
        selected.length = self.t ∧ sent = self.schedule selected := by
  rw [run_run, published_eq]
  rcases self.signAll_follows yes s with
    ⟨selected, hpoll, sent, hsent, hprefix, hall⟩ | ⟨sent, hsent, hprefix, hall⟩
  · obtain ⟨-, hlength, hnodup, hroster⟩ := selected_seats hpoll
    refine ⟨self.seatsOf selected, sent, hnodup, hroster, hsent, hprefix, Or.inl hlength, ?_⟩
    intro tx self' hresult
    rw [Except.ok.injEq, Prod.mk.injEq] at hresult
    exact ⟨hlength, (hall tx hresult.1).1⟩
  · have hschedule : sent <+: self.schedule [] := hprefix.trans (List.prefix_append _ _)
    refine ⟨[], sent, List.nodup_nil, by simp, hsent, hschedule, Or.inr hprefix, ?_⟩
    intro tx self' hresult
    rw [Except.ok.injEq, Prod.mk.injEq] at hresult
    exact (hall tx hresult.1).2.elim

end SigningSession

end Session
