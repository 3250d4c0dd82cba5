-- SUMMARY: Sessions with distinct ids that share one board each behave as if they were alone on an empty one, over every interleaving.
import Cheget.Base.Interleave
import Cheget.Session.Effects
import Cheget.Session.History
import Cheget.Session.Host
import Cheget.Session.Plain
import Cheget.Session.Topic

/-!
# Isolation of sessions

Each session publishes and reads envelopes of its own: liveness traffic under
its id, and the traffic of the two rounds under the topics made from its id.
The board that it would have alone is the shared one restricted to these.
-/

namespace Session

open Chain Crypto Transport

variable [Frost]

/-! ## The envelopes of a session -/

/-- The envelopes that a session publishes and reads. -/
def SigningSession.Owns (self : SigningSession) (env : Envelope) : Prop :=
  (env.messageClass = .sessionControl ∧ env.ceremonyOrSessionId = self.id) ∨
  (env.messageClass ≠ .sessionControl ∧ ∃ i, env.ceremonyOrSessionId = self.topic i)

/-- The operations of a session. -/
def SigningSession.Performs (self : SigningSession) (op : Op) : Prop :=
  LivenessOp self op ∨ ∃ i, CommitOp (self.topic i) op ∨ ShareOp (self.topic i) op

namespace SigningSession

variable {self other : SigningSession} {env : Envelope}

/-- No envelope belongs to two sessions with distinct ids. -/
theorem Owns.id_eq (h : self.Owns env) (h' : other.Owns env) : self.id = other.id := by
  rcases h with ⟨hclass, hid⟩ | ⟨hclass, i, htopic⟩ <;>
    rcases h' with ⟨hclass', hid'⟩ | ⟨hclass', j, htopic'⟩
  · rw [← hid, hid']
  · exact absurd hclass hclass'
  · exact absurd hclass' hclass
  · exact (topic_inj.mp (htopic.symm.trans htopic')).1

theorem Performs.publish (h : self.Performs (.publish env)) : self.Owns env := by
  rcases h with h | ⟨i, ⟨hclass, htopic⟩ | ⟨hclass, htopic⟩⟩
  · exact Or.inl h
  · exact Or.inr ⟨by rw [hclass]; decide, i, htopic⟩
  · exact Or.inr ⟨by rw [hclass]; decide, i, htopic⟩

/-- What a subscription of a session returns is its own. -/
theorem Performs.subscribe {filter : Filter} (h : self.Performs (.subscribe filter))
    (hmatch : filter.matchesEnvelope env = true) : self.Owns env := by
  rcases h with rfl | ⟨i, rfl | rfl⟩
  · exact Or.inl (of_livenessFilter hmatch)
  · obtain ⟨hclass, htopic⟩ := of_commitmentFilter hmatch
    exact Or.inr ⟨by rw [hclass]; decide, i, htopic⟩
  · obtain ⟨hclass, htopic⟩ := of_shareFilter hmatch
    exact Or.inr ⟨by rw [hclass]; decide, i, htopic⟩

/-- The operations of a session depend on its id alone. -/
theorem Performs.congr {op : Op} (hid : self.id = other.id) (h : self.Performs op) :
    other.Performs op := by
  have htopic : ∀ i, self.topic i = other.topic i := fun i => by rw [topic, topic, hid]
  rcases h with h | ⟨i, h⟩
  · left
    cases op with
    | publish env => exact ⟨h.1, hid ▸ h.2⟩
    | subscribe filter =>
        have hfilter : self.livenessFilter = other.livenessFilter := by
          rw [livenessFilter, livenessFilter, hid]
        exact (show filter = self.livenessFilter from h).trans hfilter
    | draw => exact h
  · exact Or.inr ⟨i, htopic i ▸ h⟩

end SigningSession

/-! ## Calls -/

variable [Bitcoin] [Build]

theorem SigningSession.signAll_uses (self : SigningSession) (yes : Bool) :
    (self.signAll yes).Uses self.Performs := by
  unfold signAll
  split
  · trivial
  · refine (self.livenessSelect_uses.mono (fun _ h => Or.inl h)).bind (fun selected => ?_)
    refine (self.loop_uses selected yes _ _).mono ?_
    rintro op ⟨i, -, h⟩
    exact Or.inr ⟨i, h⟩

namespace SessionCall

variable {ε : Type}

theorem exec_uses (self : SigningSession) (pool : Pool) (call : SessionCall) :
    (call.exec self pool : Action ε _).Uses self.Performs := by
  cases call with
  | livenessSelect =>
      exact (self.livenessSelect_uses.mono (fun _ h => Or.inl h)).attempt.bind (fun _ => trivial)
  | round1 i selected =>
      refine ((self.round1_uses i selected).mono (fun _ h => ?_)).attempt.bind (fun result => ?_)
      · exact Or.inr ⟨i, Or.inl h⟩
      · cases result <;> trivial
  | round2 i slot yes =>
      simp only [exec]
      split
      · next r1 hslot =>
          refine ((self.round2_uses i r1 yes).mono (fun _ h => ?_)).attempt.bind (fun _ => trivial)
          exact Or.inr ⟨i, Or.inr h⟩
      · trivial
  | run yes =>
      refine Program.Uses.bind ((self.signAll_uses yes).attempt.bind (fun result => ?_))
        (fun _ => trivial)
      cases result <;> trivial

/-- A call keeps the id of its session. -/
theorem exec_returns (self : SigningSession) (pool : Pool) (call : SessionCall) :
    (call.exec self pool : Action ε _).Returns (fun out => self.id = out.2.1.id) := by
  cases call with
  | livenessSelect => exact (Program.returns_trivial _).bind (fun _ _ => rfl)
  | round1 i selected =>
      refine (Program.returns_trivial _).bind (fun result _ => ?_)
      cases result <;> rfl
  | round2 i slot yes =>
      simp only [exec]
      split
      · exact (Program.returns_trivial _).bind (fun _ _ => rfl)
      · rfl
  | run yes =>
      refine Program.Returns.bind (Q := fun out : _ × SigningSession => self.id = out.2.id) ?_
        (fun out h => by cases out; exact h)
      refine (Program.returns_trivial _).bind (fun result _ => ?_)
      cases result <;> rfl

theorem execAll_uses (calls : List SessionCall) (self : SigningSession) (pool : Pool) :
    (execAll calls self pool).Uses self.Performs := by
  induction calls generalizing self pool with
  | nil => trivial
  | cons call calls ih =>
      refine (exec_uses self pool call).bind_returns (exec_returns self pool call) ?_
      rintro ⟨outcome, self', pool'⟩ hid
      exact ((ih self' pool').mono (fun _ h => h.congr hid.symm)).bind (fun _ => trivial)

end SessionCall

/-! ## A shared board -/

variable {ι : Type} [DecidableEq ι]

/-- One board, and how much each session has drawn of its own randomness. -/
structure SharedHost (ι : Type) where
  board : InMemoryTransport
  drawn : ι → Nat

/-- The world as session `k` sees it. -/
def SharedHost.world (entropy : ι → Nat → Entropy) (k : ι) : World (SharedHost ι)
  | .publish env, s => ((s.board.publish env).1, { s with board := (s.board.publish env).2 })
  | .subscribe filter, s => (s.board.subscribe filter, s)
  | .draw, s => (entropy k (s.drawn k), { s with drawn := Function.update s.drawn k (s.drawn k + 1) })

/-- The host that session `k` would have alone: the part of the board that is
    its own, and its own randomness. -/
structure SharedHost.Seen (sessions : ι → SigningSession) (entropy : ι → Nat → Entropy)
    (envs : Set Envelope) (k : ι) (s : SharedHost ι) (t : Host) : Prop where
  board : ∀ e, t.board.Holds e ↔ s.board.Holds e ∧ (sessions k).Owns e
  entropy : t.entropy = entropy k
  drawn : t.drawn = s.drawn k
  known : ∀ e, s.board.Holds e → e ∈ envs

omit [Bitcoin] [Build] in
/-- Among envelopes whose ids tell them apart, sessions with distinct ids do not
    notice each other. -/
theorem SharedHost.isolation {sessions : ι → SigningSession}
    (hids : Function.Injective (fun k => (sessions k).id)) (entropy : ι → Nat → Entropy)
    {envs : Set Envelope} (hfree : CollisionFree envs) :
    Program.Crew.Isolation (world entropy) (fun _ => Host.world)
      (fun k op => (sessions k).Performs op) (fun op => ∀ env, op = .publish env → env ∈ envs)
      (Seen sessions entropy envs) where
  own := by
    intro k op s t hallowed hsafe hseen
    cases op with
    | publish env =>
        have henv := hsafe env rfl
        have howns := hallowed.publish
        refine ⟨rfl, ⟨fun e => ?_, hseen.entropy, hseen.drawn, fun e he => ?_⟩⟩
        · have hshared : (s.board.publish env).2.Holds e ↔ s.board.Holds e ∨ e = env :=
            InMemoryTransport.holds_publish_of_collisionFree hfree hseen.known henv
          have hown : (t.board.publish env).2.Holds e ↔ t.board.Holds e ∨ e = env :=
            InMemoryTransport.holds_publish_of_collisionFree hfree
              (fun e he => hseen.known e ((hseen.board e).mp he).1) henv
          show (t.board.publish env).2.Holds e ↔ (s.board.publish env).2.Holds e ∧ _
          rw [hown, hshared, hseen.board e]
          constructor
          · rintro (⟨h, ho⟩ | rfl)
            · exact ⟨Or.inl h, ho⟩
            · exact ⟨Or.inr rfl, howns⟩
          · rintro ⟨h | rfl, ho⟩
            · exact Or.inl ⟨h, ho⟩
            · exact Or.inr rfl
        · rcases InMemoryTransport.holds_publish.mp he with h | ⟨rfl, -⟩
          · exact hseen.known e h
          · exact henv
    | subscribe filter =>
        refine ⟨InMemoryTransport.subscribe_congr (fun e => ?_), hseen⟩
        rw [hseen.board e]
        exact ⟨fun ⟨h, hmatch⟩ => ⟨⟨h, hallowed.subscribe hmatch⟩, hmatch⟩,
          fun ⟨⟨h, _⟩, hmatch⟩ => ⟨h, hmatch⟩⟩
    | draw =>
        refine ⟨?_, ⟨hseen.board, hseen.entropy, ?_, hseen.known⟩⟩
        · show entropy k (s.drawn k) = t.entropy t.drawn
          rw [hseen.entropy, hseen.drawn]
        · show t.drawn + 1 = Function.update s.drawn k (s.drawn k + 1) k
          rw [Function.update_self, hseen.drawn]
  other := by
    intro j k op s t hjk hallowed hsafe hseen
    cases op with
    | publish env =>
        have henv := hsafe env rfl
        refine ⟨fun e => ?_, hseen.entropy, hseen.drawn, fun e he => ?_⟩
        · have hshared : (s.board.publish env).2.Holds e ↔ s.board.Holds e ∨ e = env :=
            InMemoryTransport.holds_publish_of_collisionFree hfree hseen.known henv
          show t.board.Holds e ↔ (s.board.publish env).2.Holds e ∧ _
          rw [hshared, hseen.board e]
          constructor
          · rintro ⟨h, ho⟩
            exact ⟨Or.inl h, ho⟩
          · rintro ⟨h | rfl, ho⟩
            · exact ⟨h, ho⟩
            · exact absurd (hids (hallowed.publish.id_eq ho)) hjk
        · rcases InMemoryTransport.holds_publish.mp he with h | ⟨rfl, -⟩
          · exact hseen.known e h
          · exact henv
    | subscribe filter => exact hseen
    | draw =>
        refine ⟨hseen.board, hseen.entropy, ?_, hseen.known⟩
        show t.drawn = Function.update s.drawn j (s.drawn j + 1) k
        rw [Function.update_of_ne (Ne.symm hjk), hseen.drawn]

/-- Any number of sessions on one board, each at its own sequence of calls. -/
def SharedHost.crew (sessions : ι → SigningSession) (pools : ι → Pool)
    (calls : ι → List SessionCall) : Program.Crew ι Op Op.Resp (SharedHost ι) Empty (List Outcome) where
  programs k := SessionCall.execAll (calls k) (sessions k) (pools k)
  state := ⟨.new, fun _ => 0⟩

/-- Sessions with distinct ids, interleaved in any order over one board: once a
    session has had as many turns as it needs alone, all its calls have returned,
    and whenever they have, they returned what they return alone. -/
theorem SharedHost.sessions_isolated (sessions : ι → SigningSession)
    (hids : Function.Injective (fun k => (sessions k).id)) (pools : ι → Pool)
    (calls : ι → List SessionCall) (entropy : ι → Nat → Entropy) (schedule : List ι)
    (hfree : CollisionFree
      {env | .publish env ∈ (crew sessions pools calls).performed (world entropy) schedule})
    (k : ι) :
    (((SessionCall.execAll (calls k) (sessions k) (pools k)).run Host.world
          ⟨.new, entropy k, 0⟩).trace.length ≤ schedule.count k →
      ∃ outcomes, ((crew sessions pools calls).after (world entropy) schedule).programs k =
        .done outcomes) ∧
    ∀ outcomes, ((crew sessions pools calls).after (world entropy) schedule).programs k =
        .done outcomes →
      outcomes = ((SessionCall.execAll (calls k) (sessions k) (pools k)).run Host.world
        ⟨.new, entropy k, 0⟩).value := by
  have hseen : Seen sessions entropy
      {env | .publish env ∈ (crew sessions pools calls).performed (world entropy) schedule} k
      (crew sessions pools calls).state ⟨.new, entropy k, 0⟩ := by
    refine ⟨fun e => ?_, rfl, rfl, fun e he => absurd he (InMemoryTransport.holds_new e)⟩
    exact ⟨fun he => absurd he (InMemoryTransport.holds_new e),
      fun he => absurd he.1 (InMemoryTransport.holds_new e)⟩
  have hprogram : ((crew sessions pools calls).after (world entropy) schedule).programs k =
      (Program.stepsAlone Host.world (schedule.count k)
        (SessionCall.execAll (calls k) (sessions k) (pools k)) ⟨.new, entropy k, 0⟩).1 :=
    ((isolation hids entropy hfree).after (crew sessions pools calls) schedule
      (fun j => SessionCall.execAll_uses (calls j) (sessions j) (pools j))
      (fun op hop env henv => by rw [henv] at hop; exact hop) k hseen).1
  rw [hprogram]
  constructor
  · intro hturns
    rw [Program.stepsAlone_of_le Host.world _ _ hturns, Program.Run.result_eq_value]
    exact ⟨_, rfl⟩
  · intro outcomes hdone
    have hresult := Program.result_stepsAlone Host.world (schedule.count k)
      (SessionCall.execAll (calls k) (sessions k) (pools k)) ⟨.new, entropy k, 0⟩
    rw [hdone, Program.Run.result_eq_value (Program.run _ (SessionCall.execAll _ _ _) _)] at hresult
    exact Except.ok.inj hresult

end Session

namespace Session

open Transport Plain

/-- Two plain sessions, one of which is named like a topic of the other. -/
def Plain.sessions : Bool → SigningSession
  | false => session
  | true => { session with id := "s#0" }

/-- Both sessions run to their ends, taking turns. -/
def Plain.turns : List Bool := (List.replicate 24 [false, true]).flatten

/-- The envelope that an operation publishes. -/
def Op.envelope? : Op → Option Envelope
  | .publish env => some env
  | _ => none

/-- A run of each of two sessions with close ids, in turns, on one board. -/
theorem SharedHost.sessions_isolated_plain :
    (∃ outcomes, ((crew sessions (fun _ => []) (fun _ => [.run true])).after
      (world (fun _ => host.entropy)) turns).programs true = .done outcomes) ∧
    ∀ outcomes, ((crew sessions (fun _ => []) (fun _ => [.run true])).after
      (world (fun _ => host.entropy)) turns).programs true = .done outcomes →
        outcomes = ((SessionCall.execAll [.run true] (sessions true) []).run Host.world host).value := by
  have hids : ∀ a ∈ ((crew sessions (fun _ => []) (fun _ => [.run true])).performed
        (world (fun _ => host.entropy)) turns).filterMap Op.envelope?,
      ∀ b ∈ ((crew sessions (fun _ => []) (fun _ => [.run true])).performed
        (world (fun _ => host.entropy)) turns).filterMap Op.envelope?, a.id = b.id → a = b := by
    decide +kernel
  have hturns : ((SessionCall.execAll [.run true] (sessions true) []).run Host.world
      host).trace.length ≤ turns.count true := by
    decide +kernel
  obtain ⟨hdone, hsame⟩ := sessions_isolated sessions (fun a b => by revert a b; decide)
    (fun _ => []) (fun _ => [.run true]) (fun _ => host.entropy) turns
    ((collisionFree_list hids).mono fun env henv => List.mem_filterMap.mpr ⟨_, henv, rfl⟩) true
  exact ⟨hdone hturns, hsame⟩

end Session
