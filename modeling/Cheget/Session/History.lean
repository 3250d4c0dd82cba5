-- SUMMARY: Histories of public calls on any number of sessions, and the rounds they go through.
import Cheget.Session.Stages

/-!
# Histories

A client holds sessions and the `Round1` values it has been given. `Round1` is
passed to `round2` by value: a slot of the pool is emptied when its content is
handed over, and stays empty.
-/

namespace Session

open Chain Crypto Transport

variable [Frost]

/-! ## Calls -/

/-- A public call on one session. A `round2` names the slot of the `Round1` it
    consumes. -/
inductive SessionCall where
  | livenessSelect
  | round1 (inputIndex : Nat) (selected : List Identifier)
  | round2 (inputIndex slot : Nat) (yes : Bool)
  | run (yes : Bool)

/-- What a call returns. -/
inductive Outcome where
  | selected (result : Except (Abort SessionError) (List Identifier))
  | round1 (result : Except (Abort SessionError) Round1)
  | signature (result : Except (Abort SessionError) Signature)
  | transaction (result : Except (Abort SessionError) Transaction)
  /-- There is no `Round1` in the slot, so the call cannot be made. -/
  | moved

/-- The `Round1` values a caller was given; `none` where one was moved out. -/
abbrev Pool := List (Option Round1)

namespace SessionCall

variable [Bitcoin] [Build] {σ : Type}

/-- Make the call. -/
def exec {ε : Type} (self : SigningSession) (pool : Pool) :
    SessionCall → Action ε (Outcome × SigningSession × Pool)
  | .livenessSelect => do
      let result ← self.livenessSelect.attempt
      pure (.selected result, self, pool)
  | .round1 i selected => do
      let result ← (self.round1 i selected).attempt
      match result with
      | .ok r1 => pure (.round1 (.ok r1), self, pool ++ [some r1])
      | .error e => pure (.round1 (.error e), self, pool)
  | .round2 i slot yes =>
      match pool[slot]? with
      | some (some r1) => do
          let result ← (self.round2 i r1 yes).attempt
          pure (.signature result, self, pool.set slot none)
      | _ => pure (.moved, self, pool)
  | .run yes => do
      let (result, self) ← self.run yes
      pure (.transaction result, self, pool)

/-- The rounds the call goes through. -/
def stages (w : World σ) (self : SigningSession) (pool : Pool) (s : σ) : SessionCall → List (Stage σ)
  | .livenessSelect => []
  | .round1 i selected => [.round1 self i selected s]
  | .round2 i slot yes =>
      match pool[slot]? with
      | some (some r1) => [.round2 self i r1 yes (some slot) s]
      | _ => []
  | .run yes => self.runStages w yes s

variable {ε : Type} {w : World σ} {self : SigningSession} {pool : Pool} {s : σ}

/-- A call performs the operations of its stages; only `livenessSelect` and the
    poll of `run` perform others. -/
theorem mem_trace_exec {call : SessionCall} {ev : Event Op Op.Resp}
    (hev : ev ∈ ((call.exec self pool : Action ε _).run w s).trace) :
    ev ∈ (self.livenessSelect.run w s).trace ∨
      ∃ stage ∈ call.stages w self pool s, ev ∈ stage.trace w := by
  cases call with
  | livenessSelect =>
      left
      simpa [exec, Program.run_attempt_bind] using hev
  | round1 i selected =>
      right
      refine ⟨_, List.mem_singleton_self _, ?_⟩
      rw [exec, Program.run_attempt_bind] at hev
      cases hr1 : ((self.round1 i selected).run w s).result <;>
        simpa [hr1, Stage.trace] using hev
  | round2 i slot yes =>
      right
      simp only [exec, stages] at hev ⊢
      split at hev
      · next r1 hslot =>
          rw [Program.run_attempt_bind] at hev
          exact ⟨_, List.mem_singleton_self _, by simpa [Stage.trace] using hev⟩
      · simp at hev
  | run yes =>
      have htrace : ev ∈ ((self.signAll yes).run w s).trace := by
        simpa [exec, Program.run_bind, Program.Run.andThen, SigningSession.run_run] using hev
      cases hspent : self.spent with
      | true => simp [SigningSession.signAll, hspent] at htrace
      | false =>
          rw [SigningSession.trace_signAll hspent, List.mem_append, List.mem_flatMap] at htrace
          exact htrace

theorem occursIn_exec {call : SessionCall} {stage : Stage σ}
    (hstage : stage ∈ call.stages w self pool s) :
    stage.OccursIn w s ((call.exec self pool : Action ε _).run w s).trace := by
  cases call with
  | livenessSelect => cases hstage
  | round1 i selected =>
      rw [List.mem_singleton.mp hstage, exec, Program.run_attempt_bind]
      exact (Stage.occursIn_self w (.round1 self i selected s)).append_right _
  | round2 i slot yes =>
      simp only [exec, stages] at hstage ⊢
      split at hstage
      · next r1 hslot =>
          rw [List.mem_singleton.mp hstage, Program.run_attempt_bind]
          exact (Stage.occursIn_self w (.round2 self i r1 yes (some slot) s)).append_right _
      · cases hstage
  | run yes =>
      have htrace := SigningSession.occursIn_runStages hstage
      simpa [exec, Program.run_bind, Program.Run.andThen, SigningSession.run_run] using htrace

theorem session_of_mem_stages {call : SessionCall} {stage : Stage σ}
    (hstage : stage ∈ call.stages w self pool s) : stage.session = self := by
  cases call with
  | livenessSelect => cases hstage
  | round1 i selected => rw [List.mem_singleton.mp hstage]; rfl
  | round2 i slot yes =>
      simp only [stages] at hstage
      split at hstage
      · rw [List.mem_singleton.mp hstage]; rfl
      · cases hstage
  | run yes => exact (SigningSession.of_mem_runStages hstage).1

/-- A call leaves its session as it was, or spent. -/
theorem session_exec (call : SessionCall) (w : World σ) (self : SigningSession) (pool : Pool)
    (s : σ) :
    ((call.exec self pool : Action Empty _).run w s).value.2.1 = self ∨
      ((call.exec self pool : Action Empty _).run w s).value.2.1 = { self with spent := true } := by
  cases call with
  | livenessSelect =>
      left
      simp [exec, Program.run_attempt_bind]
  | round1 i selected =>
      left
      rw [exec, Program.run_attempt_bind]
      cases ((self.round1 i selected).run w s).result <;> rfl
  | round2 i slot yes =>
      left
      simp only [exec]
      split
      · rw [Program.run_attempt_bind]
        rfl
      · rfl
  | run yes =>
      simp only [exec, Program.run_bind, Program.Run.andThen, SigningSession.run_run]
      cases ((self.signAll yes).run w s).result with
      | ok tx => exact Or.inr rfl
      | error e => exact Or.inl rfl

/-- A call leaves the pool as it was, extends it, or empties the one slot whose
    content its stage consumes. -/
theorem pool_exec (call : SessionCall) (w : World σ) (self : SigningSession) (pool : Pool)
    (s : σ) :
    (((call.exec self pool : Action Empty _).run w s).value.2.2 = pool ∨
      ∃ r1, ((call.exec self pool : Action Empty _).run w s).value.2.2 = pool ++ [some r1]) ∧
        (∀ stage ∈ call.stages w self pool s, stage.slot = none) ∨
    ∃ slot r1, pool[slot]? = some (some r1) ∧
      ((call.exec self pool : Action Empty _).run w s).value.2.2 = pool.set slot none ∧
      ∃ stage, call.stages w self pool s = [stage] ∧ stage.slot = some slot := by
  cases call with
  | livenessSelect =>
      left
      simp [exec, stages, Program.run_attempt_bind]
  | round1 i selected =>
      left
      rw [exec, Program.run_attempt_bind]
      cases ((self.round1 i selected).run w s).result <;> simp [stages, Stage.slot]
  | round2 i slot yes =>
      simp only [exec, stages]
      split
      · next r1 hslot =>
          right
          rw [Program.run_attempt_bind]
          exact ⟨slot, r1, hslot, rfl, _, rfl, rfl⟩
      · left
        simp
  | run yes =>
      left
      simp only [exec, stages, Program.run_bind, Program.Run.andThen, SigningSession.run_run]
      exact ⟨Or.inl rfl, fun stage hstage => (SigningSession.of_mem_runStages hstage).2⟩

/-- Make a sequence of calls on one session, and list what they return. -/
def execAll : List SessionCall → SigningSession → Pool → Action Empty (List Outcome)
  | [], _, _ => pure []
  | call :: calls, self, pool => do
      let (outcome, self, pool) ← call.exec self pool
      let outcomes ← execAll calls self pool
      pure (outcome :: outcomes)

end SessionCall

/-! ## Clients -/

/-- Everything a caller of the public interface holds. -/
structure Client where
  sessions : List SigningSession
  pool : Pool

/-- A public call, naming the session it is made on. -/
inductive Call where
  | on (session : Nat) (call : SessionCall)
  | newSessionOnAbort (session : Nat) (newId : String)

namespace Call

variable [Bitcoin] [Build] {σ : Type}

/-- Make the call. A session the client does not hold cannot be called. -/
def exec (client : Client) : Call → Action Empty Client
  | .on k call =>
      match client.sessions[k]? with
      | some self => do
          let (_, self, pool) ← call.exec self client.pool
          pure ⟨client.sessions.set k self, pool⟩
      | none => pure client
  | .newSessionOnAbort k newId =>
      match client.sessions[k]? with
      | some self => pure { client with sessions := client.sessions ++ [self.newSessionOnAbort newId] }
      | none => pure client

def stages (w : World σ) (client : Client) (s : σ) : Call → List (Stage σ)
  | .on k call =>
      match client.sessions[k]? with
      | some self => call.stages w self client.pool s
      | none => []
  | .newSessionOnAbort _ _ => []

variable {w : World σ} {client : Client} {s : σ}

theorem occursIn_exec {call : Call} {stage : Stage σ} (hstage : stage ∈ call.stages w client s) :
    stage.OccursIn w s ((call.exec client).run w s).trace := by
  cases call with
  | on k call =>
      simp only [exec, stages] at hstage ⊢
      split at hstage
      · next self hself =>
          rw [Program.run_bind, Program.Run.andThen, Program.Run.result_eq_value]
          exact (SessionCall.occursIn_exec hstage).append_right _
      · cases hstage
  | newSessionOnAbort k newId => cases hstage

theorem mem_trace_exec {call : Call} {ev : Event Op Op.Resp}
    (hev : ev ∈ ((call.exec client).run w s).trace) :
    (∃ self : SigningSession, ev ∈ (self.livenessSelect.run w s).trace) ∨
      ∃ stage ∈ call.stages w client s, ev ∈ stage.trace w := by
  cases call with
  | on k call =>
      simp only [exec, stages] at hev ⊢
      split at hev
      · next self hself =>
          rw [Program.run_bind, Program.Run.andThen, Program.Run.result_eq_value] at hev
          rcases List.mem_append.mp hev with hev | hev
          · rcases SessionCall.mem_trace_exec hev with h | h
            · exact Or.inl ⟨self, h⟩
            · exact Or.inr h
          · cases hev
      · cases hev
  | newSessionOnAbort k newId =>
      simp only [exec] at hev
      split at hev <;> cases hev

/-- A call changes a session only by spending it, and adds one only by starting
    an existing one anew. -/
theorem sessions_exec {call : Call} {self' : SigningSession}
    (hself' : self' ∈ ((call.exec client).run w s).value.sessions) :
    self' ∈ client.sessions ∨
      ∃ self ∈ client.sessions,
        self' = { self with spent := true } ∨ ∃ newId, self' = self.newSessionOnAbort newId := by
  cases call with
  | on k call =>
      simp only [exec] at hself'
      split at hself'
      · next self hself =>
          have hmem := List.mem_of_getElem? hself
          rw [Program.run_bind, Program.Run.andThen, Program.Run.result_eq_value] at hself'
          rcases List.mem_or_eq_of_mem_set hself' with h | rfl
          · exact Or.inl h
          · rcases call.session_exec w self client.pool s with h | h
            · exact Or.inl (h.symm ▸ hmem)
            · exact Or.inr ⟨self, hmem, Or.inl h⟩
      · exact Or.inl hself'
  | newSessionOnAbort k newId =>
      simp only [exec] at hself'
      split at hself'
      · next self hself =>
          rcases List.mem_append.mp hself' with h | h
          · exact Or.inl h
          · exact Or.inr ⟨self, List.mem_of_getElem? hself, Or.inr ⟨newId, List.mem_singleton.mp h⟩⟩
      · exact Or.inl hself'

/-- What becomes of the pool: nothing, an extension, or one emptied slot that
    the single stage of the call consumes. -/
theorem pool_exec (call : Call) (w : World σ) (client : Client) (s : σ) :
    (((call.exec client).run w s).value.pool = client.pool ∨
      ∃ r1, ((call.exec client).run w s).value.pool = client.pool ++ [some r1]) ∧
        (∀ stage ∈ call.stages w client s, stage.slot = none) ∨
    ∃ slot r1, client.pool[slot]? = some (some r1) ∧
      ((call.exec client).run w s).value.pool = client.pool.set slot none ∧
      ∃ stage, call.stages w client s = [stage] ∧ stage.slot = some slot := by
  cases call with
  | on k call =>
      simp only [exec, stages]
      split
      · next self hself =>
          rw [Program.run_bind, Program.Run.andThen, Program.Run.result_eq_value]
          exact call.pool_exec w self client.pool s
      · exact Or.inl ⟨Or.inl rfl, by simp⟩
  | newSessionOnAbort k newId =>
      simp only [exec, stages]
      split <;> exact Or.inl ⟨Or.inl rfl, by simp⟩

theorem held_of_slot {call : Call} {stage : Stage σ} {k : Nat}
    (hstage : stage ∈ call.stages w client s) (hslot : stage.slot = some k) :
    ∃ r1, client.pool[k]? = some (some r1) := by
  rcases call.pool_exec w client s with
    ⟨-, h⟩ | ⟨slot, r1, hheld, -, stage', hstages, hslot'⟩
  · rw [h stage hstage] at hslot
    cases hslot
  · rw [hstages, List.mem_singleton] at hstage
    subst hstage
    rw [hslot'] at hslot
    cases hslot
    exact ⟨r1, hheld⟩

theorem moved_of_slot {call : Call} {stage : Stage σ} {k : Nat}
    (hstage : stage ∈ call.stages w client s) (hslot : stage.slot = some k) :
    ((call.exec client).run w s).value.pool[k]? = some none := by
  rcases call.pool_exec w client s with
    ⟨-, h⟩ | ⟨slot, r1, hheld, hpool, stage', hstages, hslot'⟩
  · rw [h stage hstage] at hslot
    cases hslot
  · rw [hstages, List.mem_singleton] at hstage
    subst hstage
    rw [hslot'] at hslot
    cases hslot
    rw [hpool, List.getElem?_set_self (List.getElem?_eq_some_iff.mp hheld).1]

theorem moved_exec {call : Call} {k : Nat} (hmoved : client.pool[k]? = some none) :
    ((call.exec client).run w s).value.pool[k]? = some none := by
  have hlt : k < client.pool.length := (List.getElem?_eq_some_iff.mp hmoved).1
  rcases call.pool_exec w client s with
    ⟨hpool | ⟨r1, hpool⟩, -⟩ | ⟨slot, r1, -, hpool, -⟩
  · rw [hpool, hmoved]
  · rw [hpool, List.getElem?_append_left hlt, hmoved]
  · rw [hpool, List.getElem?_set]
    split
    · simp_all
    · exact hmoved

theorem pairwise_slot (call : Call) :
    (call.stages w client s).Pairwise (fun a b => ∀ k, a.slot = some k → b.slot ≠ some k) := by
  rcases call.pool_exec w client s with
    ⟨-, h⟩ | ⟨slot, r1, -, -, stage, hstages, -⟩
  · refine List.Pairwise.imp_of_mem ?_ (List.pairwise_of_forall (fun _ _ => trivial))
    intro a b ha _ _ k hk
    rw [h a ha] at hk
    cases hk
  · rw [hstages]
    exact List.pairwise_singleton _ _

end Call

namespace Client

variable [Bitcoin] [Build] {σ : Type}

/-- The trace of a sequence of calls. -/
def trace (w : World σ) : List Call → Client → σ → List (Event Op Op.Resp)
  | [], _, _ => []
  | call :: calls, client, s =>
      let out := (call.exec client).run w s
      out.trace ++ trace w calls out.value out.state

/-- The rounds that a sequence of calls goes through. -/
def stages (w : World σ) : List Call → Client → σ → List (Stage σ)
  | [], _, _ => []
  | call :: calls, client, s =>
      let out := (call.exec client).run w s
      call.stages w client s ++ stages w calls out.value out.state

variable {w : World σ}

theorem occursIn_trace {calls : List Call} {client : Client} {s : σ} {stage : Stage σ}
    (hstage : stage ∈ stages w calls client s) :
    stage.OccursIn w s (trace w calls client s) := by
  induction calls generalizing client s with
  | nil => cases hstage
  | cons call calls ih =>
      rcases List.mem_append.mp hstage with hstage | hstage
      · exact (Call.occursIn_exec hstage).append_right _
      · refine Stage.OccursIn.append_left _ ?_
        rw [Program.replay_run]
        exact ih hstage

/-- A history performs the operations of its stages and of liveness polls. -/
theorem mem_trace {calls : List Call} {client : Client} {s : σ} {ev : Event Op Op.Resp}
    (hev : ev ∈ trace w calls client s) :
    (∃ (self : SigningSession) (s' : σ), ev ∈ (self.livenessSelect.run w s').trace) ∨
      ∃ stage ∈ stages w calls client s, ev ∈ stage.trace w := by
  induction calls generalizing client s with
  | nil => cases hev
  | cons call calls ih =>
      rcases List.mem_append.mp hev with hev | hev
      · rcases Call.mem_trace_exec hev with ⟨self, h⟩ | ⟨stage, hstage, h⟩
        · exact Or.inl ⟨self, s, h⟩
        · exact Or.inr ⟨stage, List.mem_append_left _ hstage, h⟩
      · rcases ih hev with h | ⟨stage, hstage, h⟩
        · exact Or.inl h
        · exact Or.inr ⟨stage, List.mem_append_right _ hstage, h⟩

/-- What holds of every session a client starts with, and survives both being
    spent and being started anew, holds of the session of every stage. -/
theorem session_of_mem_stages {P : SigningSession → Prop}
    (hspent : ∀ self, P self → P { self with spent := true })
    (hnew : ∀ self newId, P self → P (self.newSessionOnAbort newId))
    {calls : List Call} {client : Client} {s : σ} (hclient : ∀ self ∈ client.sessions, P self)
    {stage : Stage σ} (hstage : stage ∈ stages w calls client s) : P stage.session := by
  induction calls generalizing client s with
  | nil => cases hstage
  | cons call calls ih =>
      rcases List.mem_append.mp hstage with hstage | hstage
      · cases call with
        | on k call =>
            simp only [Call.stages] at hstage
            split at hstage
            · next self hself =>
                rw [SessionCall.session_of_mem_stages hstage]
                exact hclient self (List.mem_of_getElem? hself)
            · cases hstage
        | newSessionOnAbort k newId => cases hstage
      · refine ih ?_ hstage
        intro self' hself'
        rcases Call.sessions_exec hself' with h | ⟨self, h, rfl | ⟨newId, rfl⟩⟩
        · exact hclient self' h
        · exact hspent self (hclient self h)
        · exact hnew self newId (hclient self h)

/-- An emptied slot is never consumed again. -/
theorem slot_ne_of_moved {k : Nat} {calls : List Call} {client : Client} {s : σ}
    (hmoved : client.pool[k]? = some none) {stage : Stage σ}
    (hstage : stage ∈ stages w calls client s) : stage.slot ≠ some k := by
  induction calls generalizing client s with
  | nil => cases hstage
  | cons call calls ih =>
      rcases List.mem_append.mp hstage with hstage | hstage
      · intro hslot
        obtain ⟨r1, hheld⟩ := Call.held_of_slot hstage hslot
        rw [hmoved] at hheld
        cases hheld
      · exact ih (Call.moved_exec hmoved) hstage

/-- A `Round1` that a caller holds is handed to `round2` at most once. -/
theorem pairwise_slot (calls : List Call) (client : Client) (s : σ) :
    (stages w calls client s).Pairwise (fun a b => ∀ k, a.slot = some k → b.slot ≠ some k) := by
  induction calls generalizing client s with
  | nil => exact List.Pairwise.nil
  | cons call calls ih =>
      refine List.pairwise_append.mpr ⟨Call.pairwise_slot call, ih _ _, ?_⟩
      intro a ha b hb k hk
      exact slot_ne_of_moved (Call.moved_of_slot ha hk) hb

end Client

end Session
