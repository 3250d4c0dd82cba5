-- SUMMARY: The in-memory board and a source of randomness as the world of a session.
import Cheget.Session.Stages
import Cheget.Transport.InMemory

namespace Session

open Chain Crypto Transport

variable [Frost]

/-- A process: its message board, and its randomness with how much of it has
    been drawn. -/
structure Host where
  board : InMemoryTransport
  entropy : Nat → Entropy
  drawn : Nat

namespace Host

/-- The world of sessions that share one board. -/
def world : World Host
  | .publish env, s => ((s.board.publish env).1, { s with board := (s.board.publish env).2 })
  | .subscribe filter, s => (s.board.subscribe filter, s)
  | .draw, s => (s.entropy s.drawn, { s with drawn := s.drawn + 1 })

@[simp] theorem world_subscribe (filter : Filter) (s : Host) :
    world (.subscribe filter) s = (s.board.subscribe filter, s) := rfl

/-- A trace leaves the board with its publishes on it. -/
theorem replay_board (s : Host) (trace : List (Event Op Op.Resp)) :
    (Program.replay world s trace).board = s.board.publishAll (published trace) := by
  induction trace generalizing s with
  | nil => rfl
  | cons ev trace ih =>
      obtain ⟨op, resp⟩ := ev
      cases op <;> exact ih _

theorem run_board {ε α : Type} (p : Action ε α) (s : Host) :
    (p.run world s).state.board = s.board.publishAll (published (p.run world s).trace) := by
  rw [← Program.replay_run, replay_board]

end Host

end Session
