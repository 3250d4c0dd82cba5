-- SUMMARY: Clients of one coordinator database that open it, call it, are refused and crash, and what each of them has made of it.
import Cheget.Coordinator.Books
import Mathlib.Logic.Relation

/-!
# The coordinator's desk

Any number of clients open the database, make calls on it, are refused, crash, and
come back, in any order of their steps. Between the statement that carries a call
out and its return there is time to crash.
-/

namespace Coordinator

inductive Client where
  | closed
  /-- Its open has returned an error. -/
  | failed (e : StoreError)
  | opening (p : StoreM Unit)
  | ready
  | calling (call : Call) (p : StoreM call.Result)

/-- What is noted of the calls, in the order of time. -/
inductive Entry (ι : Type) where
  | invoked (k : ι) (call : Call)
  | performed (k : ι) (call : Call) (result : Except StoreError call.Result)
  | returned (k : ι) (call : Call) (result : Except StoreError call.Result)

section Machine

variable [Sqlite] {ι : Type}

structure Desk (engine : Engine ι) where
  state : engine.State
  clients : ι → Client
  log : List (Entry ι)

/-- A call has been carried out when it makes no other statement. -/
def performed (k : ι) (call : Call) : StoreM call.Result → List (Entry ι)
  | .done a => [.performed k call (.ok a)]
  | .fail e => [.performed k call (.error e)]
  | .exec _ _ => []

inductive Move (ι : Type) where
  | opens (k : ι)
  | calls (k : ι) (call : Call)
  | served (k : ι) (op : StoreOp) (resp : op.Resp)
  | returns (k : ι)
  | crashes (k : ι)

namespace Desk

variable {engine : Engine ι}

def committed (desk : Desk engine) : Database := (engine.transactions desk.state).committed

/-- Nobody has opened the database, which is absent. -/
def start : Desk engine := ⟨engine.fresh, fun _ => .closed, []⟩

variable [DecidableEq ι]

/-- A client begins to open or to call, is served a statement, returns, or crashes. -/
inductive Step (desk : Desk engine) : Move ι → Desk engine → Prop where
  | opens (k : ι) : (desk.clients k = .closed ∨ ∃ e, desk.clients k = .failed e) →
      Step desk (.opens k) { desk with clients := Function.update desk.clients k (.opening openStore) }
  | calls (k : ι) (call : Call) : desk.clients k = .ready →
      Step desk (.calls k call)
        ⟨desk.state, Function.update desk.clients k (.calling call call.program),
          desk.log ++ [.invoked k call]⟩
  | opening (k : ι) (op : StoreOp) (cont : op.Resp → StoreM Unit) (resp : op.Resp) (s : engine.State) :
      desk.clients k = .opening (.exec op cont) → engine.Serves k op desk.state resp s →
      Step desk (.served k op resp)
        ⟨s, Function.update desk.clients k (.opening (cont resp)), desk.log⟩
  | calling (k : ι) (call : Call) (op : StoreOp) (cont : op.Resp → StoreM call.Result) (resp : op.Resp)
      (s : engine.State) :
      desk.clients k = .calling call (.exec op cont) → engine.Serves k op desk.state resp s →
      Step desk (.served k op resp)
        ⟨s, Function.update desk.clients k (.calling call (cont resp)),
          desk.log ++ performed k call (cont resp)⟩
  | opened (k : ι) : desk.clients k = .opening (.done ()) →
      Step desk (.returns k) { desk with clients := Function.update desk.clients k .ready }
  | failed (k : ι) (e : StoreError) : desk.clients k = .opening (.fail e) →
      Step desk (.returns k) { desk with clients := Function.update desk.clients k (.failed e) }
  | returned (k : ι) (call : Call) (result : Except StoreError call.Result) :
      desk.clients k = .calling call (.ofExcept result) →
      Step desk (.returns k)
        ⟨desk.state, Function.update desk.clients k .ready, desk.log ++ [.returned k call result]⟩
  | crashes (k : ι) (s : engine.State) : engine.Ends k desk.state s →
      Step desk (.crashes k) ⟨s, Function.update desk.clients k .closed, desk.log⟩

/-- Steps that meet a condition. -/
def Runs (Meets : Desk engine → Move ι → Prop) : Desk engine → Desk engine → Prop :=
  Relation.ReflTransGen (fun desk desk' => ∃ move, Meets desk move ∧ desk.Step move desk')

/-- An opener applies the schema after another one's commit. -/
def Late (desk : Desk engine) (op : StoreOp) : Prop :=
  (∃ batch, op = .executeBatch batch) ∧ 1 ≤ userVersion desk.committed

/-- No opener is refused, and none is late. -/
def Smooth (desk : Desk engine) : Move ι → Prop
  | .served k op resp => (∃ p, desk.clients k = .opening p) → ¬ Refused resp ∧ ¬ desk.Late op
  | _ => True

instance (op : StoreOp) : Decidable (∃ batch, op = .executeBatch batch) :=
  match op with
  | .executeBatch batch => isTrue ⟨batch, rfl⟩
  | .setup _ | .userVersion | .begin | .setUserVersion _ | .commit | .rollback | .insertOrReplace _ _
  | .select _ => isFalse (by rintro ⟨_, h⟩; cases h)

instance (client : Client) : Decidable (∃ p, client = .opening p) :=
  match client with
  | .opening p => isTrue ⟨p, rfl⟩
  | .closed | .failed _ | .ready | .calling _ _ => isFalse (by rintro ⟨_, h⟩; cases h)

instance (desk : Desk engine) (op : StoreOp) : Decidable (desk.Late op) :=
  inferInstanceAs (Decidable (_ ∧ _))

instance (desk : Desk engine) (move : Move ι) : Decidable (desk.Smooth move) :=
  match move with
  | .served k op resp =>
      inferInstanceAs (Decidable ((∃ p, desk.clients k = .opening p) → ¬ Refused resp ∧ ¬ desk.Late op))
  | .opens _ | .calls _ _ | .returns _ | .crashes _ => isTrue trivial

end Desk

end Machine

/-! ## The books of a log -/

section Logs

variable {ι : Type}

def Entry.client : Entry ι → ι
  | .invoked k _ => k
  | .performed k _ _ => k
  | .returned k _ _ => k

/-- A call that was carried out is in the books, whether it has returned or not. -/
def Entry.enter (books : Books) : Entry ι → Books
  | .performed _ call (.ok _) => books.after call
  | _ => books

def Books.of (log : List (Entry ι)) : Books := log.foldl Entry.enter .empty

theorem Books.of_concat (log : List (Entry ι)) (entry : Entry ι) :
    Books.of (log ++ [entry]) = entry.enter (Books.of log) := by
  rw [Books.of, List.foldl_append]
  rfl

variable [DecidableEq ι]

/-- The last entry of a client. -/
def lastOf (k : ι) (log : List (Entry ι)) : Option (Entry ι) :=
  (log.filter (fun entry => entry.client = k)).getLast?

theorem lastOf_concat_self {k : ι} {entry : Entry ι} (log : List (Entry ι)) (h : entry.client = k) :
    lastOf k (log ++ [entry]) = some entry := by
  simp [lastOf, List.filter_append, h]

theorem lastOf_concat_of_ne {k : ι} {entry : Entry ι} (log : List (Entry ι)) (h : entry.client ≠ k) :
    lastOf k (log ++ [entry]) = lastOf k log := by
  simp [lastOf, List.filter_append, h]

/-- A call is carried out after its invocation and before its return, once. What it
    answers is right for the calls carried out before it, or it was refused. -/
def Entry.Right (past : List (Entry ι)) : Entry ι → Prop
  | .invoked _ _ => True
  | .performed k call result => lastOf k past = some (.invoked k call) ∧
      ((∃ a, result = .ok a ∧ (Books.of past).Answers call a) ∨ Refused result)
  | .returned k call result => lastOf k past = some (.performed k call result)

def AllRight (log : List (Entry ι)) : Prop :=
  ∀ past entry later, log = past ++ entry :: later → entry.Right past

theorem AllRight.concat {log : List (Entry ι)} {entry : Entry ι} (hlog : AllRight log)
    (hentry : entry.Right log) : AllRight (log ++ [entry]) := by
  intro past last later h
  rcases List.eq_nil_or_concat later with rfl | ⟨later, other, rfl⟩
  · obtain ⟨rfl, hlast⟩ := List.append_inj' h rfl
    cases hlast
    exact hentry
  · rw [List.concat_eq_append, ← List.cons_append, ← List.append_assoc] at h
    exact hlog past last later (List.append_inj' h rfl).1

/-- Where a client's last entry leaves it. -/
def Noted (log : List (Entry ι)) (k : ι) : Client → Prop
  | .calling call p =>
      p = call.program ∧ lastOf k log = some (.invoked k call) ∨
        ∃ result, p = .ofExcept result ∧ lastOf k log = some (.performed k call result)
  | _ => True

theorem Noted.concat {log : List (Entry ι)} {entry : Entry ι} {k : ι} {client : Client}
    (h : Noted log k client) (hne : entry.client ≠ k) : Noted (log ++ [entry]) k client := by
  cases client with
  | calling call p =>
      rcases h with ⟨hp, hlast⟩ | ⟨result, hp, hlast⟩
      · exact Or.inl ⟨hp, (lastOf_concat_of_ne log hne).trans hlast⟩
      · exact Or.inr ⟨result, hp, (lastOf_concat_of_ne log hne).trans hlast⟩
  | closed => trivial
  | failed e => trivial
  | opening p => trivial
  | ready => trivial

end Logs

end Coordinator
