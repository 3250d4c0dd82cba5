-- SUMMARY: What the calls of a coordinator database answer, and which rows it has, in every run of its clients.
import Cheget.Coordinator.Plain

/-!
# One set of books

Whoever makes the calls, each of them is answered from those that were carried out before
it, and these are what the database keeps.
-/

namespace Coordinator

/-- Every call is answered from the inserts that were carried out before it, whether these
    have returned or not, and the database has exactly their rows. -/
theorem Desk.answered_from_books [Sqlite] {ι : Type} [DecidableEq ι] {engine : Engine ι}
    (hdocumented : Sqlite.Documented) (hserialisable : engine.Serialisable) {desk : Desk engine}
    (hruns : Runs (fun _ _ => True) start desk) :
    AllRight desk.log ∧
      ((desk.committed = Sqlite.absent ∧ desk.log = []) ∨
        ∃ ledger : Ledger, ledger.KeptIn desk.committed ∧ ledger.books = Books.of desk.log) := by
  have hinv := (inv_start True hserialisable).runs hdocumented hserialisable
    (fun _ _ _ => Or.inr trivial) hruns
  exact ⟨hinv.right, hinv.books⟩

namespace Plain

def seat : RosterEntry := ⟨"active", "01", some 1, "npub", "ACTIVE", 0, none⟩

/-- One client crashes between the commit of its insert and its return, and another one
    lists the row. -/
def unreturned : List (Turn Bool) :=
  [.opens true] ++ List.replicate 12 (.goes true) ++ [.calls true (.insertRoster seat), .goes true, .crashes true,
    .opens false] ++ List.replicate 8 (.goes false) ++ [.calls false (.listRoster "active"), .goes false, .goes false]

theorem log_unreturned : (after Desk.start unreturned).log =
    [.invoked true (.insertRoster seat), .performed true (.insertRoster seat) (.ok ()),
      .invoked false (.listRoster "active"), .performed false (.listRoster "active") (.ok [seat]),
      .returned false (.listRoster "active") (.ok [seat])] := rfl

theorem answered_from_books_unreturned :
    AllRight [.invoked true (.insertRoster seat), .performed true (.insertRoster seat) (.ok ()),
      .invoked false (.listRoster "active"), .performed false (.listRoster "active") (.ok [seat]),
      .returned false (.listRoster "active") (.ok [seat])] ∧
    ∃ ledger : Ledger, ledger.KeptIn (after Desk.start unreturned).committed ∧
      ledger.books = Books.empty.after (.insertRoster seat) := by
  obtain ⟨hright, hbooks⟩ := Desk.answered_from_books documented serialisable
    (runs_along (fun _ _ => True) Desk.start unreturned rfl)
  rw [log_unreturned] at hright hbooks
  refine ⟨hright, hbooks.resolve_left ?_⟩
  rintro ⟨-, hlog⟩
  cases hlog

end Plain

end Coordinator
