-- SUMMARY: Openers of one coordinator database that race, are refused and crash, and when every open that ends returns Ok.
import Cheget.Coordinator.Plain

/-!
# Opening the coordinator database

`open` reads the version and, where it is 0, applies the schema and bumps the version in
one transaction. The version is read before the transaction begins, and not again.
-/

namespace Coordinator

namespace Desk

section Race

variable [Sqlite] {ι : Type} [DecidableEq ι] {engine : Engine ι} {desk desk' : Desk engine}

omit [DecidableEq ι] in
/-- Every opener that is not done is about to make a call that can only be refused. -/
def Quiescent (desk : Desk engine) : Prop :=
  ∀ k p, desk.clients k = .opening p →
    ∃ op cont, p = .exec op cont ∧ ∀ resp s, engine.Serves k op desk.state resp s → Refused resp

theorem Quiescent.blocked (hquiet : desk.Quiescent) (hserialisable : engine.Serialisable) {k : ι}
    {p : StoreM Unit} (hclient : desk.clients k = .opening p) :
    (engine.transactions desk.state).blocked k = true := by
  obtain ⟨op, cont, -, hrefused⟩ := hquiet k p hclient
  cases hfree : (engine.transactions desk.state).blocked k with
  | true => rfl
  | false =>
      obtain ⟨resp, s, hserves, hserved⟩ := hserialisable.free k op desk.state hfree
      exact absurd (hrefused resp s hserves) hserved

/-- Where no opener can take a step, none is left: the connection that one would wait for is
    not stuck itself. -/
theorem Inv.settled (hinv : desk.Inv False) (hserialisable : engine.Serialisable) (hquiet : desk.Quiescent)
    (k : ι) (p : StoreM Unit) : desk.clients k ≠ .opening p := by
  intro hclient
  have hblocked := hquiet.blocked hserialisable hclient
  have hnobody : (engine.transactions desk.state).writer = none := by
    refine Option.eq_none_iff_forall_ne_some.mpr (fun held hheld => ?_)
    obtain ⟨j, copy⟩ := held
    have hj := hinv.stands j
    -- the writer is an opener, and nobody stands in its way
    obtain ⟨q, hq⟩ : ∃ q, desk.clients j = .opening q := by
      generalize desk.clients j = client at hj
      cases hj with
      | opening p hp => exact ⟨p, rfl⟩
      | closed hi => exact absurd hheld (hi.2 copy)
      | failed e hl hi => exact hl.elim
      | ready hi hk => exact absurd hheld (hi.2 copy)
      | calling call hi hk => exact absurd hheld (hi.2 copy)
      | answered call result hi hk => exact absurd hheld (hi.2 copy)
    have hfree := Transactional.not_blocked_of_writer hheld
    rw [hquiet.blocked hserialisable hq] at hfree
    cases hfree
  rw [Transactional.free_of_writer hnobody] at hblocked
  cases hblocked

theorem Inv.no_error (hinv : desk.Inv False) (k : ι) (e : StoreError) : desk.clients k ≠ .failed e := by
  intro hclient
  have hk := hinv.stands k
  rw [hclient] at hk
  cases hk with
  | failed e hl hi => exact hl

/-- An opener that takes a step which is not smooth has nothing to return but an error. -/
theorem Inv.fails_of_not_smooth (hinv : desk.Inv True) (hdocumented : Sqlite.Documented)
    (hserialisable : engine.Serialisable) {k : ι} {op : StoreOp} {resp : op.Resp}
    (hstep : desk.Step (.served k op resp) desk') (hrough : ¬ desk.Smooth (.served k op resp)) :
    (desk'.clients k).Fails := by
  obtain ⟨⟨p, hp⟩, hbad⟩ := Classical.not_imp.mp hrough
  cases hstep with
  | opening _ _ cont _ s hclient hserves =>
      have hk := hinv.stands k
      rw [hclient] at hk
      have hfails : Refused resp ∨ ¬ Refused resp ∧ (∃ batch, op = .executeBatch batch) ∧
          Kept (engine.transactions desk.state).committed := by
        by_cases hrefused : Refused resp
        · exact Or.inl hrefused
        · obtain ⟨hop, hversion⟩ := not_not.mp ((not_and.mp hbad) hrefused)
          refine Or.inr ⟨hrefused, hop, hinv.known.resolve_left (fun habsent => ?_)⟩
          rw [habsent, hdocumented.version_absent] at hversion
          exact absurd hversion (by decide)
      change (Function.update desk.clients k (.opening (cont resp)) k).Fails
      rw [Function.update_self]
      exact (hk.opens.fails hdocumented hserialisable hserves hfails trivial).1
  | calling _ call _ cont _ s hclient hserves =>
      rw [hclient] at hp
      cases hp

/-- Whatever the clients do, the database is in one of its two states. If no opener is
    refused a call or applies the schema after another one's commit, every open that ends
    returns `Ok`, and nobody waits forever. -/
theorem open_race (hdocumented : Sqlite.Documented) (hserialisable : engine.Serialisable)
    (desk : Desk engine) :
    (Runs (fun _ _ => True) start desk → Unmigrated desk.committed ∨ Migrated desk.committed) ∧
    (Runs Smooth start desk →
      (∀ k e, desk.clients k ≠ .failed e) ∧ (desk.Quiescent → ∀ k p, desk.clients k ≠ .opening p)) := by
  constructor
  · intro hruns
    have hinv := (inv_start True hserialisable).runs hdocumented hserialisable
      (fun _ _ _ => Or.inr trivial) hruns
    rcases hinv.known with habsent | ⟨ledger, hkept⟩
    · rw [habsent]
      exact Or.inl hdocumented.unmigrated_absent
    · exact Or.inr hkept.migrated
  · intro hruns
    have hinv := (inv_start False hserialisable).runs hdocumented hserialisable
      (fun _ _ hsmooth => Or.inl hsmooth) hruns
    exact ⟨hinv.no_error, hinv.settled hserialisable⟩

end Race

end Desk

/-! ## Two openers -/

namespace Plain

def goes (k : Bool) (n : Nat) : List (Turn Bool) := List.replicate n (.goes k)

/-- One crashes with the schema applied and comes back while the other one migrates. -/
def overlapping : List (Turn Bool) :=
  [.opens true, .opens false] ++ goes true 9 ++ goes false 6 ++ [.crashes true, .opens true] ++
    goes false 4 ++ goes true 6 ++ goes false 1 ++ goes true 1 ++ goes false 1 ++ goes true 1

theorem open_race_overlapping :
    (Unmigrated (after Desk.start overlapping).committed ∨ Migrated (after Desk.start overlapping).committed) ∧
    (∀ k e, (after Desk.start overlapping).clients k ≠ .failed e) ∧
    ∀ k p, (after Desk.start overlapping).clients k ≠ .opening p := by
  have hquiet : (after Desk.start overlapping).Quiescent := by
    intro k p hp
    have hready : (after Desk.start overlapping).clients k = .ready := by cases k <;> rfl
    rw [hready] at hp
    cases hp
  obtain ⟨hstates, hends⟩ := Desk.open_race documented serialisable (after Desk.start overlapping)
  obtain ⟨herror, hsettled⟩ := hends (runs_along Desk.Smooth Desk.start overlapping rfl)
  exact ⟨hstates (runs_along _ Desk.start overlapping rfl), herror, hsettled hquiet⟩

end Plain

/-- Nobody crashes, and nothing is refused. -/
def Move.Calm {ι : Type} : Move ι → Prop
  | .crashes _ => False
  | .served _ _ resp => ¬ Refused resp
  | _ => True

instance {ι : Type} (move : Move ι) : Decidable move.Calm :=
  match move with
  | .crashes _ => isFalse id
  | .served _ _ resp => inferInstanceAs (Decidable (¬ Refused resp))
  | .opens _ | .calls _ _ | .returns _ => isTrue trivial

/-- Two openers read version 0; the one that comes second fails. -/
theorem Plain.second_opener_fails :
    ∃ desk : Desk (engine Bool), Desk.Runs (fun _ move => move.Calm) Desk.start desk ∧
      desk.clients false = .failed (.sql (.tableExists "roster")) :=
  ⟨_, runs_along (fun _ move => move.Calm) Desk.start
    ([.opens true, .opens false] ++ goes true 7 ++ goes false 7 ++ goes true 5 ++ goes false 4) rfl, rfl⟩

end Coordinator
