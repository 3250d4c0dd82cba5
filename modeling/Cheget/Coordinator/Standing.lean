-- SUMMARY: Where each client of a coordinator database stands, and the books that every run of them keeps.
import Cheget.Coordinator.Desk

/-!
# Standing

What is left of a client's program says what it has made of the database. The steps of
the others leave it where it stands, and its own take it on; the database has the books
of the log throughout.
-/

namespace Coordinator

/-! ## Where a client stands -/

section Stands

variable [Sqlite] {ι : Type} {s s' : Transactional ι Database} {k : ι} {late : Prop}

/-- The database has the rows of some ledger. -/
def Kept (db : Database) : Prop := ∃ ledger : Ledger, ledger.KeptIn db

/-- What is left of an opener's program, and what it has made of the database. It fails
    only if `late`. -/
inductive Opens (late : Prop) (s : Transactional ι Database) (k : ι) : StoreM Unit → Prop where
  | preparing (ops : List SetupOp) : s.Idle k → Opens late s k (prepare ops)
  | beginning : s.Idle k → Opens late s k (onConnection .begin >>= fun _ => applySchema.attempt >>= settle)
  | applying : s.begun k = true → s.Reads k → Opens late s k (applySchema.attempt >>= settle)
  | bumping : s.begun k = true → s.writer = some (k, applied) → s.committed = Sqlite.absent →
      Opens late s k ((onConnection (.setUserVersion schemaVersion) >>=
        fun _ => onConnection .commit).attempt >>= settle)
  | committing : s.begun k = true → s.writer = some (k, migrated) → s.committed = Sqlite.absent →
      Opens late s k ((onConnection .commit).attempt >>= settle)
  | failing (e : StoreError) : late → Opens late s k (settle (.error e))
  | refused (e : StoreError) : late → s.Idle k → Opens late s k (.fail e)
  | opened : s.Idle k → Kept s.committed → Opens late s k (.done ())

/-- Where a client stands. A call has yet to make its statement, or has made it. -/
inductive Stands (late : Prop) (s : Transactional ι Database) (k : ι) : Client → Prop where
  | closed : s.Idle k → Stands late s k .closed
  | failed (e : StoreError) : late → s.Idle k → Stands late s k (.failed e)
  | opening (p : StoreM Unit) : Opens late s k p → Stands late s k (.opening p)
  | ready : s.Idle k → Kept s.committed → Stands late s k .ready
  | calling (call : Call) : s.Idle k → Kept s.committed → Stands late s k (.calling call call.program)
  | answered (call : Call) (result : Except StoreError call.Result) : s.Idle k → Kept s.committed →
      Stands late s k (.calling call (.ofExcept result))

/-- A commit of another connection, made where this one has written nothing, leaves a
    ledger's database. -/
theorem Kept.of_committed (hcommitted : s'.committed = s.committed ∨ s.Reads k ∧ Kept s'.committed)
    (h : Kept s.committed) : Kept s'.committed := by
  rcases hcommitted with hsame | ⟨-, hnew⟩
  · rwa [hsame]
  · exact hnew

theorem committed_of_writer (hcommitted : s'.committed = s.committed ∨ s.Reads k ∧ Kept s'.committed)
    {copy : Database} (hwriter : s.writer = some (k, copy)) : s'.committed = s.committed :=
  hcommitted.resolve_right (fun h => h.1 copy hwriter)

/-- The statements of the others leave an opener where it stands: they commit only where it
    has written nothing. -/
theorem Opens.frame {p : StoreM Unit} (hat : Opens late s k p) (hrest : Transactional.Undisturbed s s' k)
    (hcommitted : s'.committed = s.committed ∨ s.Reads k ∧ Kept s'.committed) : Opens late s' k p := by
  have ⟨hbegun, hwriter⟩ := hrest
  cases hat with
  | preparing ops hi => exact .preparing ops (hrest.idle hi)
  | beginning hi => exact .beginning (hrest.idle hi)
  | applying hb hr => exact .applying (hbegun.trans hb) (hrest.reads hr)
  | bumping hb hw hc =>
      exact .bumping (hbegun.trans hb) ((hwriter _).mpr hw) ((committed_of_writer hcommitted hw).trans hc)
  | committing hb hw hc =>
      exact .committing (hbegun.trans hb) ((hwriter _).mpr hw) ((committed_of_writer hcommitted hw).trans hc)
  | failing e hl => exact .failing e hl
  | refused e hl hi => exact .refused e hl (hrest.idle hi)
  | opened hi hk => exact .opened (hrest.idle hi) (hk.of_committed hcommitted)

theorem Stands.frame {client : Client} (hat : Stands late s k client)
    (hrest : Transactional.Undisturbed s s' k)
    (hcommitted : s'.committed = s.committed ∨ s.Reads k ∧ Kept s'.committed) : Stands late s' k client := by
  cases hat with
  | closed hi => exact .closed (hrest.idle hi)
  | failed e hl hi => exact .failed e hl (hrest.idle hi)
  | opening p hp => exact .opening p (hp.frame hrest hcommitted)
  | ready hi hk => exact .ready (hrest.idle hi) (hk.of_committed hcommitted)
  | calling call hi hk => exact .calling call (hrest.idle hi) (hk.of_committed hcommitted)
  | answered call result hi hk => exact .answered call result (hrest.idle hi) (hk.of_committed hcommitted)

theorem Stands.opens {p : StoreM Unit} (hat : Stands late s k (.opening p)) : Opens late s k p := by
  cases hat with
  | opening p hp => exact hp

theorem Stands.idle_of_ready (hat : Stands late s k .ready) : s.Idle k ∧ Kept s.committed := by
  cases hat with
  | ready hi hk => exact ⟨hi, hk⟩

theorem Stands.idle_of_calling {call : Call} {p : StoreM call.Result} (hat : Stands late s k (.calling call p)) :
    s.Idle k ∧ Kept s.committed := by
  cases hat with
  | calling call hi hk => exact ⟨hi, hk⟩
  | answered call result hi hk => exact ⟨hi, hk⟩

/-- An opener that has ended well stands before a database that is migrated. -/
theorem Opens.idle_of_done (hat : Opens late s k (.done ())) : s.Idle k ∧ Kept s.committed := by
  generalize hp : (.done () : StoreM Unit) = p at hat
  cases hat with
  | opened hi hk => exact ⟨hi, hk⟩
  | preparing ops hi => cases ops <;> cases hp
  | beginning hi => cases hp
  | applying hb hr => cases hp
  | bumping hb hw hc => cases hp
  | committing hb hw hc => cases hp
  | failing e hl => cases hp
  | refused e hl hi => cases hp

theorem Opens.idle_of_fail {e : StoreError} (hat : Opens late s k (.fail e)) : late ∧ s.Idle k := by
  generalize hp : (.fail e : StoreM Unit) = p at hat
  cases hat with
  | refused e hl hi => exact ⟨hl, hi⟩
  | preparing ops hi => cases ops <;> cases hp
  | beginning hi => cases hp
  | applying hb hr => cases hp
  | bumping hb hw hc => cases hp
  | committing hb hw hc => cases hp
  | failing e hl => cases hp
  | opened hi hk => cases hp

end Stands

/-! ## The statements of an opener -/

section Opening

variable [Sqlite] {ι : Type} [DecidableEq ι] {engine : Engine ι} {late : Prop} {s s' : engine.State} {k : ι}
  {op : StoreOp} {cont : op.Resp → StoreM Unit} {resp : op.Resp}

/-- An open that returns an error, if anything. -/
def Client.Fails (client : Client) : Prop :=
  ∃ e, client = .opening (settle (.error e)) ∨ client = .opening (.fail e)

/-- Version 0 is the database that is absent, and version 1 is a ledger's. -/
def Known (db : Database) : Prop := db = Sqlite.absent ∨ Kept db

theorem Kept.version {db : Database} (h : Kept db) : userVersion db = schemaVersion := h.elim fun _ hk => hk.version

theorem Kept.applyBatch {db : Database} (h : Kept db) (hdocumented : Sqlite.Documented) :
    applyBatch schemaV1 db = (.error (.sql (.tableExists "roster")), db) := by
  obtain ⟨ledger, hkept⟩ := h
  rw [Coordinator.applyBatch, hdocumented.executeBatch_existing hkept.tables.roster.isSome]
  rfl

theorem applyBatch_absent (hdocumented : Sqlite.Documented) :
    applyBatch schemaV1 Sqlite.absent = (.ok (), applied) := by
  rw [Coordinator.applyBatch, hdocumented.executeBatch_absent.1]
  rfl

/-- An opener that is refused, or that applies the schema after another one's commit,
    fails and has changed nothing. -/
theorem Opens.fails (hdocumented : Sqlite.Documented) (hserialisable : engine.Serialisable)
    (hat : Opens late (engine.transactions s) k (.exec op cont))
    (hserves : engine.Serves k op s resp s')
    (hbad : Refused resp ∨
      ¬ Refused resp ∧ (∃ batch, op = .executeBatch batch) ∧ Kept (engine.transactions s).committed)
    (hlate : late) :
    Client.Fails (.opening (cont resp)) ∧ Opens late (engine.transactions s') k (cont resp) ∧
      (engine.transactions s').committed = (engine.transactions s).committed ∧
      ∀ j, j ≠ k → Transactional.Undisturbed (engine.transactions s) (engine.transactions s') j := by
  rcases hbad with hrefused | ⟨hserved, ⟨batch, rfl⟩, hkept⟩
  · have hwithheld := hserialisable.refused hserves hrefused
    refine and_assoc.mp ⟨?_, hwithheld.committed, hwithheld.others⟩
    obtain ⟨e, rfl, -⟩ := hrefused
    generalize hp : Program.exec op cont = p at hat
    cases hat with
    | preparing ops hi =>
        cases ops with
        | nil =>
            cases hp
            exact ⟨⟨e, Or.inr rfl⟩, .refused e hlate (hwithheld.idle hi)⟩
        | cons setup ops =>
            cases hp
            exact ⟨⟨e, Or.inr rfl⟩, .refused e hlate (hwithheld.idle hi)⟩
    | beginning hi =>
        cases hp
        exact ⟨⟨e, Or.inr rfl⟩, .refused e hlate (hwithheld.idle hi)⟩
    | applying hb hr =>
        cases hp
        exact ⟨⟨e, Or.inl rfl⟩, .failing e hlate⟩
    | bumping hb hw hc =>
        cases hp
        exact ⟨⟨e, Or.inl rfl⟩, .failing e hlate⟩
    | committing hb hw hc =>
        cases hp
        exact ⟨⟨e, Or.inl rfl⟩, .failing e hlate⟩
    | failing e' hl =>
        cases hp
        refine ⟨⟨e', Or.inr rfl⟩, .refused e' hlate ?_⟩
        rw [hserialisable.rollback hserves]
        exact Transactional.idle_rollback _ k
    | refused e hl hi => cases hp
    | opened hi hk => cases hp
  · generalize hp : Program.exec (StoreOp.executeBatch batch) cont = p at hat
    cases hat with
    | applying hb hr =>
        cases hp
        have hwrite := hserialisable.executeBatch hserves hserved
        have hothers := fun j hj => Transactional.undisturbed_write (j := j) hb hj hwrite
        obtain ⟨hresp, hstate⟩ := Transactional.of_write_begun hb hwrite
        rw [Transactional.view_of_reads hr, hkept.applyBatch hdocumented] at hresp
        refine ⟨?_, ?_, by rw [hstate], hothers⟩
        · rw [hresp]
          exact ⟨_, Or.inl rfl⟩
        · rw [hresp]
          exact .failing _ hlate
    | preparing ops hi =>
        cases ops with
        | nil => cases hp
        | cons setup ops => cases hp
    | beginning hi => cases hp
    | bumping hb hw hc => cases hp
    | committing hb hw hc => cases hp
    | failing e hl => cases hp
    | refused e hl hi => cases hp
    | opened hi hk => cases hp

/-- The next statement of an opener that is served in time: where the opener stands then,
    and that it commits the whole schema or nothing. -/
theorem Opens.step (hdocumented : Sqlite.Documented) (hserialisable : engine.Serialisable)
    (hat : Opens late (engine.transactions s) k (.exec op cont))
    (hserves : engine.Serves k op s resp s') (hserved : ¬ Refused resp)
    (hknown : Known (engine.transactions s).committed)
    (htime : ¬ ((∃ batch, op = .executeBatch batch) ∧ Kept (engine.transactions s).committed)) :
    Opens late (engine.transactions s') k (cont resp) ∧
      ((engine.transactions s').committed = (engine.transactions s).committed ∨
        (engine.transactions s).committed = Sqlite.absent ∧
          (engine.transactions s').committed = migrated ∧
          ∃ copy, (engine.transactions s).writer = some (k, copy)) ∧
      ∀ j, j ≠ k → Transactional.Undisturbed (engine.transactions s) (engine.transactions s') j := by
  have hstill (h : engine.transactions s' = engine.transactions s) (j : ι) :
      Transactional.Undisturbed (engine.transactions s) (engine.transactions s') j := by
    rw [h]
    exact Transactional.Undisturbed.refl _ j
  generalize hp : Program.exec op cont = p at hat
  cases hat with
  | preparing ops hi =>
      cases ops with
      | nil =>
          cases hp
          obtain ⟨hresp, hstate⟩ := hserialisable.userVersion hserves hserved
          refine ⟨?_, Or.inl (congrArg Transactional.committed hstate), fun j _ => hstill hstate j⟩
          rw [hresp, hstate, Transactional.view_of_reads hi.2]
          rcases hknown with hc | hk
          · rw [hc, hdocumented.version_absent]
            exact .beginning hi
          · rw [hk.version]
            exact .opened hi hk
      | cons setup ops =>
          cases hp
          obtain ⟨hresp, hstate⟩ := hserialisable.setup hserves hserved
          refine ⟨?_, Or.inl (congrArg Transactional.committed hstate), fun j _ => hstill hstate j⟩
          rw [hresp, hstate]
          exact .preparing ops hi
  | beginning hi =>
      cases hp
      obtain ⟨hresp, hstate⟩ := hserialisable.begin hserves hserved
      rw [hresp, hstate]
      exact ⟨.applying (Function.update_self _ _ _) hi.2, Or.inl rfl,
        fun _ hj => Transactional.undisturbed_enter hj⟩
  | applying hb hr =>
      cases hp
      have hwrite := hserialisable.executeBatch hserves hserved
      have hothers := fun j hj => Transactional.undisturbed_write (j := j) hb hj hwrite
      obtain ⟨hresp, hstate⟩ := Transactional.of_write_begun hb hwrite
      have hc : (engine.transactions s).committed = Sqlite.absent :=
        hknown.resolve_right (fun hk => htime ⟨⟨_, rfl⟩, hk⟩)
      refine ⟨?_, Or.inl (by rw [hstate]), hothers⟩
      rw [Transactional.view_of_reads hr, hc, applyBatch_absent hdocumented] at hresp hstate
      rw [hresp, hstate]
      exact .bumping hb rfl rfl
  | bumping hb hw hc =>
      cases hp
      have hwrite := hserialisable.setUserVersion hserves hserved
      have hothers := fun j hj => Transactional.undisturbed_write (j := j) hb hj hwrite
      obtain ⟨hresp, hstate⟩ := Transactional.of_write_begun hb hwrite
      refine ⟨?_, Or.inl (by rw [hstate]), hothers⟩
      rw [Transactional.view_of_writer hw] at hresp hstate
      rw [hresp, hstate]
      exact .committing hb rfl hc
  | committing hb hw hc =>
      cases hp
      obtain ⟨hresp, hstate⟩ := hserialisable.commit hserves hserved
      have hcommitted : (engine.transactions s').committed = migrated := by
        rw [hstate, Transactional.commit_of_writer hw]
      refine ⟨?_, Or.inr ⟨hc, hcommitted, _, hw⟩, ?_⟩
      · rw [hresp]
        refine .opened ?_ ?_
        · rw [hstate]
          exact Transactional.idle_of_commit hw
        · rw [hcommitted]
          exact ⟨.empty, Ledger.kept_migrated hdocumented⟩
      · rw [hstate]
        exact fun _ hj => Transactional.undisturbed_commit hj
  | failing e hl =>
      cases hp
      have hstate := hserialisable.rollback hserves
      rw [hstate]
      exact ⟨.refused e hl (Transactional.idle_rollback _ k), Or.inl rfl,
        fun _ hj => Transactional.undisturbed_rollback hj⟩
  | refused e hl hi => cases hp
  | opened hi hk => cases hp

end Opening

/-! ## The statement of a call -/

section Calling

variable [Sqlite] {ι : Type} [DecidableEq ι] {engine : Engine ι} {s s' : engine.State} {k : ι}
  {ledger : Ledger} {call : Call} {op : StoreOp} {cont : op.Resp → StoreM call.Result} {resp : op.Resp}

/-- The statement of a call has its answer and its effect at once, or is refused and has
    none. -/
theorem Ledger.Serves.step (hserves : ledger.Serves (engine.transactions s).committed call (.exec op cont))
    (hserialisable : engine.Serialisable) (hidle : (engine.transactions s).Idle k)
    (hkept : ledger.KeptIn (engine.transactions s).committed) (hserved : engine.Serves k op s resp s') :
    ((∃ a, cont resp = .done a ∧ ledger.books.Answers call a ∧
        (ledger.after call).KeptIn (engine.transactions s').committed) ∨
      ∃ e, cont resp = .fail e ∧ e.Refusal ∧ ledger.KeptIn (engine.transactions s').committed) ∧
    (engine.transactions s').Idle k ∧
    ∀ j, j ≠ k → Transactional.Undisturbed (engine.transactions s) (engine.transactions s') j ∧
      ((engine.transactions s').committed = (engine.transactions s).committed ∨
        (engine.transactions s).Reads j) := by
  by_cases hrefused : Refused resp
  · have hwithheld := hserialisable.refused hserved hrefused
    refine ⟨Or.inr ?_, hwithheld.idle hidle, fun j hj => ⟨hwithheld.others j hj, Or.inl hwithheld.committed⟩⟩
    obtain ⟨e, rfl, he⟩ := hrefused
    refine ⟨e, ?_, he, by rwa [hwithheld.committed]⟩
    cases hserves with
    | insert hinsert hafter hok hanswers hfail => exact hfail e
    | select hrows hafter hok hanswers hfail => exact hfail e
  · cases hserves with
    | @insert name values db' cont a hinsert hafter hok hanswers hfail =>
        have hwrite := hserialisable.insertOrReplace hserved hrefused
        have hfree := Transactional.free_of_write hwrite
        have hnobody := Transactional.writer_of_free hfree hidle.2
        have hreplace : replaceRow name values ((engine.transactions s).view k) = (.ok (), db') := by
          rw [replaceRow, Transactional.view_of_reads hidle.2, hinsert]
        rw [Transactional.write_alone hfree hidle.1 hreplace] at hwrite
        obtain ⟨hresp, hstate⟩ := Prod.ext_iff.mp (Option.some.inj hwrite)
        dsimp only at hresp hstate
        rw [← hresp, ← hstate]
        refine ⟨Or.inl ⟨a, hok, hanswers, hafter⟩, hidle, fun j _ => ⟨⟨rfl, fun _ => Iff.rfl⟩, Or.inr ?_⟩⟩
        intro copy hcopy
        rw [hnobody] at hcopy
        cases hcopy
    | @select query rows cont a hrows hafter hok hanswers hfail =>
        obtain ⟨hresp, hstate⟩ := hserialisable.select hserved hrefused
        rw [Transactional.view_of_reads hidle.2, hrows] at hresp
        rw [hresp, hstate]
        refine ⟨Or.inl ⟨a, hok, hanswers, ?_⟩, hidle,
          fun j _ => ⟨Transactional.Undisturbed.refl _ j, Or.inl rfl⟩⟩
        rwa [hafter]

end Calling

/-! ## Runs -/

namespace Desk

variable [Sqlite] {ι : Type} {engine : Engine ι} {desk desk' : Desk engine} {late : Prop}

/-- Every client stands somewhere, what is noted is right, and the database has the books
    of the log. -/
structure Inv [DecidableEq ι] (late : Prop) (desk : Desk engine) : Prop where
  stands (k : ι) : Stands late (engine.transactions desk.state) k (desk.clients k)
  noted (k : ι) : Noted desk.log k (desk.clients k)
  right : AllRight desk.log
  books : (desk.committed = Sqlite.absent ∧ desk.log = []) ∨
    ∃ ledger : Ledger, ledger.KeptIn desk.committed ∧ ledger.books = Books.of desk.log

variable [DecidableEq ι]

theorem Inv.known (hinv : desk.Inv late) : Known desk.committed := by
  rcases hinv.books with ⟨hc, -⟩ | ⟨ledger, hkept, -⟩
  · exact Or.inl hc
  · exact Or.inr ⟨ledger, hkept⟩

/-- A database with a table has the books of the log. -/
theorem Inv.books_of (hinv : desk.Inv late) (hdocumented : Sqlite.Documented) (hkept : Kept desk.committed) :
    ∃ ledger : Ledger, ledger.KeptIn desk.committed ∧ ledger.books = Books.of desk.log := by
  refine hinv.books.resolve_left (fun ⟨hc, _⟩ => ?_)
  have hversion := hkept.version
  rw [hc, hdocumented.version_absent] at hversion
  exact absurd hversion (by decide)

theorem inv_start (late : Prop) (hserialisable : engine.Serialisable) : (start : Desk engine).Inv late where
  stands k := by
    refine .closed ?_
    rw [start, hserialisable.fresh]
    refine ⟨rfl, fun copy hcopy => ?_⟩
    cases hcopy
  noted k := trivial
  right := by
    intro past entry later h
    exact absurd h (by simp [start])
  books := by
    refine Or.inl ⟨?_, rfl⟩
    rw [committed, start, hserialisable.fresh]

/-- A client takes a step that neither the database nor the log notices. -/
theorem Inv.moved (hinv : desk.Inv late) {k : ι} {client : Client}
    (hstands : Stands late (engine.transactions desk.state) k client) (hnoted : Noted desk.log k client) :
    Inv late { desk with clients := Function.update desk.clients k client } where
  stands := (Function.forall_update_iff _ (fun j => Stands late (engine.transactions desk.state) j)).mpr
    ⟨hstands, fun j _ => hinv.stands j⟩
  noted := (Function.forall_update_iff _ (fun j => Noted desk.log j)).mpr
    ⟨hnoted, fun j _ => hinv.noted j⟩
  right := hinv.right
  books := hinv.books

/-- A client takes a step that the log notes, after a step of the engine. -/
theorem Inv.noting (hinv : desk.Inv late) {k : ι} {client : Client} {s : engine.State} {entry : Entry ι}
    (hentry : entry.client = k) (hright : entry.Right desk.log)
    (hstands : Stands late (engine.transactions s) k client)
    (hnoted : Noted (desk.log ++ [entry]) k client)
    (hothers : ∀ j, j ≠ k →
      Transactional.Undisturbed (engine.transactions desk.state) (engine.transactions s) j ∧
      ((engine.transactions s).committed = (engine.transactions desk.state).committed ∨
        (engine.transactions desk.state).Reads j ∧ Kept (engine.transactions s).committed))
    (hbooks : ∃ ledger : Ledger, ledger.KeptIn (engine.transactions s).committed ∧
      ledger.books = entry.enter (Books.of desk.log)) :
    Inv late ⟨s, Function.update desk.clients k client, desk.log ++ [entry]⟩ where
  stands := (Function.forall_update_iff _ (fun j => Stands late (engine.transactions s) j)).mpr
    ⟨hstands, fun j hj => (hinv.stands j).frame (hothers j hj).1 (hothers j hj).2⟩
  noted := (Function.forall_update_iff _ (fun j => Noted (desk.log ++ [entry]) j)).mpr
    ⟨hnoted, fun j hj => (hinv.noted j).concat (by rw [hentry]; exact Ne.symm hj)⟩
  right := hinv.right.concat hright
  books := by
    obtain ⟨ledger, hkept, hledger⟩ := hbooks
    exact Or.inr ⟨ledger, hkept, hledger.trans (Books.of_concat desk.log entry).symm⟩

/-- An opener takes a step of the engine, and commits nothing or the whole schema. -/
theorem Inv.opening (hinv : desk.Inv late) (hdocumented : Sqlite.Documented) {k : ι} {p : StoreM Unit}
    {s : engine.State} (hopens : Opens late (engine.transactions s) k p)
    (hcommitted : (engine.transactions s).committed = (engine.transactions desk.state).committed ∨
      (engine.transactions desk.state).committed = Sqlite.absent ∧
        (engine.transactions s).committed = migrated ∧
        ∃ copy, (engine.transactions desk.state).writer = some (k, copy))
    (hothers : ∀ j, j ≠ k →
      Transactional.Undisturbed (engine.transactions desk.state) (engine.transactions s) j) :
    Inv late ⟨s, Function.update desk.clients k (.opening p), desk.log⟩ where
  stands := by
    refine (Function.forall_update_iff _ (fun j => Stands late (engine.transactions s) j)).mpr
      ⟨.opening p hopens, fun j hj => (hinv.stands j).frame (hothers j hj) ?_⟩
    rcases hcommitted with hsame | ⟨-, hmigrated, copy, hwriter⟩
    · exact Or.inl hsame
    · refine Or.inr ⟨fun copy' hcopy' => ?_, ?_⟩
      · rw [hwriter] at hcopy'
        cases hcopy'
        exact hj rfl
      · rw [hmigrated]
        exact ⟨.empty, Ledger.kept_migrated hdocumented⟩
  noted := (Function.forall_update_iff _ (fun j => Noted desk.log j)).mpr
    ⟨trivial, fun j _ => hinv.noted j⟩
  right := hinv.right
  books := by
    rcases hcommitted with hsame | ⟨habsent, hmigrated, -⟩
    · rw [committed, hsame]
      exact hinv.books
    · -- nobody has called where the database was absent
      have hlog : desk.log = [] := by
        rcases hinv.books with ⟨-, hlog⟩ | ⟨ledger, hkept, -⟩
        · exact hlog
        · have hversion := hkept.version
          rw [committed, habsent, hdocumented.version_absent] at hversion
          exact absurd hversion (by decide)
      rw [hlog]
      refine Or.inr ⟨.empty, ?_, rfl⟩
      rw [committed, hmigrated]
      exact Ledger.kept_migrated hdocumented

/-- A call is about to make its statement, or has made it. -/
theorem Inv.noted_of_calling (hinv : desk.Inv late) {k : ι} {call : Call} {p : StoreM call.Result}
    (hclient : desk.clients k = .calling call p) :
    p = call.program ∧ lastOf k desk.log = some (.invoked k call) ∨
      ∃ result, p = .ofExcept result ∧ lastOf k desk.log = some (.performed k call result) := by
  have hnoted := hinv.noted k
  rwa [hclient] at hnoted

omit [DecidableEq ι] in
theorem Late.of_kept {op : StoreOp} (hop : ∃ batch, op = .executeBatch batch) (hkept : Kept desk.committed) :
    desk.Late op := by
  refine ⟨hop, ?_⟩
  rw [hkept.version]
  exact Int.le_refl 1

/-- No step takes the desk out of its invariant. An open fails only where a step is not
    smooth. -/
theorem Inv.step (hinv : desk.Inv late) (hdocumented : Sqlite.Documented)
    (hserialisable : engine.Serialisable) {move : Move ι} (hmeets : desk.Smooth move ∨ late)
    (hstep : desk.Step move desk') : desk'.Inv late := by
  cases hstep with
  | opens k hclosed =>
      refine hinv.moved ?_ trivial
      have hk := hinv.stands k
      rcases hclosed with hclosed | ⟨e, hfailed⟩
      · rw [hclosed] at hk
        cases hk with
        | closed hi => exact .opening _ (openStore_eq ▸ .preparing _ hi)
      · rw [hfailed] at hk
        cases hk with
        | failed e hl hi => exact .opening _ (openStore_eq ▸ .preparing _ hi)
  | calls k call hready =>
      have hk := hinv.stands k
      rw [hready] at hk
      obtain ⟨hi, hkept⟩ := hk.idle_of_ready
      refine hinv.noting rfl trivial (.calling call hi hkept) (Or.inl ⟨rfl, lastOf_concat_self _ rfl⟩) ?_ ?_
      · exact fun j _ => ⟨Transactional.Undisturbed.refl _ j, Or.inl rfl⟩
      · exact hinv.books_of hdocumented hkept
  | opening k op cont resp s hclient hserves =>
      have hk := hinv.stands k
      rw [hclient] at hk
      by_cases hbad : Refused resp ∨
        ¬ Refused resp ∧ (∃ batch, op = .executeBatch batch) ∧ Kept (engine.transactions desk.state).committed
      · have hlate : late := by
          rcases hmeets with hsmooth | hlate
          · obtain ⟨hserved, htime⟩ := hsmooth ⟨_, hclient⟩
            rcases hbad with hrefused | ⟨-, hop, hkept⟩
            · exact absurd hrefused hserved
            · exact absurd (Late.of_kept hop hkept) htime
          · exact hlate
        obtain ⟨-, hopens, hsame, hothers⟩ := hk.opens.fails hdocumented hserialisable hserves hbad hlate
        exact hinv.opening hdocumented hopens (Or.inl hsame) hothers
      · rw [not_or, not_and] at hbad
        obtain ⟨hopens, hcommitted, hothers⟩ := hk.opens.step hdocumented hserialisable hserves hbad.1
          hinv.known (hbad.2 hbad.1)
        exact hinv.opening hdocumented hopens hcommitted hothers
  | calling k call op cont resp s hclient hserves =>
      have hk := hinv.stands k
      rw [hclient] at hk
      obtain ⟨hi, hkept⟩ := hk.idle_of_calling
      obtain ⟨ledger, hledger, hbooks⟩ := hinv.books_of hdocumented hkept
      rcases hinv.noted_of_calling hclient with ⟨hp, hlast⟩ | ⟨result, hp, -⟩
      · have hone := hledger.serves hdocumented call
        rw [← hp] at hone
        obtain ⟨hresult, hidle, hothers⟩ := hone.step hserialisable hi hledger hserves
        rcases hresult with ⟨a, hdone, hanswers, hafter⟩ | ⟨e, hfail, hrefusal, hafter⟩
        · rw [hdone]
          refine hinv.noting rfl ⟨hlast, Or.inl ⟨a, rfl, hbooks ▸ hanswers⟩⟩
            (.answered call (.ok a) hidle ⟨_, hafter⟩) (Or.inr ⟨.ok a, rfl, lastOf_concat_self _ rfl⟩) ?_ ?_
          · exact fun j hj => ⟨(hothers j hj).1, (hothers j hj).2.imp id (fun h => ⟨h, _, hafter⟩)⟩
          · exact ⟨_, hafter, (ledger.books_after call).trans (congrArg (Books.after · call) hbooks)⟩
        · rw [hfail]
          refine hinv.noting rfl ⟨hlast, Or.inr ⟨e, rfl, hrefusal⟩⟩
            (.answered call (.error e) hidle ⟨_, hafter⟩) (Or.inr ⟨.error e, rfl, lastOf_concat_self _ rfl⟩) ?_ ?_
          · exact fun j hj => ⟨(hothers j hj).1, (hothers j hj).2.imp id (fun h => ⟨h, _, hafter⟩)⟩
          · exact ⟨_, hafter, hbooks⟩
      · cases result with
        | ok a => cases hp
        | error e => cases hp
  | opened k hclient =>
      have hk := hinv.stands k
      rw [hclient] at hk
      obtain ⟨hi, hkept⟩ := hk.opens.idle_of_done
      exact hinv.moved (.ready hi hkept) trivial
  | failed k e hclient =>
      have hk := hinv.stands k
      rw [hclient] at hk
      obtain ⟨hlate, hi⟩ := hk.opens.idle_of_fail
      exact hinv.moved (.failed e hlate hi) trivial
  | returned k call result hclient =>
      have hk := hinv.stands k
      rw [hclient] at hk
      obtain ⟨hi, hkept⟩ := hk.idle_of_calling
      obtain ⟨ledger, hledger, hbooks⟩ := hinv.books_of hdocumented hkept
      have hlast : lastOf k desk.log = some (.performed k call result) := by
        rcases hinv.noted_of_calling hclient with ⟨hp, -⟩ | ⟨result', hp, hlast⟩
        · have hone := hledger.serves hdocumented call
          rw [← hp] at hone
          cases result <;> cases hone
        · cases result <;> cases result' <;> cases hp <;> exact hlast
      refine hinv.noting rfl hlast (.ready hi hkept) trivial ?_ ?_
      · exact fun j _ => ⟨Transactional.Undisturbed.refl _ j, Or.inl rfl⟩
      · exact ⟨ledger, hledger, hbooks⟩
  | crashes k s hends =>
      have hstate := hserialisable.ends hends
      refine ⟨?_, ?_, hinv.right, ?_⟩
      · refine (Function.forall_update_iff _ (fun j => Stands late (engine.transactions s) j)).mpr ⟨?_, ?_⟩
        · rw [hstate]
          exact .closed (Transactional.idle_rollback _ k)
        · rw [hstate]
          exact fun j hj => (hinv.stands j).frame (Transactional.undisturbed_rollback hj) (Or.inl rfl)
      · exact (Function.forall_update_iff _ (fun j => Noted desk.log j)).mpr
          ⟨trivial, fun j _ => hinv.noted j⟩
      · rw [committed, hstate]
        exact hinv.books

theorem Inv.runs (hinv : desk.Inv late) (hdocumented : Sqlite.Documented)
    (hserialisable : engine.Serialisable) {Meets : Desk engine → Move ι → Prop}
    (hmeets : ∀ desk move, Meets desk move → desk.Smooth move ∨ late) (hruns : Runs Meets desk desk') :
    desk'.Inv late := by
  induction hruns with
  | refl => exact hinv
  | tail _ hlast ih =>
      obtain ⟨move, hmove, hstep⟩ := hlast
      exact ih.step hdocumented hserialisable (hmeets _ move hmove) hstep

end Desk

end Coordinator
