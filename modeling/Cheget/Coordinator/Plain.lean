-- SUMMARY: A database as a version and a map of tables, and an engine that serves its connections one statement at a time.
import Cheget.Coordinator.Standing
import Mathlib.Data.List.Sort

/-!
# A plain engine

The plain engine does what SQLite's documentation says, and no more: a write that another
connection's lock stands in the way of is answered with `SQLITE_BUSY` at once.
-/

namespace Coordinator

namespace Plain

/-! ## The database -/

structure PlainDatabase where
  version : Int
  tables : String → Option Relation

namespace PlainDatabase

def put (db : PlainDatabase) (schema : TableSchema) (records : List Record) : PlainDatabase :=
  { db with tables := Function.update db.tables schema.name (some ⟨schema, records⟩) }

def execute : Statement → PlainDatabase → Except SqlError PlainDatabase
  | .createTable schema, db =>
      match db.tables schema.name with
      | some _ => .error (.tableExists schema.name)
      | none => .ok (db.put schema [])
  | .insertInto table values, db =>
      match db.tables table with
      | none => .error (.noSuchTable table)
      | some found =>
          let record := found.schema.integers values
          if found.schema.admits record && !found.records.any (found.schema.conflict record) then
            .ok (db.put found.schema (found.records ++ [record]))
          else .error (.constraint table)

def insertOrReplace (table : String) (values : List (String × Option Value)) (db : PlainDatabase) :
    Except SqlError PlainDatabase :=
  match db.tables table with
  | none => .error (.noSuchTable table)
  | some found =>
      let record := found.schema.record values
      if found.schema.admits record then
        .ok (db.put found.schema
          (found.records.filter (fun other => !found.schema.conflict record other) ++ [record]))
      else .error (.constraint table)

def select (query : Select) (db : PlainDatabase) : Except SqlError (List (List (Option Value))) :=
  match db.tables query.relation with
  | none => .error (.noSuchTable query.relation)
  | some found =>
      .ok (((found.records.filter query.wants).insertionSort
        (fun a b => query.rank a ≤ query.rank b)).map query.row)

end PlainDatabase

instance : Sqlite where
  Database := PlainDatabase
  absent := ⟨0, fun _ => none⟩
  userVersion := PlainDatabase.version
  relation := PlainDatabase.tables
  execute := PlainDatabase.execute
  setUserVersion v db := { db with version := v }
  insertOrReplace := PlainDatabase.insertOrReplace
  select := PlainDatabase.select

theorem changed_put {db : PlainDatabase} {schema : TableSchema} {found records : List Record}
    (hperm : found.Perm records) : Changed db (db.put schema found) schema records where
  has := ⟨found, Function.update_self _ _ _, hperm⟩
  others _ hname := Function.update_of_ne hname _ _
  version := rfl

theorem documented : Sqlite.Documented where
  version_absent := rfl
  relation_absent _ := rfl
  createTable schema db hnone := by
    change db.tables schema.name = none at hnone
    refine ⟨db.put schema [], ?_, changed_put (List.Perm.refl [])⟩
    change PlainDatabase.execute _ _ = _
    rw [PlainDatabase.execute, hnone]
  createTable_existing schema db hsome := by
    obtain ⟨found, hfound⟩ := Option.isSome_iff_exists.mp hsome
    change db.tables schema.name = some found at hfound
    change PlainDatabase.execute _ _ = _
    rw [PlainDatabase.execute, hfound]
  insertInto schema records values db hhas hadmits hfree := by
    obtain ⟨found, hfound, hperm⟩ := hhas
    change db.tables schema.name = some ⟨schema, found⟩ at hfound
    refine ⟨db.put schema (found ++ [schema.integers values]), ?_,
      changed_put (hperm.append_right [schema.integers values])⟩
    have hnone : found.any (schema.conflict (schema.integers values)) = false :=
      List.any_eq_false.mpr (fun other hother => by simp [hfree other (hperm.mem_iff.mp hother)])
    change PlainDatabase.execute _ _ = _
    rw [PlainDatabase.execute, hfound]
    simp [hadmits, hnone]
  setUserVersion v db := ⟨rfl, rfl⟩
  insertOrReplace schema records values db hhas hadmits := by
    obtain ⟨found, hfound, hperm⟩ := hhas
    change db.tables schema.name = some ⟨schema, found⟩ at hfound
    refine ⟨_, ?_, changed_put ((hperm.filter _).append_right [schema.record values])⟩
    change PlainDatabase.insertOrReplace _ _ _ = _
    rw [PlainDatabase.insertOrReplace, hfound]
    exact if_pos hadmits
  select query schema records db hname hhas := by
    obtain ⟨found, hfound, hperm⟩ := hhas
    change db.tables schema.name = some ⟨schema, found⟩ at hfound
    refine ⟨_, ?_, (List.perm_insertionSort (fun a b => query.rank a ≤ query.rank b) _).trans
      (hperm.filter query.wants), List.pairwise_insertionSort _ _⟩
    change PlainDatabase.select _ _ = _
    rw [PlainDatabase.select, ← hname, hfound]

/-! ## The engine -/

section Engine

variable {ι : Type} [DecidableEq ι]

/-- What a call does where no lock stands in its way. -/
def perform (k : ι) : (op : StoreOp) → Transactional ι Database →
    Option (op.Resp × Transactional ι Database)
  | .setup _, s => some (.ok (), s)
  | .userVersion, s => some (.ok (userVersion (s.view k)), s)
  | .begin, s => some (.ok (), s.enter k)
  | .executeBatch batch, s => s.write (applyBatch batch) k
  | .setUserVersion v, s => s.write (bumpVersion v) k
  | .commit, s => some (.ok (), s.commit k)
  | .rollback, s => some (.ok (), s.rollback k)
  | .insertOrReplace table values, s => s.write (replaceRow table values) k
  | .select query, s => some ((Sqlite.select query (s.view k)).mapError .sql, s)

def serve (k : ι) (op : StoreOp) (s : Transactional ι Database) : op.Resp × Transactional ι Database :=
  match perform k op s with
  | some served => served
  | none => ((.error .busy : Except StoreError op.Answer), s)

/-- What is carried out is not refused. -/
theorem not_refused_of_perform {k : ι} {op : StoreOp} {s s' : Transactional ι Database} {resp : op.Resp}
    (h : perform k op s = some (resp, s')) : ¬ Refused resp := by
  have hsql {α : Type} (e : SqlError) : ¬ Refused (.error (.sql e) : Except StoreError α) :=
    fun hrefused => (refused_error _).mp hrefused
  have hwrite (f : Database → Except StoreError Unit × Database) (result : Except StoreError Unit)
      (hf : ∀ db, ¬ Refused (f db).1) (hw : s.write f k = some (result, s')) : ¬ Refused result := by
    unfold Transactional.write at hw
    split at hw
    · cases hw
    · cases hw
      exact hf _
  cases op with
  | setup op =>
      cases h
      exact not_refused_ok ()
  | userVersion =>
      cases h
      exact not_refused_ok _
  | begin =>
      cases h
      exact not_refused_ok ()
  | executeBatch batch =>
      refine hwrite (applyBatch batch) resp (fun db => ?_) h
      rw [applyBatch]
      cases (executeBatch batch db).1 with
      | ok a => exact not_refused_ok a
      | error e => exact hsql e
  | setUserVersion v => exact hwrite (bumpVersion v) resp (fun db => not_refused_ok ()) h
  | commit =>
      cases h
      exact not_refused_ok ()
  | rollback =>
      cases h
      exact not_refused_ok ()
  | insertOrReplace table values =>
      refine hwrite (replaceRow table values) resp (fun db => ?_) h
      rw [replaceRow]
      cases Sqlite.insertOrReplace table values db with
      | ok copy => exact not_refused_ok ()
      | error e => exact hsql e
  | select query =>
      cases h
      cases Sqlite.select query (s.view k) with
      | ok rows => exact not_refused_ok rows
      | error e => exact hsql e

theorem serve_of_perform {k : ι} {op : StoreOp} {s : Transactional ι Database}
    {served : op.Resp × Transactional ι Database} (h : perform k op s = some served) :
    serve k op s = served := by
  rw [serve, h]

theorem perform_of_serve {k : ι} {op : StoreOp} {s s' : Transactional ι Database} {resp : op.Resp}
    (h : serve k op s = (resp, s')) (hserved : ¬ Refused resp) : perform k op s = some (resp, s') := by
  unfold serve at h
  split at h
  · next served hperform => rw [hperform, h]
  · cases h
    exact absurd ⟨.busy, rfl, trivial⟩ hserved

/-- What is not blocked is carried out. -/
theorem perform_of_free {k : ι} {s : Transactional ι Database} (op : StoreOp) (hfree : s.blocked k = false) :
    ∃ served, perform k op s = some served := by
  have hwrite (f : Database → Except StoreError Unit × Database) : ∃ served, s.write f k = some served :=
    ⟨_, if_neg (by simp [hfree])⟩
  cases op with
  | setup op => exact ⟨_, rfl⟩
  | userVersion => exact ⟨_, rfl⟩
  | begin => exact ⟨_, rfl⟩
  | executeBatch batch => exact hwrite (applyBatch batch)
  | setUserVersion v => exact hwrite (bumpVersion v)
  | commit => exact ⟨_, rfl⟩
  | rollback => exact ⟨_, rfl⟩
  | insertOrReplace table values => exact hwrite (replaceRow table values)
  | select query => exact ⟨_, rfl⟩

variable (ι) in
def engine : Engine ι where
  State := Transactional ι Database
  fresh := ⟨Sqlite.absent, fun _ => false, none⟩
  Serves k op s resp s' := serve k op s = (resp, s')
  Ends k s s' := s' = s.rollback k
  transactions s := s

theorem serialisable : (engine ι).Serialisable where
  fresh := rfl
  setup hserves hserved := by
    cases perform_of_serve hserves hserved
    exact ⟨rfl, rfl⟩
  userVersion hserves hserved := by
    cases perform_of_serve hserves hserved
    exact ⟨rfl, rfl⟩
  begin hserves hserved := by
    cases perform_of_serve hserves hserved
    exact ⟨rfl, rfl⟩
  executeBatch hserves hserved := perform_of_serve hserves hserved
  setUserVersion hserves hserved := perform_of_serve hserves hserved
  commit hserves hserved := by
    cases perform_of_serve hserves hserved
    exact ⟨rfl, rfl⟩
  insertOrReplace hserves hserved := perform_of_serve hserves hserved
  select hserves hserved := by
    cases perform_of_serve hserves hserved
    exact ⟨rfl, rfl⟩
  rollback hserves := by
    cases hserves
    rfl
  refused {k op s resp s'} hserves hrefused := by
    change serve k op s = (resp, s') at hserves
    unfold serve at hserves
    split at hserves
    · next served hperform =>
        rw [hserves] at hperform
        exact absurd hrefused (not_refused_of_perform hperform)
    · cases hserves
      exact Transactional.Withheld.refl _ k
  ends hends := hends
  free k op s hfree := by
    obtain ⟨⟨resp, s'⟩, hperform⟩ := perform_of_free op hfree
    exact ⟨resp, s', serve_of_perform hperform, not_refused_of_perform hperform⟩

end Engine

/-! ## Runs -/

section Runs

variable {ι : Type} [DecidableEq ι]

inductive Turn (ι : Type) where
  | opens (k : ι)
  | calls (k : ι) (call : Call)
  | goes (k : ι)
  | crashes (k : ι)

/-- The step that a client takes in its turn, if it can: a program that has ended returns. -/
def next (desk : Desk (engine ι)) : Turn ι → Option (Move ι × Desk (engine ι))
  | .opens k =>
      match desk.clients k with
      | .closed | .failed _ =>
          some (.opens k, { desk with clients := Function.update desk.clients k (.opening openStore) })
      | _ => none
  | .calls k call =>
      match desk.clients k with
      | .ready => some (.calls k call,
          ⟨desk.state, Function.update desk.clients k (.calling call call.program),
            desk.log ++ [.invoked k call]⟩)
      | _ => none
  | .goes k =>
      match desk.clients k with
      | .opening (.exec op cont) =>
          let served := serve k op desk.state
          some (.served k op served.1,
            ⟨served.2, Function.update desk.clients k (.opening (cont served.1)), desk.log⟩)
      | .opening (.done ()) =>
          some (.returns k, { desk with clients := Function.update desk.clients k .ready })
      | .opening (.fail e) =>
          some (.returns k, { desk with clients := Function.update desk.clients k (.failed e) })
      | .calling call (.exec op cont) =>
          let served := serve k op desk.state
          some (.served k op served.1,
            ⟨served.2, Function.update desk.clients k (.calling call (cont served.1)),
              desk.log ++ performed k call (cont served.1)⟩)
      | .calling call (.done a) => some (.returns k,
          ⟨desk.state, Function.update desk.clients k .ready, desk.log ++ [.returned k call (.ok a)]⟩)
      | .calling call (.fail e) => some (.returns k,
          ⟨desk.state, Function.update desk.clients k .ready, desk.log ++ [.returned k call (.error e)]⟩)
      | _ => none
  | .crashes k =>
      some (.crashes k, ⟨desk.state.rollback k, Function.update desk.clients k .closed, desk.log⟩)

theorem step_of_next {desk desk' : Desk (engine ι)} {t : Turn ι} {move : Move ι}
    (h : next desk t = some (move, desk')) : desk.Step move desk' := by
  unfold next at h
  split at h
  · next k =>
      split at h
      · next hclient =>
          cases h
          exact .opens k (Or.inl hclient)
      · next e hclient =>
          cases h
          exact .opens k (Or.inr ⟨e, hclient⟩)
      · cases h
  · next k call =>
      split at h
      · next hclient =>
          cases h
          exact .calls k call hclient
      · cases h
  · next k =>
      split at h
      · next op cont hclient =>
          cases h
          exact .opening k op cont _ _ hclient rfl
      · next hclient =>
          cases h
          exact .opened k hclient
      · next e hclient =>
          cases h
          exact .failed k e hclient
      · next call op cont hclient =>
          cases h
          exact .calling k call op cont _ _ hclient rfl
      · next call a hclient =>
          cases h
          exact .returned k call (.ok a) hclient
      · next call e hclient =>
          cases h
          exact .returned k call (.error e) hclient
      · cases h
  · next k =>
      cases h
      exact .crashes k _ rfl

/-- A client that can take no step is passed over. -/
def after (desk : Desk (engine ι)) : List (Turn ι) → Desk (engine ι)
  | [] => desk
  | t :: schedule =>
      match next desk t with
      | some (_, desk) => after desk schedule
      | none => after desk schedule

variable (Meets : Desk (engine ι) → Move ι → Prop) [∀ desk move, Decidable (Meets desk move)]

/-- Every step of a schedule meets a condition. -/
def along (desk : Desk (engine ι)) : List (Turn ι) → Bool
  | [] => true
  | t :: schedule =>
      match next desk t with
      | some (move, desk') => decide (Meets desk move) && along desk' schedule
      | none => along desk schedule

theorem runs_along (desk : Desk (engine ι)) (schedule : List (Turn ι))
    (h : along Meets desk schedule = true) : Desk.Runs Meets desk (after desk schedule) := by
  induction schedule generalizing desk with
  | nil => exact .refl
  | cons t schedule ih =>
      unfold along at h
      unfold after
      split at h
      · next move desk' hnext =>
          obtain ⟨hmeets, hrest⟩ := Bool.and_eq_true_iff.mp h
          exact .head ⟨move, of_decide_eq_true hmeets, step_of_next hnext⟩ (ih desk' hrest)
      · exact ih desk h

end Runs

end Plain

end Coordinator
