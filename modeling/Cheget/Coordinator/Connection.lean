-- SUMMARY: The calls of the coordinator's store on its connection, `open` as a program of them, and what is relied on of the engine.
import Cheget.Base.FileSystem
import Cheget.Base.Transaction
import Cheget.Coordinator.Sqlite

/-!
# Connections

The engine that serves the connections of one database is a parameter too. It may
refuse any call, as it does when another connection holds a lock and the busy
timeout runs out, or when it cannot wait for the lock at all.
-/

namespace Coordinator

/-! ## Errors -/

/-- What `StoreError::Sqlite` wraps. -/
inductive RusqliteError where
  | sql (e : SqlError)
  /-- The engine refuses, with one of its codes. -/
  | sqliteFailure (code : Nat)
  | invalidColumnIndex (i : Nat)
  | invalidColumnType (i : Nat)
  | queryReturnedNoRows
  deriving DecidableEq

inductive StoreError where
  | io (e : IoError)
  | sqlite (e : RusqliteError)
  deriving DecidableEq

namespace StoreError

def sql (e : SqlError) : StoreError := .sqlite (.sql e)

/-- `SQLITE_BUSY`, or "database is locked". -/
def busy : StoreError := .sqlite (.sqliteFailure 5)

/-- The error of a call that was not carried out. -/
def Refusal : StoreError → Prop
  | .io _ => True
  | .sqlite (.sqliteFailure _) => True
  | .sqlite _ => False

instance : DecidablePred Refusal
  | .io _ => isTrue trivial
  | .sqlite (.sqliteFailure _) => isTrue trivial
  | .sqlite (.sql _) => isFalse id
  | .sqlite (.invalidColumnIndex _) => isFalse id
  | .sqlite (.invalidColumnType _) => isFalse id
  | .sqlite .queryReturnedNoRows => isFalse id

end StoreError

section Refused

variable {α : Type}

def Refused (result : Except StoreError α) : Prop := ∃ e, result = .error e ∧ e.Refusal

theorem not_refused_ok (a : α) : ¬ Refused (.ok a : Except StoreError α) := by
  rintro ⟨e, he, -⟩
  cases he

theorem refused_error (e : StoreError) : Refused (.error e : Except StoreError α) ↔ e.Refusal := by
  constructor
  · rintro ⟨e', he, hrefusal⟩
    cases he
    exact hrefusal
  · exact fun h => ⟨e, rfl, h⟩

instance (result : Except StoreError α) : Decidable (Refused result) :=
  match result with
  | .ok a => isFalse (not_refused_ok a)
  | .error e => decidable_of_iff e.Refusal (refused_error e).symm

end Refused

/-! ## Calls -/

/-- What `open` does before it migrates. -/
inductive SetupOp where
  | createDirSecure
  | connect
  | pragmaUpdate (name value : String)
  | busyTimeout (millis : Nat)
  deriving DecidableEq

inductive StoreOp where
  | setup (op : SetupOp)
  | userVersion
  | begin
  | executeBatch (batch : List Statement)
  | setUserVersion (v : Int)
  | commit
  | rollback
  | insertOrReplace (relation : String) (values : List (String × Option Value))
  | select (query : Select)

def StoreOp.Answer : StoreOp → Type
  | .userVersion => Int
  | .select _ => List (List (Option Value))
  | _ => Unit

abbrev StoreOp.Resp (op : StoreOp) : Type := Except StoreError op.Answer

abbrev StoreM := Program StoreOp StoreOp.Resp StoreError

/-- One call, followed by `?`. -/
def onConnection (op : StoreOp) : StoreM op.Answer := do
  let result ← Program.perform op
  Program.ofExcept result

/-! ## Opening -/

/-- What the transaction does. -/
def applySchema : StoreM Unit := do
  let _ ← onConnection (.executeBatch schemaV1)
  let _ ← onConnection (.setUserVersion schemaVersion)
  onConnection .commit

/-- A transaction that is dropped before its commit rolls back. -/
def settle : Except StoreError Unit → StoreM Unit
  | .ok () => pure ()
  | .error e => do
      let _ ← Program.perform .rollback
      .fail e

def migrate : StoreM Unit := do
  let v : Int ← onConnection .userVersion
  if v < 1 then do
    let _ ← onConnection .begin
    let applied ← applySchema.attempt
    settle applied
  else pure ()

/-- `CoordinatorStore::open` -/
def openStore : StoreM Unit := do
  let _ ← onConnection (.setup .createDirSecure)
  let _ ← onConnection (.setup .connect)
  let _ ← onConnection (.setup (.pragmaUpdate "journal_mode" "WAL"))
  let _ ← onConnection (.setup (.pragmaUpdate "synchronous" "NORMAL"))
  let _ ← onConnection (.setup (.pragmaUpdate "foreign_keys" "ON"))
  let _ ← onConnection (.setup (.busyTimeout 5000))
  migrate

/-- What is left of `open` before it migrates. -/
def prepare : List SetupOp → StoreM Unit
  | [] => migrate
  | op :: ops => onConnection (.setup op) >>= fun _ => prepare ops

theorem openStore_eq : openStore = prepare [.createDirSecure, .connect, .pragmaUpdate "journal_mode" "WAL",
    .pragmaUpdate "synchronous" "NORMAL", .pragmaUpdate "foreign_keys" "ON", .busyTimeout 5000] := rfl

/-! ## The engine -/

section Engine

variable [Sqlite]

/-- The statements that write, as what a transaction does to its copy. -/
def applyBatch (batch : List Statement) (db : Database) : Except StoreError Unit × Database :=
  ((executeBatch batch db).1.mapError .sql, (executeBatch batch db).2)

def bumpVersion (v : Int) (db : Database) : Except StoreError Unit × Database :=
  (.ok (), Sqlite.setUserVersion v db)

def replaceRow (relation : String) (values : List (String × Option Value)) (db : Database) :
    Except StoreError Unit × Database :=
  match Sqlite.insertOrReplace relation values db with
  | .ok copy => (.ok (), copy)
  | .error e => (.error (.sql e), db)

/-- The engine, as the connections of one database meet it. -/
structure Engine (ι : Type) where
  State : Type
  /-- The file is absent, and nobody is connected. -/
  fresh : State
  /-- Connection `k` makes a call and is answered. -/
  Serves (k : ι) (op : StoreOp) (s : State) (resp : op.Resp) (s' : State) : Prop
  /-- Connection `k` ends, with its process or without. -/
  Ends (k : ι) (s s' : State) : Prop
  /-- What is committed, who is inside a transaction, and what the writer has written. -/
  transactions : State → Transactional ι Database

/-- What SQLite's documentation says of transactions: they are serialisable and atomic,
    one connection writes at a time, and a call that fails changes nothing but the
    transaction it belongs to, which it may cost. -/
structure Engine.Serialisable {ι : Type} [DecidableEq ι] (engine : Engine ι) : Prop where
  fresh : engine.transactions engine.fresh = ⟨Sqlite.absent, fun _ => false, none⟩
  setup : ∀ {k op s resp s'}, engine.Serves k (.setup op) s resp s' → ¬ Refused resp →
    resp = .ok () ∧ engine.transactions s' = engine.transactions s
  userVersion : ∀ {k s resp s'}, engine.Serves k .userVersion s resp s' → ¬ Refused resp →
    resp = .ok (userVersion ((engine.transactions s).view k)) ∧
      engine.transactions s' = engine.transactions s
  begin : ∀ {k s resp s'}, engine.Serves k .begin s resp s' → ¬ Refused resp →
    resp = .ok () ∧ engine.transactions s' = (engine.transactions s).enter k
  executeBatch : ∀ {k batch s resp s'}, engine.Serves k (.executeBatch batch) s resp s' → ¬ Refused resp →
    (engine.transactions s).write (applyBatch batch) k = some (resp, engine.transactions s')
  setUserVersion : ∀ {k v s resp s'}, engine.Serves k (.setUserVersion v) s resp s' → ¬ Refused resp →
    (engine.transactions s).write (bumpVersion v) k = some (resp, engine.transactions s')
  commit : ∀ {k s resp s'}, engine.Serves k .commit s resp s' → ¬ Refused resp →
    resp = .ok () ∧ engine.transactions s' = (engine.transactions s).commit k
  insertOrReplace : ∀ {k relation values s resp s'},
    engine.Serves k (.insertOrReplace relation values) s resp s' → ¬ Refused resp →
    (engine.transactions s).write (replaceRow relation values) k = some (resp, engine.transactions s')
  select : ∀ {k query s resp s'}, engine.Serves k (.select query) s resp s' → ¬ Refused resp →
    resp = (Sqlite.select query ((engine.transactions s).view k)).mapError .sql ∧
      engine.transactions s' = engine.transactions s
  rollback : ∀ {k s resp s'}, engine.Serves k .rollback s resp s' →
    engine.transactions s' = (engine.transactions s).rollback k
  refused : ∀ {k op s resp s'}, engine.Serves k op s resp s' → Refused resp →
    Transactional.Withheld (engine.transactions s) (engine.transactions s') k
  ends : ∀ {k s s'}, engine.Ends k s s' → engine.transactions s' = (engine.transactions s).rollback k
  /-- A call that no lock stands in the way of can be carried out. -/
  free : ∀ (k : ι) op s, (engine.transactions s).blocked k = false →
    ∃ resp s', engine.Serves k op s resp s' ∧ ¬ Refused resp

end Engine

end Coordinator
