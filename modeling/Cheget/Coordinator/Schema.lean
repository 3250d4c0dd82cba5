-- SUMMARY: The coordinator's schema as statements, the rows of a table with their defaults and constraints, and the order of cells.
import Cheget.Base.Bytes
import Mathlib.Data.Int.Order.Basic
import Mathlib.Data.List.Lex

/-!
# The coordinator's schema

Of a column the name, its default and whether it may be NULL are kept. Every value
is bound to a column of its own type, so that affinities convert nothing.
-/

namespace Coordinator

/-! ## Cells -/

inductive Value where
  | integer (n : Int)
  | text (s : String)
  | blob (bytes : Bytes)
  deriving DecidableEq

/-- Byte strings are compared byte by byte. -/
def byteRank (bytes : Bytes) : List Int := bytes.map (fun b => (b.toNat : Int))

/-- The place of a cell in an ascending order: NULL, then integers, texts and blobs. -/
def cellRank : Option Value → List Int
  | none => [0]
  | some (.integer n) => [1, n]
  | some (.text s) => 2 :: byteRank (Bytes.utf8 s)
  | some (.blob bytes) => 3 :: byteRank bytes

/-! ## Tables -/

structure Column where
  name : String
  notNull : Bool
  dflt : Option Int
  deriving DecidableEq

structure TableSchema where
  name : String
  columns : List Column
  primaryKey : List String
  /-- `CHECK (column = value)` -/
  check : Option (String × Int)
  deriving DecidableEq

/-- The cells of a row by column; `none` is NULL. -/
abbrev Record := List (String × Option Value)

def Record.get (record : Record) (column : String) : Option Value := (record.lookup column).join

/-- A table with its rows, the order of which says nothing. -/
structure Relation where
  schema : TableSchema
  records : List Record
  deriving DecidableEq

/-- The row that an insert adds: defaults where no value is given, and, since `OR REPLACE`
    resolves it so, where NULL is given and not allowed. -/
def TableSchema.record (schema : TableSchema) (values : List (String × Option Value)) : Record :=
  schema.columns.map (fun column =>
    (column.name,
      match values.lookup column.name with
      | some (some value) => some value
      | some none => if column.notNull then column.dflt.map .integer else none
      | none => column.dflt.map .integer))

/-- `NOT NULL` and `CHECK`, which NULL passes. -/
def TableSchema.admits (schema : TableSchema) (record : Record) : Bool :=
  schema.columns.all (fun column => !column.notNull || (record.get column.name).isSome) &&
    schema.check.all (fun check => (record.get check.1).all (fun value => value = .integer check.2))

/-- Two rows have the same primary key, in which no NULL is the same as another. -/
def TableSchema.conflict (schema : TableSchema) (record other : Record) : Bool :=
  schema.primaryKey.all (fun column =>
    (record.get column).isSome && decide (other.get column = record.get column))

/-! ## Statements -/

inductive Statement where
  | createTable (schema : TableSchema)
  | insertInto (table : String) (values : List (String × Int))
  deriving DecidableEq

/-- The row of an `INSERT` that gives integers only. -/
def TableSchema.integers (schema : TableSchema) (values : List (String × Int)) : Record :=
  schema.record (values.map (fun value => (value.1, some (.integer value.2))))

/-- `SELECT columns FROM relation WHERE column = value ORDER BY orderBy` -/
structure Select where
  columns : List String
  relation : String
  column : String
  value : Value
  orderBy : List String

/-- The row is asked for. -/
def Select.wants (query : Select) (record : Record) : Bool := record.get query.column = some query.value

/-- The place of a row in the order that a query asks for. -/
def Select.rank (query : Select) (record : Record) : List (List Int) :=
  query.orderBy.map (fun column => cellRank (record.get column))

def Select.row (query : Select) (record : Record) : List (Option Value) := query.columns.map record.get

/-! ## Version 1 -/

def nullable (name : String) : Column := ⟨name, false, none⟩
def required (name : String) : Column := ⟨name, true, none⟩

def roster : TableSchema where
  name := "roster"
  columns := [required "key_id", required "identifier", nullable "seat_index", required "npub",
    required "status", required "join_epoch", nullable "leave_epoch"]
  primaryKey := ["key_id", "identifier"]
  check := none

def ceremonyTranscripts : TableSchema where
  name := "ceremony_transcripts"
  columns := [nullable "ceremony_id", required "key_id", required "epoch", required "kind",
    nullable "group_verifying_key", required "status", required "started_at",
    nullable "completed_at"]
  primaryKey := ["ceremony_id"]
  check := none

def sessionLogs : TableSchema where
  name := "session_logs"
  columns := [nullable "session_id", required "key_id", required "epoch", required "kind",
    nullable "psbt_txid", nullable "subset", required "outcome", required "created_at"]
  primaryKey := ["session_id"]
  check := none

def policyConfig : TableSchema where
  name := "policy_config"
  columns := [nullable "id", nullable "value_cap", ⟨"churn_budget", true, some 50⟩,
    ⟨"max_epochs", true, some 24⟩, ⟨"standby_max_age", true, some 7776000⟩]
  primaryKey := ["id"]
  check := some ("id", 1)

def churnLedger : TableSchema where
  name := "churn_ledger"
  columns := [required "key_id", required "identifier", nullable "npub", required "left_epoch",
    required "recorded_at"]
  primaryKey := ["key_id", "identifier", "left_epoch"]
  check := none

/-- `SCHEMA_V1` -/
def schemaV1 : List Statement :=
  [.createTable roster, .createTable ceremonyTranscripts, .createTable sessionLogs,
    .createTable policyConfig, .insertInto "policy_config" [("id", 1)], .createTable churnLedger]

def schemaVersion : Int := 1

def schemaTables : List String :=
  ["roster", "ceremony_transcripts", "session_logs", "policy_config", "churn_ledger"]

/-- The row that the schema inserts. -/
def policyRecord : Record := policyConfig.integers [("id", 1)]

end Coordinator
