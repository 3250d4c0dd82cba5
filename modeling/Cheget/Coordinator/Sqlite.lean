-- SUMMARY: A SQLite database as the coordinator uses it, what is relied on of its statements, and what the schema makes of it.
import Cheget.Coordinator.Schema
import Mathlib.Logic.Function.Basic

/-!
# The database

SQLite is not part of the repository. What a statement makes of a database is a
parameter, seen through the version and the tables.
-/

namespace Coordinator

/-- Why a statement is wrong for a database. -/
inductive SqlError where
  | tableExists (name : String)
  | noSuchTable (name : String)
  | constraint (table : String)
  deriving DecidableEq

class Sqlite where
  Database : Type
  /-- The database of a file that is absent. -/
  absent : Database
  userVersion : Database → Int
  relation : Database → String → Option Relation
  execute : Statement → Database → Except SqlError Database
  setUserVersion : Int → Database → Database
  /-- `INSERT OR REPLACE INTO relation (..) VALUES (..)` -/
  insertOrReplace : String → List (String × Option Value) → Database → Except SqlError Database
  select : Select → Database → Except SqlError (List (List (Option Value)))

export Sqlite (Database userVersion relation)

variable [Sqlite]

/-- A table has these rows, in some order. -/
def Has (db : Database) (schema : TableSchema) (records : List Record) : Prop :=
  ∃ found, relation db schema.name = some ⟨schema, found⟩ ∧ found.Perm records

/-- One table has changed, to these rows, and nothing else has. -/
structure Changed (db db' : Database) (schema : TableSchema) (records : List Record) : Prop where
  has : Has db' schema records
  others : ∀ name, name ≠ schema.name → relation db' name = relation db name
  version : userVersion db' = userVersion db

/-- What SQLite's documentation says of the statements. -/
structure Sqlite.Documented : Prop where
  version_absent : userVersion Sqlite.absent = 0
  relation_absent : ∀ name, relation Sqlite.absent name = none
  createTable : ∀ schema db, relation db schema.name = none →
    ∃ db', Sqlite.execute (.createTable schema) db = .ok db' ∧ Changed db db' schema []
  createTable_existing : ∀ schema db, (relation db schema.name).isSome = true →
    Sqlite.execute (.createTable schema) db = .error (.tableExists schema.name)
  insertInto : ∀ schema records values db, Has db schema records →
    schema.admits (schema.integers values) = true →
    (∀ other ∈ records, schema.conflict (schema.integers values) other = false) →
    ∃ db', Sqlite.execute (.insertInto schema.name values) db = .ok db' ∧
      Changed db db' schema (records ++ [schema.integers values])
  setUserVersion : ∀ v db, userVersion (Sqlite.setUserVersion v db) = v ∧
    relation (Sqlite.setUserVersion v db) = relation db
  /-- The rows in conflict with the new one go. -/
  insertOrReplace : ∀ schema records values db, Has db schema records →
    schema.admits (schema.record values) = true →
    ∃ db', Sqlite.insertOrReplace schema.name values db = .ok db' ∧
      Changed db db' schema
        (records.filter (fun other => !schema.conflict (schema.record values) other) ++
          [schema.record values])
  /-- What is asked for, in the order asked for. -/
  select : ∀ (query : Select) schema records db, schema.name = query.relation → Has db schema records →
    ∃ found : List Record, Sqlite.select query db = .ok (found.map query.row) ∧
      found.Perm (records.filter query.wants) ∧
      found.Pairwise (fun a b => query.rank a ≤ query.rank b)

/-! ## Tables -/

variable {db db' : Database} {schema : TableSchema} {records : List Record}

theorem Has.isSome (h : Has db schema records) : (relation db schema.name).isSome = true := by
  obtain ⟨found, hrelation, -⟩ := h
  rw [hrelation]
  rfl

/-- A table is where it was. -/
theorem Has.of_eq (h : Has db schema records) (heq : relation db' schema.name = relation db schema.name) :
    Has db' schema records := by
  obtain ⟨found, hrelation, hfound⟩ := h
  exact ⟨found, heq.trans hrelation, hfound⟩

theorem Changed.keeps {other : TableSchema} {rows : List Record} (h : Changed db db' schema records)
    (hhas : Has db other rows) (hne : other.name ≠ schema.name) : Has db' other rows :=
  hhas.of_eq (h.others other.name hne)

/-! ## Batches -/

/-- `execute_batch`: the statements in turn, up to the first that fails. -/
def executeBatch : List Statement → Database → Except SqlError Unit × Database
  | [], db => (.ok (), db)
  | statement :: rest, db =>
      match Sqlite.execute statement db with
      | .ok db => executeBatch rest db
      | .error e => (.error e, db)

theorem executeBatch_ok {statement : Statement} (h : Sqlite.execute statement db = .ok db')
    (rest : List Statement) : executeBatch (statement :: rest) db = executeBatch rest db' := by
  rw [executeBatch, h]

/-- Version 0, with no table of the schema. -/
def Unmigrated (db : Database) : Prop :=
  userVersion db = 0 ∧ ∀ name ∈ schemaTables, relation db name = none

/-- Version 1, with every table of the schema and the policy row of the
    specification's defaults. -/
def Migrated (db : Database) : Prop :=
  userVersion db = 1 ∧ (∀ name ∈ schemaTables, (relation db name).isSome = true) ∧
    Has db policyConfig [[("id", some (.integer 1)), ("value_cap", none),
      ("churn_budget", some (.integer 50)), ("max_epochs", some (.integer 24)),
      ("standby_max_age", some (.integer 7776000))]]

/-- The tables of the schema, with these rows. -/
structure Tables (db : Database) (rosterRows ceremonyRows sessionRows churnRows : List Record) : Prop where
  roster : Has db roster rosterRows
  ceremonies : Has db ceremonyTranscripts ceremonyRows
  sessions : Has db sessionLogs sessionRows
  policy : Has db policyConfig [policyRecord]
  churn : Has db churnLedger churnRows

theorem Tables.migrated {rosterRows ceremonyRows sessionRows churnRows : List Record}
    (h : Tables db rosterRows ceremonyRows sessionRows churnRows) (hversion : userVersion db = schemaVersion) :
    Migrated db := by
  refine ⟨hversion, fun name hname => ?_, h.policy⟩
  simp only [schemaTables, List.mem_cons, List.not_mem_nil, or_false] at hname
  rcases hname with rfl | rfl | rfl | rfl | rfl
  · exact h.roster.isSome
  · exact h.ceremonies.isSome
  · exact h.sessions.isSome
  · exact h.policy.isSome
  · exact h.churn.isSome

/-! ## The schema -/

/-- What the schema makes of an absent database. -/
def applied : Database := (executeBatch schemaV1 Sqlite.absent).2

def migrated : Database := Sqlite.setUserVersion schemaVersion applied

namespace Sqlite.Documented

variable (h : Sqlite.Documented)
include h

theorem unmigrated_absent : Unmigrated Sqlite.absent :=
  ⟨h.version_absent, fun name _ => h.relation_absent name⟩

/-- The schema applies where no table is. -/
theorem executeBatch_absent : executeBatch schemaV1 Sqlite.absent = (.ok (), applied) ∧
    userVersion applied = 0 ∧ Tables applied [] [] [] [] := by
  obtain ⟨db₁, h₁, hroster⟩ := h.createTable Coordinator.roster Sqlite.absent (h.relation_absent _)
  have hnone₁ (name : String) (hname : name ≠ "roster") : relation db₁ name = none :=
    (hroster.others name hname).trans (h.relation_absent name)
  obtain ⟨db₂, h₂, hceremonies⟩ := h.createTable ceremonyTranscripts db₁ (hnone₁ _ (by decide))
  have hnone₂ (name : String) (hname : name ≠ "roster") (hname' : name ≠ "ceremony_transcripts") :
      relation db₂ name = none :=
    (hceremonies.others name hname').trans (hnone₁ name hname)
  obtain ⟨db₃, h₃, hsessions⟩ := h.createTable sessionLogs db₂ (hnone₂ _ (by decide) (by decide))
  have hnone₃ (name : String) (hname : name ∉ ["roster", "ceremony_transcripts", "session_logs"]) :
      relation db₃ name = none := by
    simp only [List.mem_cons, List.not_mem_nil, or_false, not_or] at hname
    exact (hsessions.others name hname.2.2).trans (hnone₂ name hname.1 hname.2.1)
  obtain ⟨db₄, h₄, hpolicy⟩ := h.createTable policyConfig db₃ (hnone₃ _ (by decide))
  obtain ⟨db₅, (h₅ : Sqlite.execute (.insertInto "policy_config" [("id", 1)]) db₄ = .ok db₅), hrow⟩ :=
    h.insertInto policyConfig [] [("id", 1)] db₄ hpolicy.has rfl
      (fun other hother => absurd hother List.not_mem_nil)
  have hfree : relation db₅ churnLedger.name = none :=
    (hrow.others _ (by decide)).trans ((hpolicy.others _ (by decide)).trans (hnone₃ _ (by decide)))
  obtain ⟨db₆, h₆, hchurn⟩ := h.createTable churnLedger db₅ hfree
  have hbatch : executeBatch schemaV1 Sqlite.absent = (.ok (), db₆) := by
    rw [schemaV1, executeBatch_ok h₁, executeBatch_ok h₂, executeBatch_ok h₃, executeBatch_ok h₄,
      executeBatch_ok h₅, executeBatch_ok h₆, executeBatch]
  have happlied : applied = db₆ := congrArg Prod.snd hbatch
  rw [happlied]
  refine ⟨hbatch, ?_, ?_⟩
  · rw [hchurn.version, hrow.version, hpolicy.version, hsessions.version, hceremonies.version,
      hroster.version, h.version_absent]
  · constructor
    case roster =>
      exact hchurn.keeps (hrow.keeps (hpolicy.keeps (hsessions.keeps (hceremonies.keeps hroster.has
        (by decide)) (by decide)) (by decide)) (by decide)) (by decide)
    case ceremonies =>
      exact hchurn.keeps (hrow.keeps (hpolicy.keeps (hsessions.keeps hceremonies.has
        (by decide)) (by decide)) (by decide)) (by decide)
    case sessions =>
      exact hchurn.keeps (hrow.keeps (hpolicy.keeps hsessions.has (by decide)) (by decide)) (by decide)
    case policy => exact hchurn.keeps hrow.has (by decide)
    case churn => exact hchurn.has

/-- The schema cannot be applied where it has been, whatever was inserted since. -/
theorem executeBatch_existing (hroster : (relation db "roster").isSome = true) :
    executeBatch schemaV1 db = (.error (.tableExists "roster"), db) := by
  rw [schemaV1, executeBatch, h.createTable_existing Coordinator.roster db hroster]
  rfl

theorem tables_migrated : userVersion migrated = schemaVersion ∧ Tables migrated [] [] [] [] := by
  obtain ⟨-, -, happlied⟩ := h.executeBatch_absent
  obtain ⟨hversion, hrelation⟩ := h.setUserVersion schemaVersion applied
  have hsame (schema : TableSchema) : relation migrated schema.name = relation applied schema.name :=
    congrFun hrelation schema.name
  exact ⟨hversion, happlied.roster.of_eq (hsame _), happlied.ceremonies.of_eq (hsame _),
    happlied.sessions.of_eq (hsame _), happlied.policy.of_eq (hsame _), happlied.churn.of_eq (hsame _)⟩

end Sqlite.Documented

end Coordinator
