-- SUMMARY: The coordinator's records as rows, and the calls of the store that insert and select them.
import Cheget.Base.Except
import Cheget.Coordinator.Connection

/-!
# The coordinator's records

Every insert of the store is an `INSERT OR REPLACE` of one row, and every query a
`SELECT` of the rows in which one column has a given value.
-/

namespace Coordinator

/-! ## Columns -/

/-- `ToSql` and `FromSql` of a type whose values are never NULL. -/
class Scalar (α : Type) where
  toValue : α → Value
  ofValue : Value → Option α
  ofValue_toValue (a : α) : ofValue (toValue a) = some a

/-- `ToSql` and `FromSql`, of which the second reads back what the first wrote. -/
class Field (α : Type) where
  toSql : α → Option Value
  fromSql : Option Value → Option α
  fromSql_toSql (a : α) : fromSql (toSql a) = some a

export Field (toSql fromSql)

instance : Scalar Int where
  toValue := .integer
  ofValue
    | .integer n => some n
    | _ => none
  ofValue_toValue _ := rfl

instance : Scalar String where
  toValue := .text
  ofValue
    | .text s => some s
    | _ => none
  ofValue_toValue _ := rfl

instance : Scalar Bytes where
  toValue := .blob
  ofValue
    | .blob bytes => some bytes
    | _ => none
  ofValue_toValue _ := rfl

instance {α : Type} [Scalar α] : Field α where
  toSql a := some (Scalar.toValue a)
  fromSql cell := cell.bind Scalar.ofValue
  fromSql_toSql := Scalar.ofValue_toValue

instance {α : Type} [Scalar α] : Field (Option α) where
  toSql a := a.map Scalar.toValue
  fromSql
    | none => some none
    | some value => (Scalar.ofValue value).map some
  fromSql_toSql
    | none => rfl
    | some a => by simp [Scalar.ofValue_toValue]

/-- `r.get(i)?` -/
def getColumn {α : Type} [Field α] (row : List (Option Value)) (i : Nat) : Except RusqliteError α :=
  match row[i]? with
  | none => .error (.invalidColumnIndex i)
  | some cell =>
      match fromSql cell with
      | none => .error (.invalidColumnType i)
      | some a => .ok a

/-- `query_map` and `collect` -/
def queryRows {α : Type} (query : Select) (decode : List (Option Value) → Except RusqliteError α) :
    StoreM (List α) := do
  let rows : List (List (Option Value)) ← onConnection (.select query)
  Program.ofExcept ((rows.mapM decode).mapError .sqlite)

/-- `rows.next()` -/
def firstRow {α : Type} (decode : List (Option Value) → Except RusqliteError α) :
    List (List (Option Value)) → StoreM (Option α)
  | [] => pure none
  | row :: _ => do
      let a ← Program.ofExcept ((decode row).mapError .sqlite)
      pure (some a)

/-- `query_map` and the first row of it -/
def queryFirst {α : Type} (query : Select) (decode : List (Option Value) → Except RusqliteError α) :
    StoreM (Option α) := do
  let rows : List (List (Option Value)) ← onConnection (.select query)
  firstRow decode rows

/-- `query_row` -/
def queryRow {α : Type} (query : Select) (decode : List (Option Value) → Except RusqliteError α) :
    StoreM α := do
  let first ← queryFirst query decode
  match first with
  | none => .fail (.sqlite .queryReturnedNoRows)
  | some a => pure a

/-! ## The roster -/

structure RosterEntry where
  keyId : String
  identifier : String
  seatIndex : Option Int
  npub : String
  status : String
  joinEpoch : Int
  leaveEpoch : Option Int
  deriving DecidableEq

def RosterEntry.values (entry : RosterEntry) : List (String × Option Value) :=
  [("key_id", toSql entry.keyId), ("identifier", toSql entry.identifier),
    ("seat_index", toSql entry.seatIndex), ("npub", toSql entry.npub), ("status", toSql entry.status),
    ("join_epoch", toSql entry.joinEpoch), ("leave_epoch", toSql entry.leaveEpoch)]

def rosterQuery (keyId : String) : Select where
  columns := ["key_id", "identifier", "seat_index", "npub", "status", "join_epoch", "leave_epoch"]
  relation := "roster"
  column := "key_id"
  value := .text keyId
  orderBy := ["identifier"]

def RosterEntry.ofRow (row : List (Option Value)) : Except RusqliteError RosterEntry := do
  let keyId ← getColumn row 0
  let identifier ← getColumn row 1
  let seatIndex ← getColumn row 2
  let npub ← getColumn row 3
  let status ← getColumn row 4
  let joinEpoch ← getColumn row 5
  let leaveEpoch ← getColumn row 6
  .ok ⟨keyId, identifier, seatIndex, npub, status, joinEpoch, leaveEpoch⟩

/-! ## Ceremony transcripts -/

structure CeremonyTranscript where
  ceremonyId : String
  keyId : String
  epoch : Int
  kind : String
  groupVerifyingKey : Option Bytes
  status : String
  startedAt : Int
  completedAt : Option Int
  deriving DecidableEq

def CeremonyTranscript.values (t : CeremonyTranscript) : List (String × Option Value) :=
  [("ceremony_id", toSql t.ceremonyId), ("key_id", toSql t.keyId), ("epoch", toSql t.epoch),
    ("kind", toSql t.kind), ("group_verifying_key", toSql t.groupVerifyingKey),
    ("status", toSql t.status), ("started_at", toSql t.startedAt),
    ("completed_at", toSql t.completedAt)]

def ceremonyQuery (ceremonyId : String) : Select where
  columns := ["ceremony_id", "key_id", "epoch", "kind", "group_verifying_key", "status",
    "started_at", "completed_at"]
  relation := "ceremony_transcripts"
  column := "ceremony_id"
  value := .text ceremonyId
  orderBy := []

def CeremonyTranscript.ofRow (row : List (Option Value)) : Except RusqliteError CeremonyTranscript := do
  let ceremonyId ← getColumn row 0
  let keyId ← getColumn row 1
  let epoch ← getColumn row 2
  let kind ← getColumn row 3
  let groupVerifyingKey ← getColumn row 4
  let status ← getColumn row 5
  let startedAt ← getColumn row 6
  let completedAt ← getColumn row 7
  .ok ⟨ceremonyId, keyId, epoch, kind, groupVerifyingKey, status, startedAt, completedAt⟩

/-! ## Session logs -/

structure SessionLog where
  sessionId : String
  keyId : String
  epoch : Int
  kind : String
  psbtTxid : Option String
  subset : Option String
  outcome : String
  createdAt : Int
  deriving DecidableEq

def SessionLog.values (s : SessionLog) : List (String × Option Value) :=
  [("session_id", toSql s.sessionId), ("key_id", toSql s.keyId), ("epoch", toSql s.epoch),
    ("kind", toSql s.kind), ("psbt_txid", toSql s.psbtTxid), ("subset", toSql s.subset),
    ("outcome", toSql s.outcome), ("created_at", toSql s.createdAt)]

def sessionQuery (sessionId : String) : Select where
  columns := ["session_id", "key_id", "epoch", "kind", "psbt_txid", "subset", "outcome", "created_at"]
  relation := "session_logs"
  column := "session_id"
  value := .text sessionId
  orderBy := []

def SessionLog.ofRow (row : List (Option Value)) : Except RusqliteError SessionLog := do
  let sessionId ← getColumn row 0
  let keyId ← getColumn row 1
  let epoch ← getColumn row 2
  let kind ← getColumn row 3
  let psbtTxid ← getColumn row 4
  let subset ← getColumn row 5
  let outcome ← getColumn row 6
  let createdAt ← getColumn row 7
  .ok ⟨sessionId, keyId, epoch, kind, psbtTxid, subset, outcome, createdAt⟩

/-! ## The churn ledger -/

structure ChurnEntry where
  keyId : String
  identifier : String
  npub : Option String
  leftEpoch : Int
  recordedAt : Int
  deriving DecidableEq

def ChurnEntry.values (c : ChurnEntry) : List (String × Option Value) :=
  [("key_id", toSql c.keyId), ("identifier", toSql c.identifier), ("npub", toSql c.npub),
    ("left_epoch", toSql c.leftEpoch), ("recorded_at", toSql c.recordedAt)]

def churnQuery (keyId : String) : Select where
  columns := ["key_id", "identifier", "npub", "left_epoch", "recorded_at"]
  relation := "churn_ledger"
  column := "key_id"
  value := .text keyId
  orderBy := ["left_epoch", "identifier"]

def ChurnEntry.ofRow (row : List (Option Value)) : Except RusqliteError ChurnEntry := do
  let keyId ← getColumn row 0
  let identifier ← getColumn row 1
  let npub ← getColumn row 2
  let leftEpoch ← getColumn row 3
  let recordedAt ← getColumn row 4
  .ok ⟨keyId, identifier, npub, leftEpoch, recordedAt⟩

/-! ## The policy row -/

structure PolicyConfig where
  valueCap : Option Int
  churnBudget : Int
  maxEpochs : Int
  standbyMaxAge : Int
  deriving DecidableEq

def policyQuery : Select where
  columns := ["value_cap", "churn_budget", "max_epochs", "standby_max_age"]
  relation := "policy_config"
  column := "id"
  value := .integer 1
  orderBy := []

def PolicyConfig.ofRow (row : List (Option Value)) : Except RusqliteError PolicyConfig := do
  let valueCap ← getColumn row 0
  let churnBudget ← getColumn row 1
  let maxEpochs ← getColumn row 2
  let standbyMaxAge ← getColumn row 3
  .ok ⟨valueCap, churnBudget, maxEpochs, standbyMaxAge⟩

/-! ## The calls -/

namespace CoordinatorStore

def insertRoster (entry : RosterEntry) : StoreM Unit := onConnection (.insertOrReplace "roster" entry.values)

def listRoster (keyId : String) : StoreM (List RosterEntry) :=
  queryRows (rosterQuery keyId) RosterEntry.ofRow

def insertCeremony (t : CeremonyTranscript) : StoreM Unit :=
  onConnection (.insertOrReplace "ceremony_transcripts" t.values)

def getCeremony (ceremonyId : String) : StoreM (Option CeremonyTranscript) :=
  queryFirst (ceremonyQuery ceremonyId) CeremonyTranscript.ofRow

def insertSession (s : SessionLog) : StoreM Unit := onConnection (.insertOrReplace "session_logs" s.values)

def getSession (sessionId : String) : StoreM (Option SessionLog) :=
  queryFirst (sessionQuery sessionId) SessionLog.ofRow

def insertChurn (c : ChurnEntry) : StoreM Unit := onConnection (.insertOrReplace "churn_ledger" c.values)

def listChurn (keyId : String) : StoreM (List ChurnEntry) :=
  queryRows (churnQuery keyId) ChurnEntry.ofRow

def policyConfig : StoreM PolicyConfig := queryRow policyQuery PolicyConfig.ofRow

end CoordinatorStore

end Coordinator
