-- SUMMARY: The coordinator's records as maps, and the database that stands for them after every insert and query.
import Cheget.Base.Catalog
import Cheget.Base.Hex
import Cheget.Coordinator.Records

/-!
# The coordinator's books

What the store keeps is four maps. A ledger has each of them as a catalog, and a
database keeps it: an insert into the one is an insert into the other, and a query
reads a listing back.
-/

namespace Coordinator

/-! ## Values as rows -/

section Stored

variable {α κ : Type} [DecidableEq κ] {key : α → κ} {schema : TableSchema}
  {values : α → List (String × Option Value)}

/-- The values of a type are rows of a table, which tells them apart by their keys. -/
structure Stored (schema : TableSchema) (key : α → κ) (values : α → List (String × Option Value)) :
    Prop where
  admits (a : α) : schema.admits (schema.record (values a)) = true
  conflict (a b : α) :
    schema.conflict (schema.record (values a)) (schema.record (values b)) = decide (key b = key a)

def rowsOf (schema : TableSchema) (values : α → List (String × Option Value)) (c : Catalog key) :
    List Record :=
  c.records.map (fun a => schema.record (values a))

theorem Stored.rowsOf_insert (h : Stored schema key values) (c : Catalog key) (a : α) :
    (rowsOf schema values c).filter
        (fun other => !schema.conflict (schema.record (values a)) other) ++
        [schema.record (values a)] =
      rowsOf schema values (c.insert a) := by
  unfold rowsOf Catalog.insert Keyed.remove
  rw [List.map_append, List.filter_map]
  congr 3
  funext b
  simp [h.conflict]

theorem Stored.insertOrReplace [Sqlite] (h : Stored schema key values) (hdocumented : Sqlite.Documented)
    {db : Database} {c : Catalog key} (hdb : Has db schema (rowsOf schema values c)) (a : α) :
    ∃ db', Sqlite.insertOrReplace schema.name (values a) db = .ok db' ∧
      Changed db db' schema (rowsOf schema values (c.insert a)) := by
  have hinsert := hdocumented.insertOrReplace schema _ (values a) db hdb (h.admits a)
  rwa [h.rowsOf_insert] at hinsert

/-- A query selects by `p` among the values of a type, and their rows decode. -/
structure Answered (query : Select) (schema : TableSchema) (values : α → List (String × Option Value))
    (p : α → Bool) (decode : List (Option Value) → Except RusqliteError α) : Prop where
  selects (a : α) : query.wants (schema.record (values a)) = p a
  decodes (a : α) : decode (query.row (schema.record (values a))) = .ok a

variable {query : Select} {p : α → Bool} {decode : List (Option Value) → Except RusqliteError α}

omit [DecidableEq κ] in
/-- The rows that a query finds are those of the selected records, in the order asked for. -/
theorem Answered.select [Sqlite] (h : Answered query schema values p decode)
    (hdocumented : Sqlite.Documented) {db : Database} {c : Catalog key}
    (hrelation : schema.name = query.relation) (hdb : Has db schema (rowsOf schema values c)) :
    ∃ entries : List α,
      Sqlite.select query db = .ok (entries.map (fun a => query.row (schema.record (values a)))) ∧
      entries.Perm (c.records.filter p) ∧
      entries.Pairwise (fun a b =>
        query.rank (schema.record (values a)) ≤ query.rank (schema.record (values b))) := by
  obtain ⟨found, hselect, hperm, hsorted⟩ := hdocumented.select query schema _ db hrelation hdb
  have hfilter : (rowsOf schema values c).filter query.wants =
      (c.records.filter p).map (fun a => schema.record (values a)) := by
    unfold rowsOf
    rw [List.filter_map]
    congr 2
    funext a
    exact h.selects a
  rw [hfilter] at hperm
  obtain ⟨entries, rfl, hentries⟩ : ∃ entries : List α,
      found = entries.map (fun a => schema.record (values a)) ∧ entries.Perm (c.records.filter p) :=
    (congrFun (congrFun (List.eq_map_comp_perm _) found) _).mpr hperm
  rw [List.pairwise_map] at hsorted
  refine ⟨entries, ?_, hentries, hsorted⟩
  rw [hselect, List.map_map]
  rfl

theorem Answered.mapM (h : Answered query schema values p decode) (entries : List α) :
    (entries.map (fun a => query.row (schema.record (values a)))).mapM decode = .ok entries := by
  induction entries with
  | nil => rfl
  | cons a entries ih =>
      rw [List.map_cons, List.mapM_cons, h.decodes a, Except.ok_bind, ih]
      rfl

theorem Answered.firstRow (h : Answered query schema values p decode) (found : Option α) :
    firstRow decode (found.toList.map (fun a => query.row (schema.record (values a)))) = .done found := by
  cases found with
  | none => rfl
  | some a =>
      change (Program.ofExcept ((decode _).mapError _) >>= _) = _
      rw [h.decodes a]
      rfl

end Stored

/-! ## The four tables -/

def RosterEntry.key (entry : RosterEntry) : String × String := (entry.keyId, entry.identifier)

def ChurnEntry.key (c : ChurnEntry) : String × String × Int := (c.keyId, c.identifier, c.leftEpoch)

theorem record_roster (entry : RosterEntry) :
    roster.record entry.values =
      [("key_id", some (.text entry.keyId)), ("identifier", some (.text entry.identifier)),
        ("seat_index", entry.seatIndex.map .integer), ("npub", some (.text entry.npub)),
        ("status", some (.text entry.status)), ("join_epoch", some (.integer entry.joinEpoch)),
        ("leave_epoch", entry.leaveEpoch.map .integer)] := by
  rcases entry with ⟨keyId, identifier, _ | seatIndex, npub, status, joinEpoch, _ | leaveEpoch⟩ <;> rfl

theorem stored_roster : Stored roster RosterEntry.key RosterEntry.values where
  admits entry := by
    rw [record_roster]
    rfl
  conflict a b := by
    rw [record_roster, record_roster]
    simp [TableSchema.conflict, roster, Record.get, RosterEntry.key, List.lookup_cons, Prod.ext_iff]

theorem answered_roster (keyId : String) :
    Answered (rosterQuery keyId) roster RosterEntry.values (fun entry => entry.keyId = keyId)
      RosterEntry.ofRow where
  selects entry := by
    rw [record_roster]
    simp [Select.wants, rosterQuery, Record.get]
  decodes entry := by
    rw [record_roster]
    rcases entry with ⟨keyId, identifier, _ | seatIndex, npub, status, joinEpoch, _ | leaveEpoch⟩ <;> rfl

theorem record_ceremony (t : CeremonyTranscript) :
    ceremonyTranscripts.record t.values =
      [("ceremony_id", some (.text t.ceremonyId)), ("key_id", some (.text t.keyId)),
        ("epoch", some (.integer t.epoch)), ("kind", some (.text t.kind)),
        ("group_verifying_key", t.groupVerifyingKey.map .blob), ("status", some (.text t.status)),
        ("started_at", some (.integer t.startedAt)), ("completed_at", t.completedAt.map .integer)] := by
  rcases t with ⟨ceremonyId, keyId, epoch, kind, _ | p, status, startedAt, _ | completedAt⟩ <;> rfl

theorem stored_ceremony :
    Stored ceremonyTranscripts CeremonyTranscript.ceremonyId CeremonyTranscript.values where
  admits t := by
    rw [record_ceremony]
    rfl
  conflict a b := by
    rw [record_ceremony, record_ceremony]
    simp [TableSchema.conflict, ceremonyTranscripts, Record.get, List.lookup_cons]

theorem answered_ceremony (ceremonyId : String) :
    Answered (ceremonyQuery ceremonyId) ceremonyTranscripts CeremonyTranscript.values
      (fun t => t.ceremonyId = ceremonyId) CeremonyTranscript.ofRow where
  selects t := by
    rw [record_ceremony]
    simp [Select.wants, ceremonyQuery, Record.get]
  decodes t := by
    rw [record_ceremony]
    rcases t with ⟨ceremonyId, keyId, epoch, kind, _ | p, status, startedAt, _ | completedAt⟩ <;> rfl

theorem record_session (s : SessionLog) :
    sessionLogs.record s.values =
      [("session_id", some (.text s.sessionId)), ("key_id", some (.text s.keyId)),
        ("epoch", some (.integer s.epoch)), ("kind", some (.text s.kind)),
        ("psbt_txid", s.psbtTxid.map .text), ("subset", s.subset.map .text),
        ("outcome", some (.text s.outcome)), ("created_at", some (.integer s.createdAt))] := by
  rcases s with ⟨sessionId, keyId, epoch, kind, _ | psbtTxid, _ | subset, outcome, createdAt⟩ <;> rfl

theorem stored_session : Stored sessionLogs SessionLog.sessionId SessionLog.values where
  admits s := by
    rw [record_session]
    rfl
  conflict a b := by
    rw [record_session, record_session]
    simp [TableSchema.conflict, sessionLogs, Record.get, List.lookup_cons]

theorem answered_session (sessionId : String) :
    Answered (sessionQuery sessionId) sessionLogs SessionLog.values
      (fun s => s.sessionId = sessionId) SessionLog.ofRow where
  selects s := by
    rw [record_session]
    simp [Select.wants, sessionQuery, Record.get]
  decodes s := by
    rw [record_session]
    rcases s with ⟨sessionId, keyId, epoch, kind, _ | psbtTxid, _ | subset, outcome, createdAt⟩ <;> rfl

theorem record_churn (c : ChurnEntry) :
    churnLedger.record c.values =
      [("key_id", some (.text c.keyId)), ("identifier", some (.text c.identifier)),
        ("npub", c.npub.map .text), ("left_epoch", some (.integer c.leftEpoch)),
        ("recorded_at", some (.integer c.recordedAt))] := by
  rcases c with ⟨keyId, identifier, _ | npub, leftEpoch, recordedAt⟩ <;> rfl

theorem stored_churn : Stored churnLedger ChurnEntry.key ChurnEntry.values where
  admits c := by
    rw [record_churn]
    rfl
  conflict a b := by
    rw [record_churn, record_churn]
    simp [TableSchema.conflict, churnLedger, Record.get, ChurnEntry.key, List.lookup_cons, Prod.ext_iff]

theorem answered_churn (keyId : String) :
    Answered (churnQuery keyId) churnLedger ChurnEntry.values (fun c => c.keyId = keyId)
      ChurnEntry.ofRow where
  selects c := by
    rw [record_churn]
    simp [Select.wants, churnQuery, Record.get]
  decodes c := by
    rw [record_churn]
    rcases c with ⟨keyId, identifier, _ | npub, leftEpoch, recordedAt⟩ <;> rfl

/-! ## Ledgers -/

structure Ledger where
  roster : Catalog RosterEntry.key
  ceremonies : Catalog CeremonyTranscript.ceremonyId
  sessions : Catalog SessionLog.sessionId
  churn : Catalog ChurnEntry.key

namespace Ledger

def empty : Ledger := ⟨.empty, .empty, .empty, .empty⟩

variable [Sqlite]

/-- A migrated database has the rows of a ledger. -/
structure KeptIn (ledger : Ledger) (db : Database) : Prop where
  version : userVersion db = schemaVersion
  tables : Tables db (rowsOf Coordinator.roster RosterEntry.values ledger.roster)
    (rowsOf ceremonyTranscripts CeremonyTranscript.values ledger.ceremonies)
    (rowsOf sessionLogs SessionLog.values ledger.sessions)
    (rowsOf churnLedger ChurnEntry.values ledger.churn)

variable {ledger : Ledger} {db : Database}

theorem kept_migrated (hdocumented : Sqlite.Documented) : empty.KeptIn migrated :=
  ⟨hdocumented.tables_migrated.1, hdocumented.tables_migrated.2⟩

theorem KeptIn.migrated (h : ledger.KeptIn db) : Migrated db := h.tables.migrated h.version

theorem KeptIn.insert_roster (h : ledger.KeptIn db) (hdocumented : Sqlite.Documented) (entry : RosterEntry) :
    ∃ db', Sqlite.insertOrReplace "roster" entry.values db = .ok db' ∧
      KeptIn { ledger with roster := ledger.roster.insert entry } db' := by
  obtain ⟨db', hinsert, hchanged⟩ :=
    stored_roster.insertOrReplace hdocumented h.tables.roster entry
  refine ⟨db', hinsert, hchanged.version.trans h.version, hchanged.has, ?_, ?_, ?_, ?_⟩
  · exact hchanged.keeps h.tables.ceremonies (by decide)
  · exact hchanged.keeps h.tables.sessions (by decide)
  · exact hchanged.keeps h.tables.policy (by decide)
  · exact hchanged.keeps h.tables.churn (by decide)

theorem KeptIn.insert_ceremony (h : ledger.KeptIn db) (hdocumented : Sqlite.Documented)
    (t : CeremonyTranscript) :
    ∃ db', Sqlite.insertOrReplace "ceremony_transcripts" t.values db = .ok db' ∧
      KeptIn { ledger with ceremonies := ledger.ceremonies.insert t } db' := by
  obtain ⟨db', hinsert, hchanged⟩ :=
    stored_ceremony.insertOrReplace hdocumented h.tables.ceremonies t
  refine ⟨db', hinsert, hchanged.version.trans h.version, ?_, hchanged.has, ?_, ?_, ?_⟩
  · exact hchanged.keeps h.tables.roster (by decide)
  · exact hchanged.keeps h.tables.sessions (by decide)
  · exact hchanged.keeps h.tables.policy (by decide)
  · exact hchanged.keeps h.tables.churn (by decide)

theorem KeptIn.insert_session (h : ledger.KeptIn db) (hdocumented : Sqlite.Documented) (s : SessionLog) :
    ∃ db', Sqlite.insertOrReplace "session_logs" s.values db = .ok db' ∧
      KeptIn { ledger with sessions := ledger.sessions.insert s } db' := by
  obtain ⟨db', hinsert, hchanged⟩ :=
    stored_session.insertOrReplace hdocumented h.tables.sessions s
  refine ⟨db', hinsert, hchanged.version.trans h.version, ?_, ?_, hchanged.has, ?_, ?_⟩
  · exact hchanged.keeps h.tables.roster (by decide)
  · exact hchanged.keeps h.tables.ceremonies (by decide)
  · exact hchanged.keeps h.tables.policy (by decide)
  · exact hchanged.keeps h.tables.churn (by decide)

theorem KeptIn.insert_churn (h : ledger.KeptIn db) (hdocumented : Sqlite.Documented) (c : ChurnEntry) :
    ∃ db', Sqlite.insertOrReplace "churn_ledger" c.values db = .ok db' ∧
      KeptIn { ledger with churn := ledger.churn.insert c } db' := by
  obtain ⟨db', hinsert, hchanged⟩ :=
    stored_churn.insertOrReplace hdocumented h.tables.churn c
  refine ⟨db', hinsert, hchanged.version.trans h.version, ?_, ?_, ?_, ?_, hchanged.has⟩
  · exact hchanged.keeps h.tables.roster (by decide)
  · exact hchanged.keeps h.tables.ceremonies (by decide)
  · exact hchanged.keeps h.tables.sessions (by decide)
  · exact hchanged.keeps h.tables.policy (by decide)

theorem KeptIn.select_policy (h : ledger.KeptIn db) (hdocumented : Sqlite.Documented) :
    Sqlite.select policyQuery db = .ok [policyQuery.row policyRecord] := by
  obtain ⟨found, hselect, hperm, -⟩ :=
    hdocumented.select policyQuery Coordinator.policyConfig _ db rfl h.tables.policy
  have hwanted : [policyRecord].filter policyQuery.wants = [policyRecord] := rfl
  rw [hwanted, List.perm_singleton] at hperm
  rw [hselect, hperm]
  rfl

end Ledger

/-! ## Calls -/

inductive Call where
  | insertRoster (entry : RosterEntry)
  | listRoster (keyId : String)
  | insertCeremony (t : CeremonyTranscript)
  | getCeremony (ceremonyId : String)
  | insertSession (s : SessionLog)
  | getSession (sessionId : String)
  | insertChurn (c : ChurnEntry)
  | listChurn (keyId : String)
  | policyConfig

namespace Call

def Result : Call → Type
  | .listRoster _ => List RosterEntry
  | .getCeremony _ => Option CeremonyTranscript
  | .getSession _ => Option SessionLog
  | .listChurn _ => List ChurnEntry
  | .policyConfig => PolicyConfig
  | _ => Unit

def program : (call : Call) → StoreM call.Result
  | .insertRoster entry => CoordinatorStore.insertRoster entry
  | .listRoster keyId => CoordinatorStore.listRoster keyId
  | .insertCeremony t => CoordinatorStore.insertCeremony t
  | .getCeremony ceremonyId => CoordinatorStore.getCeremony ceremonyId
  | .insertSession s => CoordinatorStore.insertSession s
  | .getSession sessionId => CoordinatorStore.getSession sessionId
  | .insertChurn c => CoordinatorStore.insertChurn c
  | .listChurn keyId => CoordinatorStore.listChurn keyId
  | .policyConfig => CoordinatorStore.policyConfig

end Call

/-! ## Books -/

/-- What the store keeps. -/
structure Books where
  roster : String × String → Option RosterEntry
  ceremonies : String → Option CeremonyTranscript
  sessions : String → Option SessionLog
  churn : String × String × Int → Option ChurnEntry

/-- `ORDER BY identifier` -/
def RosterEntry.Before (a b : RosterEntry) : Prop :=
  byteRank (Bytes.utf8 a.identifier) < byteRank (Bytes.utf8 b.identifier)

/-- `ORDER BY left_epoch, identifier` -/
def ChurnEntry.Before (a b : ChurnEntry) : Prop :=
  a.leftEpoch < b.leftEpoch ∨ a.leftEpoch = b.leftEpoch ∧
    byteRank (Bytes.utf8 a.identifier) < byteRank (Bytes.utf8 b.identifier)

namespace Books

def empty : Books := ⟨fun _ => none, fun _ => none, fun _ => none, fun _ => none⟩

def after (books : Books) : Call → Books
  | .insertRoster entry =>
      { books with roster := Function.update books.roster entry.key (some entry) }
  | .insertCeremony t =>
      { books with ceremonies := Function.update books.ceremonies t.ceremonyId (some t) }
  | .insertSession s =>
      { books with sessions := Function.update books.sessions s.sessionId (some s) }
  | .insertChurn c => { books with churn := Function.update books.churn c.key (some c) }
  | _ => books

/-- What a call returns. -/
def Answers (books : Books) : (call : Call) → call.Result → Prop
  | .listRoster keyId, entries =>
      Catalog.Lists RosterEntry.key books.roster (fun entry => entry.keyId = keyId)
        RosterEntry.Before entries
  | .getCeremony ceremonyId, found => found = books.ceremonies ceremonyId
  | .getSession sessionId, found => found = books.sessions sessionId
  | .listChurn keyId, entries =>
      Catalog.Lists ChurnEntry.key books.churn (fun c => c.keyId = keyId) ChurnEntry.Before entries
  | .policyConfig, policy => policy = ⟨none, 50, 24, 7776000⟩
  | .insertRoster _, _ => True
  | .insertCeremony _, _ => True
  | .insertSession _, _ => True
  | .insertChurn _, _ => True

end Books

namespace Ledger

def books (ledger : Ledger) : Books :=
  ⟨ledger.roster.get, ledger.ceremonies.get, ledger.sessions.get, ledger.churn.get⟩

def after (ledger : Ledger) : Call → Ledger
  | .insertRoster entry => { ledger with roster := ledger.roster.insert entry }
  | .insertCeremony t => { ledger with ceremonies := ledger.ceremonies.insert t }
  | .insertSession s => { ledger with sessions := ledger.sessions.insert s }
  | .insertChurn c => { ledger with churn := ledger.churn.insert c }
  | _ => ledger

theorem books_after (ledger : Ledger) (call : Call) :
    (ledger.after call).books = ledger.books.after call := by
  cases call with
  | insertRoster entry => simp [after, books, Books.after, Catalog.get_insert]
  | insertCeremony t => simp [after, books, Books.after, Catalog.get_insert]
  | insertSession s => simp [after, books, Books.after, Catalog.get_insert]
  | insertChurn c => simp [after, books, Books.after, Catalog.get_insert]
  | listRoster keyId => rfl
  | getCeremony ceremonyId => rfl
  | getSession sessionId => rfl
  | listChurn keyId => rfl
  | policyConfig => rfl

theorem byteRank_injective : Function.Injective byteRank := by
  refine List.map_injective_iff.mpr (fun a b h => ?_)
  exact UInt8.toNat_inj.mp (Int.ofNat.inj h)

theorem rank_roster (keyId : String) (entry : RosterEntry) :
    (rosterQuery keyId).rank (Coordinator.roster.record entry.values) =
      [2 :: byteRank (Bytes.utf8 entry.identifier)] := by
  rw [record_roster]
  rfl

theorem rank_churn (keyId : String) (c : ChurnEntry) :
    (churnQuery keyId).rank (churnLedger.record c.values) =
      [[1, c.leftEpoch], 2 :: byteRank (Bytes.utf8 c.identifier)] := by
  rw [record_churn]
  rfl

theorem lists_roster (ledger : Ledger) (keyId : String) {entries : List RosterEntry}
    (hperm : entries.Perm (ledger.roster.records.filter (fun entry => entry.keyId = keyId)))
    (hsorted : entries.Pairwise (fun a b => (rosterQuery keyId).rank (Coordinator.roster.record a.values) ≤
      (rosterQuery keyId).rank (Coordinator.roster.record b.values))) :
    ledger.books.Answers (.listRoster keyId) entries := by
  refine (Catalog.lists_of_perm ledger.roster ?_ hperm hsorted).imp (fun entry => decide_eq_true_iff) ?_
  · intro a b ha hb h
    simp only [rank_roster, List.cons.injEq, and_true, true_and] at h
    exact Prod.ext ((of_decide_eq_true ha).trans (of_decide_eq_true hb).symm)
      (Bytes.utf8_injective (byteRank_injective h))
  · intro a b _ _ h
    simpa [rank_roster, List.cons_lt_cons_iff, RosterEntry.Before] using h

theorem lists_churn (ledger : Ledger) (keyId : String) {entries : List ChurnEntry}
    (hperm : entries.Perm (ledger.churn.records.filter (fun c => c.keyId = keyId)))
    (hsorted : entries.Pairwise (fun a b => (churnQuery keyId).rank (churnLedger.record a.values) ≤
      (churnQuery keyId).rank (churnLedger.record b.values))) :
    ledger.books.Answers (.listChurn keyId) entries := by
  refine (Catalog.lists_of_perm ledger.churn ?_ hperm hsorted).imp (fun c => decide_eq_true_iff) ?_
  · intro a b ha hb h
    simp only [rank_churn, List.cons.injEq, and_true, true_and] at h
    exact Prod.ext ((of_decide_eq_true ha).trans (of_decide_eq_true hb).symm)
      (Prod.ext (Bytes.utf8_injective (byteRank_injective h.2)) h.1)
  · intro a b _ _ h
    simpa [rank_churn, List.cons_lt_cons_iff, ChurnEntry.Before] using h

/-! ## One statement for each call -/

variable [Sqlite]

/-- A call makes one statement: an insert that leaves its row in the database, or a query
    that answers from it. What is refused, it fails with. -/
inductive Serves (ledger : Ledger) (db : Database) (call : Call) : StoreM call.Result → Prop where
  | insert {name : String} {values : List (String × Option Value)} {db' : Database}
      {cont : Except StoreError Unit → StoreM call.Result} {a : call.Result}
      (hinsert : Sqlite.insertOrReplace name values db = .ok db')
      (hkept : (ledger.after call).KeptIn db')
      (hok : cont (.ok ()) = .done a) (hanswers : ledger.books.Answers call a)
      (hfail : ∀ e, cont (.error e) = .fail e) :
      Serves ledger db call (.exec (.insertOrReplace name values) cont)
  | select {query : Select} {rows : List (List (Option Value))}
      {cont : Except StoreError (List (List (Option Value))) → StoreM call.Result} {a : call.Result}
      (hrows : Sqlite.select query db = .ok rows) (hafter : ledger.after call = ledger)
      (hok : cont (.ok rows) = .done a) (hanswers : ledger.books.Answers call a)
      (hfail : ∀ e, cont (.error e) = .fail e) :
      Serves ledger db call (.exec (.select query) cont)

theorem KeptIn.serves {ledger : Ledger} {db : Database} (h : ledger.KeptIn db)
    (hdocumented : Sqlite.Documented) (call : Call) : ledger.Serves db call call.program := by
  cases call with
  | insertRoster entry =>
      obtain ⟨db', hinsert, hkept⟩ := h.insert_roster hdocumented entry
      exact .insert hinsert hkept rfl trivial (fun _ => rfl)
  | insertCeremony t =>
      obtain ⟨db', hinsert, hkept⟩ := h.insert_ceremony hdocumented t
      exact .insert hinsert hkept rfl trivial (fun _ => rfl)
  | insertSession s =>
      obtain ⟨db', hinsert, hkept⟩ := h.insert_session hdocumented s
      exact .insert hinsert hkept rfl trivial (fun _ => rfl)
  | insertChurn c =>
      obtain ⟨db', hinsert, hkept⟩ := h.insert_churn hdocumented c
      exact .insert hinsert hkept rfl trivial (fun _ => rfl)
  | listRoster keyId =>
      have hanswered := answered_roster keyId
      obtain ⟨entries, hselect, hperm, hsorted⟩ :=
        hanswered.select hdocumented rfl h.tables.roster
      refine .select hselect rfl ?_ (ledger.lists_roster keyId hperm hsorted) (fun _ => rfl)
      exact congrArg (fun x => Program.ofExcept (x.mapError StoreError.sqlite)) (hanswered.mapM entries)
  | listChurn keyId =>
      have hanswered := answered_churn keyId
      obtain ⟨entries, hselect, hperm, hsorted⟩ :=
        hanswered.select hdocumented rfl h.tables.churn
      refine .select hselect rfl ?_ (ledger.lists_churn keyId hperm hsorted) (fun _ => rfl)
      exact congrArg (fun x => Program.ofExcept (x.mapError StoreError.sqlite)) (hanswered.mapM entries)
  | getCeremony ceremonyId =>
      have hanswered := answered_ceremony ceremonyId
      obtain ⟨entries, hselect, hperm, -⟩ :=
        hanswered.select hdocumented rfl h.tables.ceremonies
      rw [Catalog.filter_key] at hperm
      rw [Catalog.eq_of_perm_toList hperm] at hselect
      exact .select hselect rfl (hanswered.firstRow _) rfl (fun _ => rfl)
  | getSession sessionId =>
      have hanswered := answered_session sessionId
      obtain ⟨entries, hselect, hperm, -⟩ :=
        hanswered.select hdocumented rfl h.tables.sessions
      rw [Catalog.filter_key] at hperm
      rw [Catalog.eq_of_perm_toList hperm] at hselect
      exact .select hselect rfl (hanswered.firstRow _) rfl (fun _ => rfl)
  | policyConfig => exact .select (h.select_policy hdocumented) rfl rfl rfl (fun _ => rfl)

end Ledger

end Coordinator
