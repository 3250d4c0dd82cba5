-- SUMMARY: The rows that share-status prints: the last state of every tag that was put, and after a key generation the one seat of each root.
import Cheget.Base.Catalog
import Cheget.Cli.Lifecycle
import Cheget.Cli.Quorum

/-!
# Share status

The command reads the manifest of one directory. A key generation gives every
seat a directory of its own below the base, and none to the base itself.
-/

namespace Cli

open Crypto Store

section Status

variable [KeyCodec] [Json] [Age] {root base : FilePath} {calls : List Put} {t : FileTree} {env : SysEnv}

/-! ## The index of a root -/

theorem unique_index (calls : List Put) : Keyed.Unique Prod.fst (index calls) := by
  induction calls using List.reverseRecOn with
  | nil => exact Keyed.unique_nil
  | append_singleton calls call ih =>
      rw [index_append]
      exact ih.put

/-- A tag is listed with the state of its last put. -/
theorem lookup_index (calls : List Put) (tag : ShareTag) :
    Keyed.lookup Prod.fst tag (index calls) =
      (latest (fun call => call.tag = tag) calls).map (fun call => (tag, call.state)) := by
  induction calls using List.reverseRecOn with
  | nil => rfl
  | append_singleton calls call ih =>
      rw [index_append, Keyed.lookup_put, latest_append, ih]
      by_cases htag : call.tag = tag
      · simp [htag]
      · simp [htag]

theorem mem_index {tag : ShareTag} {state : ShareState} :
    (tag, state) ∈ index calls ↔
      (latest (fun call => call.tag = tag) calls).map Put.state = some state := by
  rw [(unique_index calls).mem_iff, lookup_index]
  cases latest (fun call => call.tag = tag) calls <;> simp

/-! ## The rows -/

/-- The rows of a manifest. -/
def rowsOf (content : Except IoError Bytes) : Except StoreError (List ShareEntry) :=
  match content with
  | .ok bytes => (Manifest.fromJsonBytes bytes).map Manifest.shares
  | .error .notFound => .ok []
  | .error e => .error (.io e)

/-- The command prints the rows of the manifest of its directory. -/
theorem run_shareStatus (hcalm : ∀ tick, env.fault tick = none) {given home : Option FilePath}
    (hroot : resolveRoot given home = .ok root) (tick : Nat) :
    ((shareStatus given home).run env.world ⟨t, tick⟩).result = rowsOf (t.read (manifestPath root)) := by
  have hread : (env.act tick t (.read (manifestPath root))).1 = t.read (manifestPath root) :=
    SysEnv.act_read (hcalm tick) _
  simp only [shareStatus, readManifest, ParticipantStore.loadManifest, hroot, sys, Program.perform,
    Program.ofExcept_ok, Program.done_bind, Program.exec_bind, Program.run_exec, SysEnv.world, hread]
  cases t.read (manifestPath root) with
  | ok bytes =>
      simp only [rowsOf]
      cases Manifest.fromJsonBytes bytes <;> rfl
  | error e => cases e <;> rfl

theorem shareStatus_readOnly (given home : Option FilePath) : (shareStatus given home).Uses ReadOnly :=
  (Program.uses_ofExcept _ _).bind (fun _ =>
    ParticipantStore.loadManifest_readOnly.bind (fun _ => trivial))

omit [Age] in
theorem rowsOf_absent (h : t[manifestPath root]? = none) (hroot : t.missing root = .notFound) :
    rowsOf (t.read (manifestPath root)) = .ok [] := by
  have hmissing : t.missing (manifestPath root) = .notFound := by
    refine FileTree.missing_eq_notFound.mpr (fun q hne hq => ?_)
    rcases List.prefix_concat_iff.mp hq with rfl | hq
    · rw [FileTree.hasFile, ← manifestPath, h]
    · exact FileTree.missing_eq_notFound.mp hroot q hne hq
  have hread : t.read (manifestPath root) = .error .notFound := by
    rw [FileTree.read, h, hmissing]
    exact if_neg (by simp [manifestPath])
  rw [hread]
  rfl

/-- The rows of a root mirror its index. -/
theorem exists_rows (h : Holds root calls t) (hroot : calls = [] → t.missing root = .notFound) :
    ∃ rows, rowsOf (t.read (manifestPath root)) = .ok rows ∧ Mirrors (index calls) rows := by
  rcases h.manifest with ⟨rfl, habsent⟩ | ⟨bytes, m, hfile, hparse, hmirrors⟩
  · exact ⟨[], rowsOf_absent habsent (hroot rfl), rfl⟩
  · refine ⟨m.shares, ?_, hmirrors⟩
    rw [FileTree.read_eq_ok.mpr hfile, rowsOf, hparse]
    rfl

/-- After any successful puts to a root, and copies of it, the command prints one
    row for each tag that was put, with the state of its last put, and leaves the
    disk as it is. Without a put, no file may be in the place of the root or above it. -/
theorem share_status_lists (hlaws : RoundTrips) (h : Built root calls t)
    (hroot : calls = [] → t.missing root = .notFound) (hcalm : ∀ tick, env.fault tick = none)
    (home : Option FilePath) (tick : Nat) :
    ∃ rows, ((shareStatus (some root) home).run env.world ⟨t, tick⟩).result = .ok rows ∧
      ((shareStatus (some root) home).run env.world ⟨t, tick⟩).state.tree = t ∧
      rows.Pairwise (fun a b => a.key ≠ b.key) ∧ (∀ row ∈ rows, ∃ tag : ShareTag, row.key = tag.key) ∧
      ∀ (tag : ShareTag) (state : ShareState), (∃ row ∈ rows, row.key = tag.key ∧ row.state = state) ↔
        (latest (fun call => call.tag = tag) calls).map Put.state = some state := by
  obtain ⟨rows, hrows, hmirrors⟩ := exists_rows (h.holds hlaws) hroot
  have hmem : ∀ key state, (∃ row ∈ rows, row.key = key ∧ row.state = state) ↔
      ∃ x ∈ index calls, x.1.key = key ∧ x.2 = state := by
    intro key state
    have hpair := congrArg (fun xs => (key, state) ∈ xs) hmirrors
    simpa [Prod.ext_iff] using hpair
  refine ⟨rows, (run_shareStatus hcalm rfl tick).trans hrows,
    readOnly_tree (shareStatus_readOnly _ _) env ⟨t, tick⟩, ?_, ?_, ?_⟩
  · have hkeys : rows.map ShareEntry.key = (index calls).map (fun x => x.1.key) := by
      have hfirst := congrArg (List.map Prod.fst) hmirrors
      rwa [List.map_map, List.map_map] at hfirst
    have hunique : ((index calls).map (fun x => x.1.key)).Pairwise (· ≠ ·) :=
      List.pairwise_map.mpr ((unique_index calls).imp (fun hne => ShareTag.key_injective.ne hne))
    rw [← hkeys] at hunique
    exact List.pairwise_map.mp hunique
  · intro row hrow
    obtain ⟨x, -, hkey, -⟩ := (hmem row.key row.state).mp ⟨row, hrow, rfl, rfl⟩
    exact ⟨x.1, hkey.symm⟩
  · intro tag state
    rw [hmem, ← mem_index]
    constructor
    · rintro ⟨⟨tag', state'⟩, hx, hkey, rfl⟩
      cases ShareTag.key_injective hkey
      exact hx
    · exact fun hx => ⟨_, hx, rfl, rfl⟩

/-! ## After a key generation -/

variable [DecidableEq VerifyingKey] {key : Invocation} {d : Disk}

omit [DecidableEq VerifyingKey] in
theorem persistSeat_uses_seatPath (base : FilePath) (secret : Passphrase) (group : PublicKeyPackage)
    (seat : (Identifier × KeyPackage) × Nat) :
    (persistSeat base secret group seat).Uses (Replaces (SeatPath base)) := by
  have hbelow : ∀ name rest, SeatPath base (base ++ [seatDir (seat.2 + 1)] ++ name :: rest) :=
    fun name rest => ⟨_, name :: rest, isSeatName_seatDir _, List.append_assoc _ _ _⟩
  exact (ParticipantStore.putShare_uses (hbelow _ _) (hbelow _ _) (hbelow _ _) _ _ _).mapError _

omit [KeyCodec] [Json] [Age] [DecidableEq VerifyingKey] in
/-- The manifest of the base itself is no file of a seat. -/
theorem not_prefix_manifestPath_base {f : FilePath} (hf : SeatPath base f) : ¬ manifestPath base <+: f := by
  obtain ⟨name, rest, hname, rfl⟩ := hf
  intro hpre
  have hsame := List.prefix_append_right_inj base |>.mp hpre
  obtain rfl : "manifest.json" = name := (List.cons_prefix_cons.mp hsame).1
  exact absurd hname (by decide)

/-- A persisting key generation leaves the manifest of its base alone. -/
theorem Invocation.manifest_base (hpersists : key.PersistsAt base)
    (houtside : ∀ out ∈ key.args.out, out ≠ manifestPath base)
    (hok : (key.program.run env.world d).result = .ok ()) :
    (key.program.run env.world d).state.tree[manifestPath base]? = d.tree[manifestPath base]? := by
  obtain ⟨shares, group, secret, -, -, hprogram⟩ := Invocation.program_of_ok hpersists hok
  rw [hprogram] at hok ⊢
  obtain ⟨_, hloop, hout⟩ := Program.result_bind_ok hok
  have hframe : ((shares.toList.zipIdx.forM (persistSeat base secret group)).run env.world
      d).state.tree[manifestPath base]? = d.tree[manifestPath base]? := by
    refine SysM.frame (Program.Uses.mono (Program.Uses.forM fun seat _ =>
      persistSeat_uses_seatPath base secret group seat) (fun op hop => ?_)) env d
    exact hop.not_touches (not_temp_manifestPath base) (fun f hf => not_prefix_manifestPath_base hf)
  rw [Program.run_bind_ok hloop]
  unfold outStep at hout ⊢
  cases hargs : key.args.out with
  | none => exact hframe
  | some out =>
      rw [hargs] at hout
      obtain ⟨envelope, json, -, -, htree⟩ := writePublicEnvelope_ok hout
      rw [htree, BTreeMap.getElem?_insert, if_neg (houtside out hargs), hframe]

/-- After a persisting key generation the command prints the one share of a seat
    for each seat root, and nothing for the base that was given to both commands. -/
theorem share_status_after_keygen (hlaws : RoundTrips) (hpersists : key.PersistsAt base)
    (hwf : d.tree.WellFormed) (hfresh : NoSeats d.tree base) (hbare : d.tree[manifestPath base]? = none)
    (houtside : ∀ out ∈ key.args.out, ¬ SeatPath base out ∧ out ≠ manifestPath base)
    (hok : (key.program.run env.world d).result = .ok ()) {reader : SysEnv} {later : Disk}
    (hcalm : ∀ tick, reader.fault tick = none) (hlater : later.tree.WellFormed)
    (hkept : ∀ q, SeatPath base q ∨ q = manifestPath base → ¬ Temp q →
      later.tree[q]? = (key.program.run env.world d).state.tree[q]?) (given home : Option FilePath) :
    (∀ id : Identifier, id.scalar ≤ key.args.resolveTn.2.toNat →
        resolveRoot given home = .ok (seatRoot base id) →
          ∃ row, ((shareStatus given home).run reader.world later).result = .ok [row] ∧
            row.key = (seatTag id).key ∧ row.state = .active) ∧
      (resolveRoot given home = .ok base →
        ((shareStatus given home).run reader.world later).result = .ok []) := by
  obtain ⟨shares, group, secret, hceremony, -, hpersisted, -⟩ :=
    key.leaves hlaws hpersists hwf hfresh (fun out hout => (houtside out hout).1) hok
  have hpersisted := hpersisted.keep hlater (fun q hq => hkept q (Or.inl hq))
  obtain ⟨first, hseats⟩ : ∃ id : Identifier, later.tree[manifestPath (seatRoot base id)]? ≠ none := by
    have hconfirmed := runInprocessDkg_confirmed hceremony
    obtain ⟨id, hid⟩ := List.exists_mem_of_ne_nil _ (fun hnil => Option.some_ne_none _ (hconfirmed.group.mpr hnil))
    obtain ⟨kp, hkp⟩ := BTreeMap.mem_keys.mp ((hconfirmed.keys id).mpr hid)
    rcases (hpersisted.holds _ (BTreeMap.mem_toList.mpr hkp)).manifest with ⟨hnil, -⟩ | ⟨bytes, m, hfile, -⟩
    · cases hnil
    · exact ⟨id, by simp [hfile]⟩
  rw [manifestPath, seatRoot, List.append_assoc] at hseats
  constructor
  · intro id hid hroot
    have hseat : id ∈ shares.keys :=
      ((runInprocessDkg_confirmed hceremony).keys id).mpr
        ((mem_firstSeats key.args.resolveTn.2.toNat_lt).mpr hid)
    obtain ⟨kp, hkp⟩ := BTreeMap.mem_keys.mp hseat
    obtain ⟨rows, hrows, hmirrors⟩ := exists_rows (hpersisted.holds _ (BTreeMap.mem_toList.mpr hkp))
      (fun hnil => absurd hnil (List.cons_ne_nil _ _))
    have hone : index [seatPut secret group (id, kp)] = [(seatTag id, .active)] := rfl
    rw [hone, Mirrors, List.map_singleton] at hmirrors
    obtain ⟨row, rfl, hrow⟩ := List.map_eq_singleton_iff.mp hmirrors
    obtain ⟨hkey, hstate⟩ := Prod.mk.inj hrow
    exact ⟨row, (run_shareStatus hcalm hroot later.tick).trans hrows, hkey, hstate⟩
  · intro hroot
    refine (run_shareStatus hcalm hroot later.tick).trans (rowsOf_absent ?_ ?_)
    · rw [hkept _ (Or.inr rfl) (not_temp_manifestPath base),
        Invocation.manifest_base hpersists (fun out hout => (houtside out hout).2) hok]
      exact hbare
    · exact hlater.missing_of_node hseats

end Status

/-! ## Two roots -/

section Refreshed

open Store.Plain Cli.Quorum

/-- A root whose first share was retired lists both. -/
theorem share_status_lists_refreshed : ∃ rows,
    ((shareStatus (some firstRoot) none).run SysEnv.calm.world ⟨refreshedDisk.tree, 0⟩).result = .ok rows ∧
      ∃ row ∈ rows, row.key = firstTag.key ∧ row.state = .retired := by
  have hbuilt : Built firstRoot refreshed refreshedDisk.tree :=
    built_putAll (.empty (emptyRoot_empty firstRoot)) allOk_refreshed.1
  have hcalm : ∀ tick, SysEnv.calm.fault tick = none := fun _ => rfl
  have hlast : (latest (fun call => call.tag = firstTag) refreshed).map Put.state = some .retired := by
    decide +kernel
  obtain ⟨rows, hrows, -, -, -, hmem⟩ := share_status_lists roundTrips hbuilt
    (fun hnil => absurd hnil (List.cons_ne_nil _ _)) hcalm none 0
  exact ⟨rows, hrows, (hmem firstTag .retired).mpr hlast⟩

end Refreshed

section TwoSeats

open Cli.Plain Cli.TwoSeats

/-- The shares are stored below `b`, and `share-status --home b` prints none. -/
theorem share_status_after_keygen_treasury :
    ((shareStatus (some ["b"]) none).run SysEnv.calm.world keyRun.state).result = .ok [] ∧
      ∃ row, ((shareStatus (some ["b", "seat-0001"]) none).run SysEnv.calm.world keyRun.state).result =
        .ok [row] ∧ row.state = .active := by
  have hpersists : key.PersistsAt ["b"] := ⟨rfl, rfl⟩
  have houtside : ∀ out ∈ key.args.out, ¬ SeatPath ["b"] out ∧ out ≠ manifestPath ["b"] := by
    rintro out hout
    cases hout
    refine ⟨?_, by decide⟩
    rintro ⟨name, rest, -, h⟩
    exact absurd (List.cons.inj h).1 (by decide)
  have hok : (key.program.run SysEnv.calm.world ⟨∅, 0⟩).result = .ok () :=
    Except.eq_ok_of_isOk keyRun_ok
  have hwf : keyRun.state.tree.WellFormed := SysM.wellFormed _ _ FileTree.wellFormed_empty
  have hcalm : ∀ tick, SysEnv.calm.fault tick = none := fun _ => rfl
  have hstatus (given : Option FilePath) := share_status_after_keygen roundTrips hpersists
    FileTree.wellFormed_empty (noSeats_empty _) (by simp) houtside hok hcalm hwf
    (fun q _ _ => rfl) given none
  refine ⟨(hstatus _).2 rfl, ?_⟩
  have hroot : ["b", "seat-0001"] = seatRoot ["b"] Store.Plain.firstTag.seat := by decide +kernel
  obtain ⟨row, hrow, -, hstate⟩ :=
    (hstatus (some ["b", "seat-0001"])).1 Store.Plain.firstTag.seat (by decide) (congrArg Except.ok hroot)
  exact ⟨row, hrow, hstate⟩

end TwoSeats

end Cli
