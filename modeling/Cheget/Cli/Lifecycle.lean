-- SUMMARY: A key that was generated and persisted: the address that is printed for it, and the coins of that address that are signed for.
import Cheget.Bridge.OutputKey
import Cheget.Cli.Commands
import Cheget.Cli.Labels
import Cheget.Cli.Plain
import Cheget.Cli.RoundTrip

/-!
# The life of a key

Nothing but files connects the commands. `keygen` leaves the shares in their
seat roots and the group in the public envelope; as long as these files are
kept, `address` prints one address for the group, and `sign` signs for the coins
of that address, whatever else has happened to the disk in between.
-/

namespace Session

open Crypto

variable [Frost]

/-! ## Signing -/

/-- Seats that sign together do so without the others. -/
theorem SignsTogether.of_subset {keyPackages packages : BTreeMap Identifier KeyPackage}
    {group : PublicKeyPackage} {m : Nat} (h : SignsTogether keyPackages group m)
    (hsub : ∀ (id : Identifier) (kp : KeyPackage), packages[id]? = some kp → keyPackages[id]? = some kp) :
    SignsTogether packages group m := by
  have hhonest : ∀ r1 : Round1, r1.Honest packages → r1.Honest keyPackages := by
    intro r1 h
    refine ⟨fun id nonce hnonce => ?_, h.commitments⟩
    obtain ⟨kp, entropy, hkp, hnew⟩ := h.nonces id nonce hnonce
    exact ⟨kp, entropy, hsub id kp hkp, hnew⟩
  -- only the seats that hold nonces contribute a share
  have hshare : ∀ r1 : Round1, r1.Honest packages →
      ∀ id, r1.ownShare packages id = r1.ownShare keyPackages id := by
    intro r1 h id
    unfold Round1.ownShare
    cases hnonce : r1.nonces[id]? with
    | none => rfl
    | some nonce =>
        obtain ⟨kp, -, hkp, -⟩ := h.nonces id nonce hnonce
        rw [hkp, hsub id kp hkp]
  constructor
  · exact fun id kp entropy hkp => h.encodes id kp entropy (hsub id kp hkp)
  · exact fun r1 hr1 hm id nonce kp hnonce hkp =>
      h.signs r1 (hhonest r1 hr1) hm id nonce kp hnonce (hsub id kp hkp)
  · intro r1 hr1 hm shares hshares
    exact h.verifies r1 (hhonest r1 hr1) hm shares (fun id => (hshares id).trans (hshare r1 hr1 id))

end Session

namespace Bridge

open Chain Crypto Session

/-- The script of a group's address pushes the key that its signatures verify
    against. -/
theorem ReadsAs.scriptPubkey [Frost] [Taproot] [Build] {K V : Type} [Ring K] [AddCommGroup V] [Module K V]
    {curve : XOnlyCurve K V Bytes} {point : VerifyingKey → V} {xOf : XOnlyPublicKey → Bytes}
    (reads : ReadsAs curve point xOf) {group : PublicKeyPackage}
    (hgroup : point (FrostKeys.groupKey group) ≠ 0) {hrp : KnownHrp} {addr : Address}
    (h : addressFromGroupKey (FrostKeys.groupKey group) hrp = .ok addr) :
    Taproot.scriptPubkey addr = 0x51 :: 0x20 :: curve.x (point (outputKeyQ group)) := by
  obtain ⟨key, hkey, haddr⟩ := Except.bind_eq_ok.mp h
  cases haddr
  rw [reads.p2tr, reads.xOf_of_internalKeyXonly hgroup hkey, curve.liftX_eq hgroup,
    reads.point_outputKeyQ group hgroup]
  rfl

end Bridge

namespace Cli

open Bridge Chain Crypto Session Store Transport

/-! ## The files of a key -/

/-- The paths below what looks like a seat root. -/
def SeatPath (base q : FilePath) : Prop :=
  ∃ name rest, isSeatName name = true ∧ q = base ++ name :: rest

section Persisted

variable [KeyCodec] [Json] [Age] {base : FilePath} {env : SysEnv} {t t' : FileTree}
  {secret : Passphrase} {group : PublicKeyPackage} {seats chosen : List (Identifier × KeyPackage)}

/-- Only the files below the seat roots matter. -/
theorem Persisted.keep (h : Persisted base secret group seats t) (hwf : t'.WellFormed)
    (hkept : ∀ q, SeatPath base q → ¬ Temp q → t'[q]? = t[q]?) :
    Persisted base secret group seats t' := by
  constructor
  · exact hwf
  · intro seat hseat
    refine (h.holds seat hseat).copy (fun name rest htemp => ?_)
    have hpath : SeatPath base (seatRoot base seat.1 ++ name :: rest) :=
      ⟨_, name :: rest, isSeatName_seatDir seat.1.scalar, List.append_assoc _ _ _⟩
    exact hkept _ hpath htemp
  · intro name rest hname htemp hexists
    rw [hkept _ ⟨name, rest, hname, rfl⟩ htemp] at hexists
    exact h.only name rest hname htemp hexists

/-! ## Loading a quorum -/

variable (hcalm : ∀ tick, env.fault tick = none)

include hcalm

/-- The loop collects the shares of the roots that it is given. -/
theorem Persisted.run_loadSeats (hlaws : RoundTrips) (hdecrypts : Decrypts)
    (h : Persisted base secret group seats t) (hchosen : ∀ seat ∈ chosen, seat ∈ seats)
    (packages : BTreeMap Identifier KeyPackage) (tick : Nat) :
    (((chosen.map (fun seat => seatRoot base seat.1)).foldlM (loadSeat secret) packages).run env.world
        ⟨t, tick⟩).result =
      .ok (chosen.foldl (fun packages seat => packages.insert seat.1 seat.2) packages) := by
  induction chosen generalizing packages tick with
  | nil => rfl
  | cons seat chosen ih =>
      have hload : ((loadSeat secret packages (seatRoot base seat.1)).run env.world ⟨t, tick⟩).result =
          .ok (packages.insert seat.1 seat.2) := by
        have hactive := h.run_loadOnlyActive hlaws hdecrypts hcalm (hchosen seat List.mem_cons_self) tick
        have hstore : ((store (ParticipantStore.loadOnlyActive ⟨seatRoot base seat.1, .ok secret⟩)).run
            env.world ⟨t, tick⟩).result = .ok seat := by
          rw [store, Program.run_mapError, hactive, Except.mapError_ok]
        unfold loadSeat
        dsimp only
        rw [Program.run_bind_ok hstore]
        rfl
      have htree := readOnly_tree (loadSeat_readOnly secret packages (seatRoot base seat.1)) env ⟨t, tick⟩
      rw [List.map_cons, List.foldlM_cons, Program.run_bind_ok hload]
      generalize (Program.run env.world _ _).state = d' at htree ⊢
      obtain ⟨t', tick'⟩ := d'
      obtain rfl : t' = t := htree
      exact ih (fun seat hseat => hchosen seat (List.mem_cons_of_mem _ hseat)) _ tick'

theorem Persisted.act_readDir (hreadable : ∀ tick name, env.unreadable tick name = false)
    (h : Persisted base secret group seats t) {seat : Identifier × KeyPackage} (hseat : seat ∈ seats)
    (tick : Nat) : (env.act tick t (.readDir base)).1 = .ok ((t.names base).map .ok) := by
  simp [SysEnv.act, SysEnv.guarded, hcalm, hreadable, (h.dirs hseat).2]

omit hcalm in
/-- The roots that are taken are those of distinct seats. -/
theorem Persisted.take_seatRoots (h : Persisted base secret group seats t)
    (hids : (seats.map Prod.fst).Nodup) {k : Nat} (hle : k ≤ seats.length) :
    ∃ chosen : List (Identifier × KeyPackage), chosen.length = k ∧ (chosen.map Prod.fst).Nodup ∧
      (∀ seat ∈ chosen, seat ∈ seats) ∧
      (Cli.seatRoots base ((t.names base).map .ok)).take k =
        chosen.map (fun seat => seatRoot base seat.1) := by
  obtain ⟨hlength, hnodup, hroots⟩ := h.seatRoots hids
  have hchosen : ∀ roots : List FilePath, (∀ root ∈ roots, ∃ seat ∈ seats, root = seatRoot base seat.1) →
      ∃ chosen : List (Identifier × KeyPackage), (∀ seat ∈ chosen, seat ∈ seats) ∧
        roots = chosen.map (fun seat => seatRoot base seat.1) := by
    intro roots
    induction roots with
    | nil => exact fun _ => ⟨[], by simp, rfl⟩
    | cons root roots ih =>
        intro hroots
        obtain ⟨seat, hseat, rfl⟩ := hroots root List.mem_cons_self
        obtain ⟨chosen, hsub, rfl⟩ := ih (fun root hroot => hroots root (List.mem_cons_of_mem _ hroot))
        exact ⟨seat :: chosen, List.forall_mem_cons.mpr ⟨hseat, hsub⟩, rfl⟩
  obtain ⟨chosen, hsub, htake⟩ := hchosen _ (fun root hroot => hroots root (List.mem_of_mem_take hroot))
  refine ⟨chosen, ?_, ?_, hsub, htake⟩
  · have hsame := congrArg List.length htake
    rw [List.length_take_of_le (hlength.symm ▸ hle), List.length_map] at hsame
    exact hsame.symm
  · have hdistinct := hnodup.sublist (List.take_sublist k _)
    rw [htake] at hdistinct
    exact List.Nodup.of_map (seatRoot base) (by rwa [List.map_map])

/-- A quorum of the seats loads, and with it the group. -/
theorem Persisted.exists_loadPersistedShares (hlaws : RoundTrips) (hdecrypts : Decrypts)
    (hreadable : ∀ tick name, env.unreadable tick name = false)
    (h : Persisted base secret group seats t) (hids : (seats.map Prod.fst).Nodup) {k : UInt16}
    (hpos : 0 < k.toNat) (hle : k.toNat ≤ seats.length) (tick : Nat) :
    ∃ chosen : List (Identifier × KeyPackage), chosen.length = k.toNat ∧
      (chosen.map Prod.fst).Nodup ∧ (∀ seat ∈ chosen, seat ∈ seats) ∧
      ((loadPersistedShares base k (.ok secret)).run env.world ⟨t, tick⟩).result =
        .ok (Std.ExtTreeMap.ofList chosen compare, group) := by
  obtain ⟨chosen, hlength, hdistinct, hsub, htake⟩ := h.take_seatRoots hids hle
  refine ⟨chosen, hlength, hdistinct, hsub, ?_⟩
  obtain ⟨first, rest, rfl⟩ := List.exists_cons_of_length_pos (hlength ▸ hpos)
  have hfirst := hsub first List.mem_cons_self
  have hlist := h.act_readDir hcalm hreadable hfirst tick
  have henough : k.toNat ≤ (Cli.seatRoots base ((t.names base).map .ok)).length :=
    (h.seatRoots hids).1.symm ▸ hle
  have hactive : ∀ root ∈ (first :: rest).map (fun seat => seatRoot base seat.1), ∃ seat, ∀ tick,
      ((ParticipantStore.loadOnlyActive ⟨root, .ok secret⟩).run env.world ⟨t, tick⟩).result = .ok seat := by
    intro root hroot
    obtain ⟨seat, hseat, rfl⟩ := List.mem_map.mp hroot
    exact ⟨seat, fun tick => h.run_loadOnlyActive hlaws hdecrypts hcalm (hsub seat hseat) tick⟩
  have hgroup : latest (fun call => call.tag.keyId = .active ∧ call.tag.epoch = .genesis)
      [seatPut secret group first] = some (seatPut secret group first) := by
    simp [latest, seatPut, seatTag]
  obtain ⟨envelope, hdecode, henvelope⟩ :=
    (h.holds first hfirst).run_loadPublicEnvelope hcalm hgroup (.ok secret)
  obtain ⟨packages, hload⟩ := run_loadPersistedShares (d := ⟨t, tick⟩) hlist henough htake hactive
    henvelope hdecode
  -- the packages are what the loop over these roots has collected
  obtain ⟨first', rest', secret', hselected, -, hsecret, ⟨tick', hloop⟩, -⟩ := loadPersistedShares_ok hload
  have hroots : selectedRoots env ⟨t, tick⟩ base k = (first :: rest).map (fun seat => seatRoot base seat.1) := by
    rw [selectedRoots, hlist]
    exact htake
  cases hsecret
  rw [← hselected, hroots, h.run_loadSeats hcalm hlaws hdecrypts hsub] at hloop
  cases hloop
  rw [hload, Std.ExtTreeMap.ofList_eq_foldl]
  rfl

end Persisted

/-! ## What a key generation leaves -/

/-- A file holds an envelope of the group. -/
def HoldsEnvelope [KeyCodec] [Json] (group : PublicKeyPackage) (t : FileTree) (out : FilePath) : Prop :=
  ∃ envelope json, envelope.decodePackage = .ok group ∧ Json.envelopeFromSlice json = .ok envelope ∧
    t[out]? = some (.file json)

namespace Invocation

variable [KeyCodec] [Json] [Age] [DecidableEq VerifyingKey] {self : Invocation} {base : FilePath}
  {env : SysEnv} {d : Disk}

theorem nodup_of_ceremony {shares : BTreeMap Identifier KeyPackage} {group : PublicKeyPackage}
    (h : self.ceremony = .ok (shares, group)) :
    (shares.toList.map Prod.fst).Nodup ∧ shares.toList.length = self.args.resolveTn.2.toNat := by
  constructor
  · exact List.pairwise_map.mpr ((BTreeMap.pairwise_toList shares).imp (fun hlt => hlt.ne))
  · have hlength := congrArg List.length (runInprocessDkg_toList h)
    rwa [List.length_map, List.length_range'] at hlength

/-- A persisting invocation that returns leaves the shares in their roots, and the
    group in the public envelope. -/
theorem leaves (hlaws : RoundTrips) (hpersists : self.PersistsAt base) (hwf : d.tree.WellFormed)
    (hfresh : NoSeats d.tree base) (houtside : ∀ out ∈ self.args.out, ¬ SeatPath base out)
    (hok : (self.program.run env.world d).result = .ok ()) :
    ∃ shares group secret, self.ceremony = .ok (shares, group) ∧ self.passphrase = .ok secret ∧
      Persisted base secret group shares.toList (self.program.run env.world d).state.tree ∧
      ∀ out ∈ self.args.out, HoldsEnvelope group (self.program.run env.world d).state.tree out := by
  have hwf' := SysM.wellFormed self.program env hwf
  obtain ⟨shares, group, secret, hceremony, hsecret, hprogram⟩ := program_of_ok hpersists hok
  refine ⟨shares, group, secret, hceremony, hsecret, ?_⟩
  rw [hprogram] at hok hwf' ⊢
  obtain ⟨_, hloop, hout⟩ := Program.result_bind_ok hok
  rw [Program.run_bind_ok hloop] at hwf' ⊢
  have hpersist : persistDkgShares self.input base self.args.resolveTn.1 self.args.resolveTn.2 (.ok secret) =
      (shares.toList.zipIdx.forM (persistSeat base secret group) >>= fun _ => pure (shares, group)) := by
    have hdkg : runInprocessDkg self.input self.args.resolveTn.1 self.args.resolveTn.2 =
        .ok (shares, group) := hceremony
    simp only [persistDkgShares, hdkg, lift, Except.mapError_ok, Program.ofExcept_ok, Program.done_bind]
  have hpersisted : Persisted base secret group shares.toList
      ((shares.toList.zipIdx.forM (persistSeat base secret group)).run env.world d).state.tree := by
    have hrun : ((persistDkgShares self.input base self.args.resolveTn.1 self.args.resolveTn.2
        (.ok secret)).run env.world d).result = .ok (shares, group) := by
      rw [hpersist, Program.run_bind_ok hloop]
      rfl
    obtain ⟨secret', hsecret', -, hpersisted⟩ := persistDkgShares_ok hlaws hwf hfresh hrun
    cases hsecret'
    rw [hpersist, Program.run_bind_ok hloop] at hpersisted
    exact hpersisted
  generalize ((shares.toList.zipIdx.forM (persistSeat base secret group)).run env.world d).state = d₁
    at hout hwf' hpersisted ⊢
  unfold outStep at hout hwf' ⊢
  cases hargs : self.args.out with
  | none =>
      refine ⟨hpersisted, fun out hmem => ?_⟩
      cases hmem
  | some out =>
      rw [hargs] at hout hwf'
      obtain ⟨envelope, json, hfrom, hjson, htree⟩ := writePublicEnvelope_ok hout
      constructor
      · refine hpersisted.keep hwf' (fun q hseat _ => ?_)
        have hne : out ≠ q := fun heq => houtside out hargs (heq ▸ hseat)
        rw [htree, BTreeMap.getElem?_insert, if_neg hne]
      · rintro out' hmem
        cases hmem
        refine ⟨envelope, json, decodePackage_fromPackage hlaws hfrom, hlaws.envelope _ _ hjson, ?_⟩
        rw [htree, BTreeMap.getElem?_insert, if_pos rfl]

end Invocation

/-! ## The commands afterwards -/

section Address

variable [KeyCodec] [Json] [Taproot] [Build]

/-- `address` prints the address of the group in the envelope. -/
theorem run_addressFromPubkeyFile {group : PublicKeyPackage} {env : SysEnv} {d : Disk} {out : FilePath}
    (hcalm : ∀ tick, env.fault tick = none) (h : HoldsEnvelope group d.tree out) (network : Network) :
    ((addressFromPubkeyFile out network).run env.world d).result =
      (addressFromGroupKey (FrostKeys.groupKey group) (knownHrp network)).mapError
        (Abort.map .bridge) := by
  obtain ⟨envelope, json, hdecode, hparse, hfile⟩ := h
  have hread : (env.act d.tick d.tree (.read out)).1 = .ok json := by
    rw [SysEnv.act_read (hcalm d.tick)]
    exact FileTree.read_eq_ok.mpr hfile
  simp only [addressFromPubkeyFile, sys, Program.perform, Program.exec_bind, Program.run_exec,
    Program.done_bind, SysEnv.world, hread, hparse, hdecode, Except.mapError_ok, Program.ofExcept_ok]
  rw [Program.run_ofExcept]

end Address

section Sign

variable [FrostLibrary] [Json] [Age] [PsbtDecoder] [DecidableEq VerifyingKey]

/-- No system call of the machine fails. -/
structure Shell.Calm (shell : Shell) : Prop where
  fault : ∀ tick, shell.env.fault tick = none
  readable : ∀ tick name, shell.env.unreadable tick name = false

/-- The command is to sign with a key below a base, under a threshold that the
    key allows. -/
structure SignArgs.For (args : SignArgs) (given : Option FilePath) (shell : Shell) (key : Invocation)
    (base : FilePath) : Prop where
  persist : args.persist = true
  root : resolveRoot given shell.home = .ok base
  passphrase : shell.passphrase = key.passphrase
  threshold : key.args.resolveTn.1 ≤ args.resolveTn.1
  seats : args.resolveTn.1 ≤ key.args.resolveTn.2
  counts : args.resolveTn.1 ≠ 0 ∧ args.resolveTn.1 ≤ args.resolveTn.2
  ack : args.yes = true ∨ shell.promptAck = true

/-- The command obtains a quorum of the seats of the key. -/
theorem SignArgs.For.keyMaterial {args : SignArgs} {given : Option FilePath} {shell : Shell}
    {key : Invocation} {base : FilePath} (h : args.For given shell key base) (hlaws : RoundTrips)
    (hdecrypts : Decrypts) (hcalm : shell.Calm) {shares : BTreeMap Identifier KeyPackage}
    {group : PublicKeyPackage} {secret : Passphrase} (hceremony : key.ceremony = .ok (shares, group))
    (hsecret : key.passphrase = .ok secret)
    (hpersisted : Persisted base secret group shares.toList shell.disk.tree) :
    ∃ packages : BTreeMap Identifier KeyPackage, packages.size = args.resolveTn.1.toNat ∧
      (∀ (id : Identifier) (kp : KeyPackage), packages[id]? = some kp → shares[id]? = some kp) ∧
      args.keyMaterial (shell.signInputs args given) = .ok (packages, group) := by
  obtain ⟨hids, hlength⟩ := key.nodup_of_ceremony hceremony
  have hpos : 0 < args.resolveTn.1.toNat := by
    refine Nat.pos_of_ne_zero (fun hzero => h.counts.1 ?_)
    exact UInt16.toNat_inj.mp hzero
  have hle : args.resolveTn.1.toNat ≤ shares.toList.length := by
    rw [hlength]
    exact h.seats
  have htree := shell.afterPsbt_tree args
  obtain ⟨chosen, hsize, hdistinct, hsub, hload⟩ := hpersisted.exists_loadPersistedShares hcalm.fault
    hlaws hdecrypts hcalm.readable hids hpos hle (shell.afterPsbt args).tick
  rw [← htree] at hload
  refine ⟨.ofList chosen compare, (BTreeMap.size_ofList hdistinct).trans hsize, ?_, ?_⟩
  · intro id kp hkp
    exact BTreeMap.mem_toList.mp (hsub _ (BTreeMap.mem_of_getElem?_ofList hkp))
  · rw [SignArgs.keyMaterial, if_pos h.persist]
    simp only [Shell.signInputs, loadStoredShares, h.root, h.passphrase, hsecret, lift,
      Except.mapError_ok, Program.ofExcept_ok, Program.done_bind]
    rw [hload, Except.mapError_ok]

end Sign

/-! ## Spending -/

/-- A PSBT that names all its coins, within the range of amounts. -/
structure Complete [Bitcoin] (psbt : Psbt) : Prop where
  inputs : psbt.inputs.length = psbt.unsignedTx.input.length
  utxos : ∀ input ∈ psbt.inputs, input.witnessUtxo.isSome
  inputTotal : total ((psbt.inputs.filterMap PsbtInput.witnessUtxo).map TxOut.value) < UInt64.size
  outputTotal : total (psbt.unsignedTx.output.map TxOut.value) < UInt64.size
  hashes : ∀ i prevouts, i < psbt.unsignedTx.input.length →
    prevouts.length = psbt.unsignedTx.input.length →
      ∃ sighash, keySpendSighash psbt.unsignedTx i prevouts = .ok sighash

section Spending

variable [FrostLibrary] [Json] [Age] [PsbtDecoder] [DecidableEq VerifyingKey] [Taproot] [Bitcoin] [Build]
  {K V : Type} [Ring K] [AddCommGroup V] [Module K V] {curve : XOnlyCurve K V Bytes}
  {point : VerifyingKey → V} {xOf : XOnlyPublicKey → Bytes}

/-- Input `i` of the transaction spends its coin by the key path: the coin's script
    pushes a key, and the only witness element is a signature of that key over the
    input's sighash. -/
def KeyPathSpend (curve : XOnlyCurve K V Bytes) (point : VerifyingKey → V) (psbt : Psbt)
    (tx : Transaction) (i : Nat) : Prop :=
  ∃ (key : VerifyingKey) (prevouts : List TxOut) (coin : TxOut) (sighash : TapSighash) (sig : Signature)
      (bytes : Vector UInt8 64),
    psbt.inputs.map PsbtInput.witnessUtxo = prevouts.map some ∧ prevouts[i]? = some coin ∧
    coin.scriptPubkey = 0x51 :: 0x20 :: curve.x (point key) ∧
    keySpendSighash psbt.unsignedTx i prevouts = .ok sighash ∧
    Frost.verify key sighash.toList sig = .ok () ∧
    Frost.serializeSignature sig = .ok bytes.toList ∧
    tx.input[i]?.map TxIn.witness = some [bytes.toList]

/-- What is assumed of the ceremony's outcome: the seats sign together from the
    threshold on, and the group key is an even point. -/
structure Invocation.Generates (key : Invocation) (curve : XOnlyCurve K V Bytes)
    (point : VerifyingKey → V) : Prop where
  together : ∀ shares group, key.ceremony = .ok (shares, group) →
    SignsTogether shares group key.args.resolveTn.1.toNat
  even : ∀ shares group, key.ceremony = .ok (shares, group) →
    point (FrostKeys.groupKey group) ≠ 0 ∧ curve.evenY (point (FrostKeys.groupKey group)) = true

variable {key : Invocation} {base out : FilePath} {shell : Shell} {args : SignArgs}
  {given : Option FilePath} {psbt : Psbt}

omit [PsbtDecoder] [DecidableEq VerifyingKey] [Taproot] [Build] in
/-- The session over a quorum of the key is ready. -/
theorem SignArgs.For.ready (h : args.For given shell key base) (hcodec : Codec)
    (hcomplete : Complete psbt) {shares packages : BTreeMap Identifier KeyPackage}
    {group : PublicKeyPackage} (htogether : SignsTogether shares group key.args.resolveTn.1.toNat)
    (hsize : packages.size = args.resolveTn.1.toNat)
    (hsub : ∀ (id : Identifier) (kp : KeyPackage), packages[id]? = some kp → shares[id]? = some kp) :
    (args.newSession packages group psbt).Ready key.args.resolveTn.1.toNat where
  codec := hcodec
  together := htogether.of_subset hsub
  roster := by
    have hlt := args.resolveTn.1.toNat_lt
    have hpackages : (args.newSession packages group psbt).keyPackages.size = packages.size := rfl
    omega
  threshold := h.threshold
  enough := hsize.ge
  unspent := rfl
  inputs := hcomplete.inputs
  utxos := hcomplete.utxos
  inputTotal := hcomplete.inputTotal
  outputTotal := hcomplete.outputTotal
  hashes := hcomplete.hashes

/-- After a persisting key generation on a base without seats, as long as its
    files are kept: `address` prints one address from the public envelope, which
    is the one that `sign --persist` prints, and `sign` returns the transaction of
    a complete PSBT in which every coin of that address is spent by the key path. -/
theorem persisted_key_spends (reads : ReadsAs curve point xOf) (hlaws : RoundTrips) (hdecrypts : Decrypts)
    (hcodec : Codec) {env : SysEnv} {d : Disk} (hpersists : key.PersistsAt base)
    (hout : key.args.out = some out) (houtside : ¬ SeatPath base out) (hwf : d.tree.WellFormed)
    (hfresh : NoSeats d.tree base) (hok : (key.program.run env.world d).result = .ok ())
    (hgenerates : key.Generates curve point) (hcalm : shell.Calm) (hlater : shell.disk.tree.WellFormed)
    (hkept : ∀ q, SeatPath base q → ¬ Temp q →
      shell.disk.tree[q]? = (key.program.run env.world d).state.tree[q]?)
    (hfor : args.For given shell key base) (hcomplete : Complete psbt) {path : String}
    (hpath : args.psbt = some path)
    (hread : (shell.signInputs args given).readPsbt path = .ok psbt) (entropy : Nat → Entropy)
    (hfree : CollisionFree {e | e ∈ published
      ((args.run (shell.signInputs args given)).run Host.world ⟨.new, entropy, 0⟩).trace}) :
    ∃ addr tx,
      (∀ (reader : SysEnv) (disk : Disk), (∀ tick, reader.fault tick = none) →
        disk.tree[out]? = (key.program.run env.world d).state.tree[out]? →
          ((addressFromPubkeyFile out args.network).run reader.world disk).result = .ok addr) ∧
      (∃ packages group, args.Obtains (shell.signInputs args given) psbt packages group addr) ∧
      ((args.run (shell.signInputs args given)).run Host.world ⟨.new, entropy, 0⟩).result = .ok tx ∧
      tx.SameUpToWitnesses psbt.unsignedTx ∧
      ∀ i input, psbt.inputs[i]? = some input → PaysTo addr input →
        KeyPathSpend curve point psbt tx i := by
  obtain ⟨shares, group, secret, hceremony, hsecret, hpersisted, hfile⟩ := key.leaves hlaws hpersists hwf
    hfresh (fun out' hmem => Option.some.inj (hout.symm.trans hmem) ▸ houtside) hok
  obtain ⟨packages, hsize, hsub, hkeys⟩ := hfor.keyMaterial hlaws hdecrypts hcalm hceremony hsecret
    (hpersisted.keep hlater hkept)
  obtain ⟨hpoint, heven⟩ := hgenerates.even shares group hceremony
  obtain ⟨addr, haddr, -⟩ := reads.exists_addressFromGroupKey hpoint heven (knownHrp args.network)
  have hobtains : args.Obtains (shell.signInputs args given) psbt packages group addr :=
    ⟨⟨path, hpath, hread⟩, hkeys, haddr⟩
  have hready := hfor.ready hcodec hcomplete (hgenerates.together shares group hceremony) hsize hsub
  -- the command runs the session over the quorum
  obtain ⟨summary, hsummary⟩ := hready.signable.summary
  have hseats : args.resolveTn.2 ≠ 0 := by
    intro hzero
    have hle := hfor.counts.2
    rw [hzero] at hle
    exact hfor.counts.1 (UInt16.le_zero_iff.mp hle)
  have hsession := (prepare_eq_ok hobtains).mpr ⟨rfl, ⟨hfor.counts.1, hseats, hfor.counts.2⟩,
    ⟨summary, preview_eq_ok.mpr ⟨_, hready.prevouts_eq, hsummary⟩⟩, hfor.ack⟩
  rw [run_prepared hsession] at hfree ⊢
  obtain ⟨tx, -, htx, -⟩ := SigningSession.signAll_honest (s := ⟨.new, entropy, 0⟩) hready.signable
    hready.unspent hready.enough (fun e he => absurd he (InMemoryTransport.holds_new e))
    (hfree.mono (fun e he => he.resolve_left (InMemoryTransport.holds_new e)))
  obtain ⟨hsame, hsigned⟩ := SigningSession.signAll_sound htx
  refine ⟨addr, tx, ?_, ⟨packages, group, hobtains⟩, ?_, hsame, ?_⟩
  · intro reader disk hquiet htree
    obtain ⟨envelope, json, hdecode, hparse, hjson⟩ := hfile out hout
    rw [run_addressFromPubkeyFile hquiet ⟨envelope, json, hdecode, hparse, htree.trans hjson⟩, haddr]
    rfl
  · rw [htx]
    rfl
  · rintro i input hinput ⟨coin, hcoin, hscript⟩
    have hi : i < psbt.unsignedTx.input.length := by
      rw [← hcomplete.inputs]
      exact (List.getElem?_eq_some_iff.mp hinput).1
    obtain ⟨prevouts, sighash, sig, bytes, hprevouts, hhash, hverify, hserialize, hwitness⟩ := hsigned i hi
    refine ⟨outputKeyQ group, prevouts, coin, sighash, sig, bytes, hprevouts, ?_, ?_, hhash, hverify,
      hserialize, hwitness⟩
    · have hget := congrArg (fun xs => xs[i]?) hprevouts
      simp only [List.getElem?_map] at hget
      have hinput' : (args.newSession packages group psbt).psbt.inputs[i]? = some input := hinput
      rw [hinput', Option.map_some, hcoin] at hget
      obtain ⟨coin', hcoin', hsome⟩ := Option.map_eq_some_iff.mp hget.symm
      cases hsome
      exact hcoin'
    · rw [hscript]
      exact reads.scriptPubkey hpoint haddr

end Spending

/-! ## Two of two seats -/

namespace TwoSeats

open Cli.Plain

/-- Two of two seats below `b`, and the group in `group.json`. -/
def key : Invocation where
  input := ⟨evenPoint, [], []⟩
  home := none
  passphrase := .ok (9 : UInt8)
  args := ⟨some 2, some 2, false, "treasury", some ["group.json"], true, some ["b"]⟩

def keyRun : Program.Run SysOp SysOp.Resp Disk (Abort CliError) Unit :=
  key.program.run SysEnv.calm.world ⟨∅, 0⟩

/-- The script that pushes the output key of the group. -/
def script : ScriptBuf := 0x51 :: 0x20 :: Bridge.Plain.square (outputKeyQ evenPoint)

/-- A spend of two coins of the group. -/
def spend : Psbt :=
  ⟨Session.Plain.psbt.unsignedTx, [⟨some ⟨500, script⟩⟩, ⟨some ⟨500, script⟩⟩]⟩

scoped instance : PsbtDecoder where
  Error := Unit
  deserialize _ := .ok spend

/-- A file of the wallet's, written after the key generation. -/
def walletFile : SysM Empty Unit := do
  let _ ← sys (.createTruncate ["spend.psbt"])

/-- `sign --persist` on that disk. -/
def shell : Shell where
  env := SysEnv.calm
  disk := (walletFile.run SysEnv.calm.world keyRun.state).state
  resolve name := [name]
  home := none
  passphrase := .ok (9 : UInt8)
  input := key.input
  promptAck := false

def args : SignArgs := ⟨none, some "spend.psbt", some 2, some 2, false, .regtest, true, true⟩

/-- What the session draws: a count of the draws. -/
def entropy (i : Nat) : Entropy := ([UInt8.ofNat i] : Bytes)

def signRun : Program.Run Op Op.Resp Host (Abort (SignError SignInputError)) Transaction :=
  (args.run (shell.signInputs args (some ["b"]))).run Host.world ⟨.new, entropy, 0⟩

theorem keyRun_ok : keyRun.result.isOk = true := by
  decide +kernel

/-- Every package of the ceremony carries its own identifier, and the group is the
    even point. -/
theorem ceremony_key : ∀ out ∈ key.ceremony.toOption,
    (∀ seat ∈ out.1.toList, seat.2.1 = seat.1) ∧ out.2 = evenPoint := by
  decide +kernel

theorem address_key : ((addressFromPubkeyFile ["group.json"] .regtest).run SysEnv.calm.world
    keyRun.state).result.toOption = some script := by
  decide +kernel

theorem readPsbt_spend :
    ((shell.signInputs args (some ["b"])).readPsbt "spend.psbt").toOption = some spend := by
  decide +kernel

theorem signRun_ids : ∀ a ∈ published signRun.trace, ∀ b ∈ published signRun.trace,
    a.id = b.id → a = b := by
  decide +kernel

theorem generates_key : key.Generates Bridge.Plain.sevenPoints (fun vk => vk) where
  together := by
    intro shares group h
    refine signsTogether group _ (fun id kp hkp => ?_)
    exact (ceremony_key _ (Except.toOption_eq_some.mpr h)).1 _ (BTreeMap.mem_toList.mpr hkp)
  even := by
    intro shares group h
    obtain rfl : group = evenPoint := (ceremony_key _ (Except.toOption_eq_some.mpr h)).2
    decide +kernel

theorem complete_spend : Complete spend where
  inputs := rfl
  utxos := by decide
  inputTotal := by decide
  outputTotal := by decide
  hashes i prevouts hi hprevouts := Session.Plain.sighash_exists hi hprevouts

/-- The wallet's file is not one of a seat. -/
theorem kept_shell {q : FilePath} (hq : SeatPath ["b"] q) :
    shell.disk.tree[q]? = keyRun.state.tree[q]? := by
  refine SysM.frame (p := walletFile) ⟨?_, fun _ => trivial⟩ _ _
  obtain ⟨name, rest, -, rfl⟩ := hq
  simp [SysOp.Touches]

theorem for_key : args.For (some ["b"]) shell key ["b"] where
  persist := rfl
  root := rfl
  passphrase := rfl
  threshold := by decide
  seats := by decide
  counts := by decide
  ack := Or.inl rfl

/-- Both coins of the group are spent. -/
theorem persisted_key_spends_treasury : ∃ tx, signRun.result = .ok tx ∧
    KeyPathSpend Bridge.Plain.sevenPoints (fun vk => vk) spend tx 0 ∧
    KeyPathSpend Bridge.Plain.sevenPoints (fun vk => vk) spend tx 1 := by
  have hok : (key.program.run SysEnv.calm.world ⟨∅, 0⟩).result = .ok () :=
    Except.eq_ok_of_isOk keyRun_ok
  have hpersists : key.PersistsAt ["b"] := ⟨rfl, rfl⟩
  have hout : key.args.out = some ["group.json"] := rfl
  have houtside : ¬ SeatPath ["b"] ["group.json"] := by
    rintro ⟨name, rest, -, h⟩
    exact absurd (List.cons.inj h).1 (by decide)
  have hcalm : shell.Calm := ⟨fun _ => rfl, fun _ _ => rfl⟩
  have hlater : shell.disk.tree.WellFormed :=
    SysM.wellFormed _ _ (SysM.wellFormed _ _ FileTree.wellFormed_empty)
  have hpath : args.psbt = some "spend.psbt" := rfl
  have hids := signRun_ids
  rw [signRun] at hids ⊢
  obtain ⟨addr, tx, haddr, -, htx, -, hspend⟩ := persisted_key_spends readsAs roundTrips decrypts codec
    hpersists hout houtside FileTree.wellFormed_empty (noSeats_empty _) hok generates_key hcalm hlater
    (fun q hq _ => kept_shell hq) for_key complete_spend hpath (Except.toOption_eq_some.mp readPsbt_spend)
    entropy (collisionFree_list hids)
  have hscript : addr = script := by
    have h := haddr SysEnv.calm keyRun.state (fun _ => rfl) rfl
    exact Option.some.inj ((Except.toOption_eq_some.mpr h).symm.trans address_key)
  have hpays : PaysTo addr ⟨some ⟨500, script⟩⟩ := ⟨_, rfl, hscript ▸ rfl⟩
  exact ⟨tx, htx, hspend 0 _ rfl hpays, hspend 1 _ rfl hpays⟩

end TwoSeats

end Cli
