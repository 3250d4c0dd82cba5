-- SUMMARY: A quorum that is loaded after its key was persisted is the one that was generated.
import Cheget.Base.WellFormed
import Cheget.Cli.Quorum
import Cheget.Cli.Runs

/-!
# Persisting and loading

A run that returns has built one root for each seat of its ceremony, and nothing
else below the base looks like one. The loader then finds the first of them in
the order of their names, and in each the share that was put there.
-/

namespace Cli

open Crypto Store

section RoundTrip

variable [KeyCodec] [Json] [Age] {base : FilePath} {env : SysEnv} {d : Disk} {t : FileTree}
  {secret : Passphrase} {group : PublicKeyPackage}

/-! ## What a run has built -/

/-- The put of one seat. -/
def seatPut (secret : Passphrase) (group : PublicKeyPackage) (seat : Identifier × KeyPackage) : Put :=
  ⟨.ok secret, seatTag seat.1, seat.2, group, .active⟩

/-- What the run has made of the base when it has persisted the seats `done`. -/
structure Persisted (base : FilePath) (secret : Passphrase) (group : PublicKeyPackage)
    (done : List (Identifier × KeyPackage)) (t : FileTree) : Prop where
  wellFormed : t.WellFormed
  holds : ∀ seat ∈ done, Holds (seatRoot base seat.1) [seatPut secret group seat] t
  only : ∀ name rest, isSeatName name = true → ¬ Temp (base ++ name :: rest) →
    t[base ++ name :: rest]? ≠ none → ∃ seat ∈ done, name = seatDir seat.1.scalar

/-- The files of a seat are not below what another name stands for. -/
theorem not_prefix_files {secret : Passphrase} {group : PublicKeyPackage}
    {seat : Identifier × KeyPackage} {name : String} {rest : FilePath}
    (hne : name ≠ seatDir seat.1.scalar) :
    ∀ f ∈ (seatPut secret group seat).files (seatRoot base seat.1), ¬ base ++ name :: rest <+: f := by
  intro f hf hpre
  have hroot : seatRoot base seat.1 <+: f := by
    simp only [Put.files, List.mem_cons, List.not_mem_nil, or_false] at hf
    rcases hf with rfl | rfl | rfl
    · exact List.prefix_append _ _
    · exact List.prefix_append _ _
    · exact List.prefix_append _ _
  have hdir : base ++ [name] <+: base ++ name :: rest := ⟨rest, by simp⟩
  have hname : base ++ [name] <+: f := hdir.trans hpre
  have hsame : base ++ [name] = seatRoot base seat.1 :=
    (List.prefix_of_prefix_length_le hname hroot (by simp [seatRoot])).eq_of_length (by simp [seatRoot])
  exact hne (List.cons.inj (List.append_cancel_left hsame)).1

theorem Persisted.put (hlaws : RoundTrips) {done : List (Identifier × KeyPackage)}
    (h : Persisted base secret group done d.tree) {seat : Identifier × KeyPackage}
    (hfresh : ∀ other ∈ done, other.1 ≠ seat.1)
    (hok : (((seatPut secret group seat).program (seatRoot base seat.1)).run env.world d).result =
      .ok ()) :
    Persisted base secret group (done ++ [seat])
      (((seatPut secret group seat).program (seatRoot base seat.1)).run env.world d).state.tree := by
  have hempty : Holds (seatRoot base seat.1) [] d.tree := by
    refine Holds.empty (fun name rest htemp => ?_)
    by_contra hexists
    rw [seatRoot, List.append_assoc] at htemp hexists
    obtain ⟨other, hother, hname⟩ := h.only _ _ (isSeatName_seatDir seat.1.scalar) htemp hexists
    exact hfresh other hother (Identifier.scalar_injective (seatDir_injective hname)).symm
  have hself := hempty.put hlaws (fun m hm => hempty.expects_first hm) hok
  have hwrote := wrote_ok ((seatPut secret group seat).keeps_wrote (P := Manifest.Known) hlaws
    (fun _ hm => hm) (fun _ hm => hm.finds.known) (fun _ _ hm => hm))
    (seatPut secret group seat).emits_files hok
  have hwf := SysM.wellFormed ((seatPut secret group seat).program (seatRoot base seat.1)) env
    h.wellFormed
  generalize (((seatPut secret group seat).program (seatRoot base seat.1)).run env.world d).state = d'
    at hself hwrote hwf
  have hkept : ∀ name rest, name ≠ seatDir seat.1.scalar → ¬ Temp (base ++ name :: rest) →
      d'.tree[base ++ name :: rest]? = d.tree[base ++ name :: rest]? := by
    intro name rest hne htemp
    have hnot : ∀ f ∈ (seatPut secret group seat).files (seatRoot base seat.1),
        ¬ base ++ name :: rest <+: f := not_prefix_files hne
    exact hwrote.unchanged (fun hmem => hnot _ hmem List.prefix_rfl) htemp hnot
  constructor
  · exact hwf
  · intro other hother
    rcases List.mem_append.mp hother with hold | hnew
    · refine (h.holds other hold).copy (fun name rest htemp => ?_)
      rw [seatRoot, List.append_assoc] at htemp ⊢
      refine hkept _ _ (fun hname => ?_) htemp
      exact hfresh other hold (Identifier.scalar_injective (seatDir_injective hname))
    · rw [List.mem_singleton.mp hnew]
      exact hself
  · intro name rest hseat htemp hexists
    by_cases hname : name = seatDir seat.1.scalar
    · exact ⟨seat, by simp, hname⟩
    · rw [hkept name rest hname htemp] at hexists
      obtain ⟨other, hother, hname'⟩ := h.only name rest hseat htemp hexists
      exact ⟨other, List.mem_append_left _ hother, hname'⟩

variable [DecidableEq VerifyingKey]

/-- A run that returns has persisted every seat of its ceremony. -/
theorem persistDkgShares_ok (hlaws : RoundTrips) {input : CeremonyInput} {threshold n : UInt16}
    {passphrase : Except StoreError Passphrase} {shares : BTreeMap Identifier KeyPackage}
    (hwf : d.tree.WellFormed) (hfresh : NoSeats d.tree base)
    (h : ((persistDkgShares input base threshold n passphrase).run env.world d).result =
      .ok (shares, group)) :
    ∃ secret, passphrase = .ok secret ∧ runInprocessDkg input threshold n = .ok (shares, group) ∧
      Persisted base secret group shares.toList
        ((persistDkgShares input base threshold n passphrase).run env.world d).state.tree := by
  unfold persistDkgShares at h ⊢
  obtain ⟨⟨shares', group'⟩, hceremony, h⟩ := Program.result_bind_ok h
  rw [Program.run_bind_ok hceremony]
  rw [Program.run_ofExcept, Except.mapError_eq_ok] at hceremony
  simp only [Program.run_ofExcept] at h ⊢
  obtain ⟨secret, hsecret, h⟩ := Program.result_bind_ok h
  rw [Program.run_bind_ok hsecret]
  rw [lift, Program.run_ofExcept, Except.mapError_eq_ok, Except.mapError_eq_ok] at hsecret
  simp only [lift, Program.run_ofExcept] at h ⊢
  obtain ⟨_, hloop, h⟩ := Program.result_bind_ok h
  rw [Program.run_bind_ok hloop]
  cases h
  refine ⟨secret, hsecret, hceremony, ?_⟩
  have hall : Persisted base secret group (shares.toList.zipIdx.map Prod.fst)
      ((shares.toList.zipIdx.forM (persistSeat base secret group)).run env.world d).state.tree := by
    refine Program.forM_ok (P := fun done d => Persisted base secret group (done.map Prod.fst) d.tree)
      ⟨hwf, by simp, fun name rest hname _ hexists => absurd (hfresh name rest hname) hexists⟩ ?_ hloop
    intro done seat rest d' hsplit hdone hok
    have hmem : seat ∈ shares.toList.zipIdx := by rw [hsplit]; simp
    have hroot : base ++ [seatDir (seat.2 + 1)] = seatRoot base seat.1.1 := by
      rw [seatRoot, scalar_of_mem_zipIdx hceremony hmem]
    have hseats : shares.toList = done.map Prod.fst ++ seat.1 :: rest.map Prod.fst := by
      rw [← List.zipIdx_map_fst 0 shares.toList, hsplit, List.map_append, List.map_cons]
    have hsorted := BTreeMap.pairwise_toList shares
    rw [hseats] at hsorted
    rw [persistSeat, hroot, store, Program.run_mapError, Except.mapError_eq_ok] at hok
    rw [persistSeat, hroot, store, Program.run_mapError, List.map_append]
    refine hdone.put hlaws (fun other hother => ?_) hok
    exact ((List.pairwise_append.mp hsorted).2.2 other hother seat.1 List.mem_cons_self).ne
  rwa [List.zipIdx_map_fst] at hall

/-! ## What the loader finds -/

omit [DecidableEq VerifyingKey] in
theorem Persisted.dirs {seats : List (Identifier × KeyPackage)} (h : Persisted base secret group seats t)
    {seat : Identifier × KeyPackage} (hseat : seat ∈ seats) :
    t[seatRoot base seat.1]? ≠ none ∧ t.hasDir base = true := by
  rcases (h.holds seat hseat).manifest with ⟨hnil, -⟩ | ⟨bytes, m, hfile, -⟩
  · cases hnil
  · have hroot := (h.wellFormed _ (ne_of_eq_of_ne hfile (Option.some_ne_none _))).2
    rw [manifestPath, List.dropLast_concat, FileTree.hasDir_iff] at hroot
    have hdir : t[seatRoot base seat.1]? ≠ none := by
      rcases hroot with hdir | hnil
      · rw [hdir]
        exact Option.some_ne_none _
      · simp [seatRoot] at hnil
    refine ⟨hdir, ?_⟩
    have hbase := (h.wellFormed _ hdir).2
    rwa [seatRoot, List.dropLast_concat] at hbase

omit [KeyCodec] [Json] [Age] [DecidableEq VerifyingKey] in
theorem nodup_names (t : FileTree) (p : FilePath) : (t.names p).Nodup := by
  unfold FileTree.names
  refine List.Nodup.filterMap ?_ Std.ExtTreeMap.nodup_keys
  intro q q' name hq hq'
  split at hq
  · next hdir =>
      split at hq'
      · next hdir' =>
          rw [← List.dropLast_append_getLast? name hq, ← List.dropLast_append_getLast? name hq', hdir, hdir']
      · cases hq'
  · cases hq

omit [DecidableEq VerifyingKey] in
/-- The names that look like seat roots are those of the seats. -/
theorem Persisted.perm_names {seats : List (Identifier × KeyPackage)}
    (h : Persisted base secret group seats t) (hnodup : (seats.map Prod.fst).Nodup) :
    ((t.names base).filter (fun name => "seat-".toList.isPrefixOf name.toList)).Perm
      (seats.map (fun seat => seatDir seat.1.scalar)) := by
  have hinj : Function.Injective (fun id : Identifier => seatDir id.scalar) :=
    seatDir_injective.comp Identifier.scalar_injective
  have hnames : (seats.map (fun seat => seatDir seat.1.scalar)).Nodup := by
    have hmap := hnodup.map hinj
    rwa [List.map_map] at hmap
  refine (List.perm_ext_iff_of_nodup ((nodup_names t base).filter _) hnames).mpr (fun name => ?_)
  rw [List.mem_filter, SysEnv.mem_names, List.mem_map]
  constructor
  · rintro ⟨hexists, hname⟩
    have htemp : ¬ Temp (base ++ [name]) := not_temp_concat (by rw [head_of_isSeatName hname]; simp)
    obtain ⟨seat, hseat, rfl⟩ := h.only name [] hname htemp hexists
    exact ⟨seat, hseat, rfl⟩
  · rintro ⟨seat, hseat, rfl⟩
    exact ⟨(h.dirs hseat).1, isSeatName_seatDir _⟩

omit [DecidableEq VerifyingKey] in
/-- The roots that are found are those of the seats, each once. -/
theorem Persisted.seatRoots {seats : List (Identifier × KeyPackage)}
    (h : Persisted base secret group seats t) (hnodup : (seats.map Prod.fst).Nodup) :
    (Cli.seatRoots base ((t.names base).map .ok)).length = seats.length ∧
      (Cli.seatRoots base ((t.names base).map .ok)).Nodup ∧
      ∀ root ∈ Cli.seatRoots base ((t.names base).map .ok), ∃ seat ∈ seats, root = seatRoot base seat.1 := by
  have hentries : ((t.names base).map (.ok : String → Except IoError String)).filterMap Except.toOption =
      t.names base := by
    rw [List.filterMap_map]
    exact List.filterMap_some
  have hperm := ((List.perm_insertionSort (· ≤ ·) _).trans (h.perm_names hnodup)).map
    (fun name => base ++ [name])
  have hroots : Cli.seatRoots base ((t.names base).map .ok) =
      (((t.names base).filter (fun name => "seat-".toList.isPrefixOf name.toList)).insertionSort
        (· ≤ ·)).map (fun name => base ++ [name]) := by
    unfold Cli.seatRoots
    rw [hentries]
  rw [List.map_map] at hperm
  rw [hroots]
  have hseats : (seats.map (fun seat => seatRoot base seat.1)).Nodup := by
    have hmap := hnodup.map (seatRoot_injective base)
    rwa [List.map_map] at hmap
  refine ⟨hperm.length_eq.trans (List.length_map _), hperm.nodup_iff.mpr hseats, fun root hroot => ?_⟩
  obtain ⟨seat, hseat, rfl⟩ := List.mem_map.mp (hperm.mem_iff.mp hroot)
  exact ⟨seat, hseat, rfl⟩

omit [DecidableEq VerifyingKey] in
/-- A seat's root yields its share. -/
theorem Persisted.run_loadOnlyActive (hlaws : RoundTrips) (hdecrypts : Decrypts)
    {seats : List (Identifier × KeyPackage)} (h : Persisted base secret group seats t)
    (hcalm : ∀ tick, env.fault tick = none) {seat : Identifier × KeyPackage} (hseat : seat ∈ seats)
    (tick : Nat) :
    ((ParticipantStore.loadOnlyActive ⟨seatRoot base seat.1, .ok secret⟩).run env.world
      ⟨t, tick⟩).result = .ok seat := by
  have hindex : activeTag [seatPut secret group seat] = some (seatTag seat.1) := rfl
  have hlatest : latest (fun call => call.tag = seatTag seat.1) [seatPut secret group seat] =
      some (seatPut secret group seat) := by
    simp [latest, seatPut]
  exact (h.holds seat hseat).run_loadOnlyActive hcalm hlaws hdecrypts hindex hlatest rfl tick

omit [DecidableEq VerifyingKey] in
/-- A loop over roots that load returns. -/
theorem loadSeats_run {roots : List FilePath} (hload : ∀ root ∈ roots, ∃ seat, ∀ tick,
      ((ParticipantStore.loadOnlyActive ⟨root, .ok secret⟩).run env.world ⟨t, tick⟩).result = .ok seat)
    (packages : BTreeMap Identifier KeyPackage) (tick : Nat) :
    ∃ out, ((roots.foldlM (loadSeat secret) packages).run env.world ⟨t, tick⟩).result = .ok out := by
  induction roots generalizing packages tick with
  | nil => exact ⟨packages, rfl⟩
  | cons root roots ih =>
      obtain ⟨seat, hseat⟩ := hload root List.mem_cons_self
      have hround : ((loadSeat secret packages root).run env.world ⟨t, tick⟩).result =
          .ok (packages.insert seat.1 seat.2) := by
        have hstore : ((store (ParticipantStore.loadOnlyActive ⟨root, .ok secret⟩)).run env.world
            ⟨t, tick⟩).result = .ok seat := by
          rw [store, Program.run_mapError, hseat tick, Except.mapError_ok]
        unfold loadSeat
        dsimp only
        rw [Program.run_bind_ok hstore]
        rfl
      have htree := readOnly_tree (loadSeat_readOnly secret packages root) env ⟨t, tick⟩
      rw [List.foldlM_cons, Program.run_bind_ok hround]
      generalize (Program.run env.world _ _).state = d' at htree ⊢
      obtain ⟨t', tick'⟩ := d'
      obtain rfl : t' = t := htree
      exact ih (fun root hroot => hload root (List.mem_cons_of_mem _ hroot)) _ tick'

omit [DecidableEq VerifyingKey] in
/-- A loader that finds enough roots that load, and the group of the first, returns. -/
theorem run_loadPersistedShares {entries : List (Except IoError String)} {first : FilePath}
    {rest : List FilePath} {k : UInt16} {envelope : PubkeyEnvelope}
    (hlist : (env.act d.tick d.tree (.readDir base)).1 = .ok entries)
    (henough : k.toNat ≤ (seatRoots base entries).length)
    (hselected : (seatRoots base entries).take k.toNat = first :: rest)
    (hload : ∀ root ∈ first :: rest, ∃ seat, ∀ tick,
      ((ParticipantStore.loadOnlyActive ⟨root, .ok secret⟩).run env.world ⟨d.tree, tick⟩).result =
        .ok seat)
    (henvelope : ∀ tick, ((ParticipantStore.loadPublicEnvelope ⟨first, .ok secret⟩ .active .genesis).run
      env.world ⟨d.tree, tick⟩).result = .ok envelope)
    (hdecode : envelope.decodePackage = .ok group) :
    ∃ packages, ((loadPersistedShares base k (.ok secret)).run env.world d).result =
      .ok (packages, group) := by
  have hlisted : ((sys (.readDir base) : CliM _).run env.world d).result = .ok (.ok entries) :=
    congrArg Except.ok hlist
  have hread : (sys (.readDir base) : CliM _).Uses ReadOnly := ⟨fun _ h => h, fun _ => trivial⟩
  have htree := readOnly_tree hread env d
  unfold loadPersistedShares
  rw [Program.run_bind_ok hlisted]
  generalize ((sys (.readDir base) : CliM _).run env.world d).state = d₁ at htree ⊢
  obtain ⟨t₁, tick₁⟩ := d₁
  obtain rfl : t₁ = d.tree := htree
  simp only [lift, Except.mapError_ok, Program.ofExcept_ok, Program.done_bind]
  rw [if_neg (not_lt.mpr henough), hselected]
  obtain ⟨packages, hloop⟩ := loadSeats_run hload ∅ tick₁
  have hquiet : ((first :: rest).foldlM (loadSeat secret) ∅).Uses ReadOnly :=
    Program.Uses.foldlM (fun packages root _ => loadSeat_readOnly secret packages root) ∅
  have hsame := readOnly_tree hquiet env ⟨d.tree, tick₁⟩
  rw [Program.run_bind_ok hloop]
  generalize (Program.run env.world (List.foldlM _ _ _) _).state = d₂ at hsame ⊢
  obtain ⟨t₂, tick₂⟩ := d₂
  obtain rfl : t₂ = d.tree := hsame
  have hgroup : ((store (ParticipantStore.loadPublicEnvelope ⟨first, .ok secret⟩ .active .genesis)).run
      env.world ⟨d.tree, tick₂⟩).result = .ok envelope := by
    rw [store, Program.run_mapError, henvelope tick₂, Except.mapError_ok]
  dsimp only
  rw [Program.run_bind_ok hgroup, hdecode]
  exact ⟨packages, rfl⟩

/-- After a run that returns, the loader returns as many of its shares as are asked
    for, each under its seat, and the group that was generated. It does not find
    more roots than there are seats. -/
theorem persisted_shares_load (hlaws : RoundTrips) (hdecrypts : Decrypts) {input : CeremonyInput}
    {threshold n : UInt16} {passphrase : Except StoreError Passphrase}
    {shares : BTreeMap Identifier KeyPackage} (hwf : d.tree.WellFormed) (hfresh : NoSeats d.tree base)
    (h : ((persistDkgShares input base threshold n passphrase).run env.world d).result =
      .ok (shares, group)) {reader : SysEnv} (hcalm : ∀ tick, reader.fault tick = none)
    (hreadable : ∀ tick name, reader.unreadable tick name = false) (k : UInt16) :
    (1 ≤ k → k ≤ n → ∃ packages,
      ((loadPersistedShares base k passphrase).run reader.world
          ((persistDkgShares input base threshold n passphrase).run env.world d).state).result =
        .ok (packages, group) ∧
      packages.size = k.toNat ∧
      ∀ (seat : SeatId) (kp : KeyPackage), packages[seat]? = some kp → shares[seat]? = some kp) ∧
    (n < k → ∃ e,
      ((loadPersistedShares base k passphrase).run reader.world
          ((persistDkgShares input base threshold n passphrase).run env.world d).state).result =
        .error e) := by
  obtain ⟨secret, rfl, hceremony, hpersisted⟩ := persistDkgShares_ok hlaws hwf hfresh h
  generalize ((persistDkgShares input base threshold n (.ok secret)).run env.world d).state = d'
    at hpersisted
  have hids : (shares.toList.map Prod.fst).Nodup :=
    List.pairwise_map.mpr ((BTreeMap.pairwise_toList shares).imp (fun hlt => hlt.ne))
  have hcount : shares.toList.length = n.toNat := by
    have hlength := congrArg List.length (runInprocessDkg_toList hceremony)
    rwa [List.length_map, List.length_range'] at hlength
  obtain ⟨seat₀, hseat₀⟩ := List.exists_mem_of_ne_nil _ (runInprocessDkg_toList_ne_nil hceremony)
  have hlist : (reader.act d'.tick d'.tree (.readDir base)).1 =
      .ok ((d'.tree.names base).map .ok) := by
    simp [SysEnv.act, SysEnv.guarded, hcalm, hreadable, (hpersisted.dirs hseat₀).2]
  have hselected : selectedRoots reader d' base k =
      (seatRoots base ((d'.tree.names base).map .ok)).take k.toNat := by
    rw [selectedRoots, hlist]
  obtain ⟨hlength, hnodup, hroots⟩ := hpersisted.seatRoots hids
  constructor
  · intro hpos hle
    have henough : k.toNat ≤ (seatRoots base ((d'.tree.names base).map .ok)).length := by
      rw [hlength, hcount]
      exact hle
    have hloads : ∀ root ∈ selectedRoots reader d' base k, ∃ seat ∈ shares.toList, ∀ tick,
        ((ParticipantStore.loadOnlyActive ⟨root, .ok secret⟩).run reader.world
          ⟨d'.tree, tick⟩).result = .ok seat ∧ root = seatRoot base seat.1 := by
      intro root hroot
      rw [hselected] at hroot
      obtain ⟨seat, hseat, rfl⟩ := hroots root (List.mem_of_mem_take hroot)
      exact ⟨seat, hseat, fun tick =>
        ⟨hpersisted.run_loadOnlyActive hlaws hdecrypts hcalm hseat tick, rfl⟩⟩
    cases htake : (seatRoots base ((d'.tree.names base).map .ok)).take k.toNat with
    | nil =>
        have hnone := congrArg List.length htake
        rw [List.length_take_of_le henough] at hnone
        exact absurd hnone (Nat.pos_iff_ne_zero.mp hpos)
    | cons first rest =>
        rw [hselected, htake] at hloads
        obtain ⟨seat₁, hseat₁, hfirst⟩ := hloads first List.mem_cons_self
        have hgroup : latest (fun call => call.tag.keyId = .active ∧ call.tag.epoch = .genesis)
            [seatPut secret group seat₁] = some (seatPut secret group seat₁) := by
          simp [latest, seatPut, seatTag]
        obtain ⟨envelope, hdecode, henvelope⟩ :=
          (hpersisted.holds seat₁ hseat₁).run_loadPublicEnvelope hcalm hgroup (.ok secret)
        rw [← (hfirst 0).2] at henvelope
        obtain ⟨packages, hload⟩ := run_loadPersistedShares hlist henough htake
          (fun root hroot => (hloads root hroot).imp (fun seat h tick => (h.2 tick).1)) henvelope hdecode
        refine ⟨packages, hload, ?_, ?_⟩
        · rw [full_quorum_iff hload, hselected, htake]
          have hdistinct : (first :: rest).Nodup := htake ▸ hnodup.sublist (List.take_sublist _ _)
          refine hdistinct.map_on (fun root hroot root' hroot' hsame => ?_)
          obtain ⟨seat, -, hseat⟩ := hloads root hroot
          obtain ⟨seat', -, hseat'⟩ := hloads root' hroot'
          rw [activeSeat_of_loadOnlyActive (d := d') (hseat 0).1,
            activeSeat_of_loadOnlyActive (d := d') (hseat' 0).1] at hsame
          rw [(hseat 0).2, (hseat' 0).2, Option.some.inj hsame]
        · obtain ⟨first', rest', secret', hfound, -, hsecret, ⟨tick, hloop⟩, -⟩ :=
            loadPersistedShares_ok hload
          rw [hselected, htake] at hfound
          rw [← hfound] at hloop
          cases hsecret
          refine loadSeats_ok (d := ⟨d'.tree, tick⟩) (P := fun _ packages =>
              ∀ (seat : SeatId) (kp : KeyPackage), packages[seat]? = some kp → shares[seat]? = some kp)
            (by simp) (fun done root packages seat kp tick hroot hdone hload seat' kp' hkp => ?_) hloop
          obtain ⟨found, hfound, hseat⟩ := hloads root hroot
          obtain rfl : found = (seat, kp) := Except.ok.inj ((hseat tick).1.symm.trans hload)
          rw [BTreeMap.getElem?_insert] at hkp
          split at hkp
          · next hsame =>
              cases hsame
              cases hkp
              exact BTreeMap.mem_toList.mp hfound
          · exact hdone seat' kp' hkp
  · intro hlt
    cases hresult : ((loadPersistedShares base k (.ok secret)).run reader.world d').result with
    | error e => exact ⟨e, rfl⟩
    | ok out =>
        obtain ⟨first, rest, _, hfound, hmany, -⟩ := loadPersistedShares_ok hresult
        have hfew := List.length_take_le' k.toNat (seatRoots base ((d'.tree.names base).map .ok))
        rw [← hselected, hfound, hmany, hlength, hcount] at hfew
        exact absurd hlt (UInt16.not_lt.mpr hfew)

end RoundTrip

/-! ## Two of two seats -/

open Store.Plain

/-- A run that persists two seats below `b`. -/
def persistRun : Program.Run SysOp SysOp.Resp Disk (Abort CliError)
    (BTreeMap Identifier KeyPackage × PublicKeyPackage) :=
  (persistDkgShares ⟨(7 : UInt8), [], []⟩ ["b"] 2 2 (.ok secret)).run SysEnv.calm.world ⟨∅, 0⟩

theorem isOk_persistRun : persistRun.result.isOk = true := by
  decide +kernel

theorem persisted_shares_load_one : ∃ shares group packages,
    persistRun.result = .ok (shares, group) ∧
    ((loadPersistedShares ["b"] 1 (.ok secret)).run SysEnv.calm.world persistRun.state).result =
      .ok (packages, group) ∧
    packages.size = 1 ∧
    ∀ (seat : SeatId) (kp : KeyPackage), packages[seat]? = some kp → shares[seat]? = some kp := by
  obtain ⟨⟨shares, group⟩, hpersist⟩ := Except.exists_ok_of_isOk isOk_persistRun
  have hwf : FileTree.WellFormed ∅ := FileTree.wellFormed_empty
  have hcalm : ∀ tick, SysEnv.calm.fault tick = none := fun _ => rfl
  have hreadable : ∀ tick name, SysEnv.calm.unreadable tick name = false := fun _ _ => rfl
  obtain ⟨packages, hload⟩ := (persisted_shares_load (d := ⟨∅, 0⟩) roundTrips decrypts hwf
    (noSeats_empty ["b"]) hpersist hcalm hreadable 1).1 (by decide) (by decide)
  exact ⟨shares, group, packages, hpersist, hload⟩

end Cli
