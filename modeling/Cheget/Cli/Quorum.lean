-- SUMMARY: What the loader returns in terms of the seat roots it takes: when the shares are of one epoch, and when there are as many as roots.
import Cheget.Cli.Loading
import Cheget.Store.Built
import Cheget.Store.Plain

/-!
# The quorum that is loaded

The loader takes the share of the first active entry of each root, and the group
of fixed coordinates of the first root. Shares are collected by the seats that
the manifests name, whatever the roots are called.
-/

namespace Cli

open Crypto Store

section Quorum

variable [KeyCodec] [Json] [Age] {base : FilePath} {env : SysEnv} {d : Disk} {secret : Passphrase}
  {roots : List FilePath} {packages : BTreeMap Identifier KeyPackage}

/-! ## The loop -/

/-- The loop collects the shares of its roots by their seats, later ones in the
    place of earlier ones. -/
theorem loadSeats_lookup {seatOf : FilePath → Option SeatId} {shareOf : FilePath → Option KeyPackage}
    (hround : ∀ root ∈ roots, ∀ seat kp tick,
      ((ParticipantStore.loadOnlyActive ⟨root, .ok secret⟩).run env.world ⟨d.tree, tick⟩).result =
          .ok (seat, kp) →
        seatOf root = some seat ∧ shareOf root = some kp)
    (h : ((roots.foldlM (loadSeat secret) ∅).run env.world d).result = .ok packages) (seat : SeatId) :
    packages[seat]? = (BTreeMap.lastUnder seatOf seat roots).bind shareOf := by
  refine loadSeats_ok (P := fun done packages => ∀ seat : SeatId,
      packages[seat]? = (BTreeMap.lastUnder seatOf seat done).bind shareOf) ?_ ?_ h seat
  · intro seat
    simp [BTreeMap.lastUnder]
  · intro done root packages seat kp tick hmem hdone hload seat'
    obtain ⟨hseat, hshare⟩ := hround root hmem seat kp tick hload
    rw [BTreeMap.getElem?_insert, BTreeMap.lastUnder_append_singleton, hseat]
    by_cases hsame : seat = seat'
    · simp [hsame, hshare]
    · simpa [hsame] using hdone seat'

/-- Each root adds a share unless another one of its seat is there. -/
theorem loadSeats_size {seatOf : FilePath → Option SeatId}
    (hround : ∀ root ∈ roots, ∀ seat kp tick,
      ((ParticipantStore.loadOnlyActive ⟨root, .ok secret⟩).run env.world ⟨d.tree, tick⟩).result =
          .ok (seat, kp) → seatOf root = some seat)
    (h : ((roots.foldlM (loadSeat secret) ∅).run env.world d).result = .ok packages) :
    packages.size = roots.length ↔ (roots.map seatOf).Nodup := by
  have hall : (∀ seat : SeatId, seat ∈ packages ↔ some seat ∈ roots.map seatOf) ∧
      packages.size ≤ roots.length ∧ (packages.size = roots.length ↔ (roots.map seatOf).Nodup) := by
    refine loadSeats_ok (P := fun done packages =>
      (∀ seat : SeatId, seat ∈ packages ↔ some seat ∈ done.map seatOf) ∧
        packages.size ≤ done.length ∧ (packages.size = done.length ↔ (done.map seatOf).Nodup)) ?_ ?_ h
    · simp
    · rintro done root packages seat kp tick hmem ⟨hkeys, hle, hsize⟩ hload
      have hseat := hround root hmem seat kp tick hload
      have hnodup : ((done ++ [root]).map seatOf).Nodup ↔
          (done.map seatOf).Nodup ∧ some seat ∉ done.map seatOf := by
        rw [List.map_append, List.map_singleton, hseat, ← List.concat_eq_append, List.nodup_concat,
          and_comm]
      refine ⟨fun seat' => ?_, ?_, ?_⟩
      · rw [Std.ExtTreeMap.mem_insert, hkeys, List.map_append, List.mem_append, List.map_singleton, hseat,
          List.mem_singleton, Std.LawfulEqCmp.compare_eq_iff_eq]
        constructor
        · rintro (rfl | hold)
          · exact Or.inr rfl
          · exact Or.inl hold
        · rintro (hold | hnew)
          · exact Or.inr hold
          · exact Or.inl (Option.some.inj hnew).symm
      · rw [Std.ExtTreeMap.size_insert, List.length_append, List.length_singleton]
        split <;> omega
      · rw [Std.ExtTreeMap.size_insert, List.length_append, List.length_singleton, hnodup, ← hsize,
          ← hkeys]
        split
        · next hin =>
            constructor
            · intro hsame
              omega
            · exact fun h => absurd hin h.2
        · next hout =>
            constructor
            · exact fun hsame => ⟨by omega, hout⟩
            · exact fun h => congrArg (· + 1) h.1
  exact hall.2.2

/-! ## As many shares as roots -/

/-- The seat of the first active entry in the manifest of a root. -/
def activeSeat (t : FileTree) (root : FilePath) : Option SeatId :=
  match t[manifestPath root]? with
  | some (.file bytes) => do
      let manifest ← (Manifest.fromJsonBytes bytes).toOption
      let entry ← manifest.shares.find? (fun e => e.state == .active)
      (seatFromHex entry.seat).toOption
  | _ => none

theorem activeSeat_of_loadOnlyActive {root : FilePath} {seat : SeatId} {kp : KeyPackage} {tick : Nat}
    (h : ((ParticipantStore.loadOnlyActive ⟨root, .ok secret⟩).run env.world ⟨d.tree, tick⟩).result =
      .ok (seat, kp)) : activeSeat d.tree root = some seat := by
  obtain ⟨m, entry, keyId, hfinds, hentry, -, hseat, -⟩ := ParticipantStore.loadOnlyActive_ok h
  rcases hfinds with rfl | ⟨bytes, hfile, hparse⟩
  · cases hentry
  · have hfile' : d.tree[manifestPath root]? = some (.file bytes) := hfile
    simp [activeSeat, hfile', hparse, hentry, hseat, Except.toOption]

/-- As many shares are returned as roots were selected exactly if the first active
    entries of the selected roots are for different seats. -/
theorem full_quorum_iff {t : UInt16} {passphrase : Except StoreError Passphrase}
    {group : PublicKeyPackage}
    (h : ((loadPersistedShares base t passphrase).run env.world d).result = .ok (packages, group)) :
    packages.size = t.toNat ↔ ((selectedRoots env d base t).map (activeSeat d.tree)).Nodup := by
  obtain ⟨first, rest, secret, hselected, hlength, -, ⟨tick, hloop⟩, -⟩ := loadPersistedShares_ok h
  rw [hselected, ← hlength]
  have hround : ∀ root ∈ first :: rest, ∀ seat kp tick,
      ((ParticipantStore.loadOnlyActive ⟨root, .ok secret⟩).run env.world ⟨d.tree, tick⟩).result =
        .ok (seat, kp) → activeSeat d.tree root = some seat :=
    fun _ _ _ _ _ hload => activeSeat_of_loadOnlyActive hload
  exact loadSeats_size (d := ⟨d.tree, tick⟩) hround hloop

/-! ## Shares of one epoch -/

/-- The seat of the first tag that the puts of a root have left active. -/
def seatOfPuts (calls : FilePath → List Put) (root : FilePath) : Option SeatId :=
  (activeTag (calls root)).map ShareTag.seat

/-- The key package that was put last under the first active tag of a root. -/
def shareOfPuts (calls : FilePath → List Put) (root : FilePath) : Option KeyPackage := do
  let tag ← activeTag (calls root)
  let last ← latest (fun call => call.tag = tag) (calls root)
  pure last.keyPackage

theorem shareOfPuts_eq {calls : FilePath → List Put} {root : FilePath} {tag : ShareTag} {last : Put}
    (htag : activeTag (calls root) = some tag)
    (hlast : latest (fun call => call.tag = tag) (calls root) = some last) :
    shareOfPuts calls root = some last.keyPackage := by
  simp [shareOfPuts, htag, hlast]

/-- A root whose puts have left a tag active has a share for its seat. -/
theorem exists_shareOfPuts {calls : FilePath → List Put} {root : FilePath} {seat : SeatId}
    (h : seatOfPuts calls root = some seat) : ∃ kp, shareOfPuts calls root = some kp := by
  obtain ⟨tag, htag, -⟩ := Option.map_eq_some_iff.mp h
  obtain ⟨last, hlast⟩ := latest_of_mem_index (mem_index_of_activeTag htag)
  exact ⟨last.keyPackage, shareOfPuts_eq htag hlast⟩

/-- Every share that is returned was put under the label and epoch at which the
    group is read, and is the only active one of the root that it is from. -/
def OneEpoch (calls : FilePath → List Put) (t : FileTree) (roots : List FilePath)
    (packages : BTreeMap Identifier KeyPackage) : Prop :=
  ∀ (seat : SeatId) (kp : KeyPackage) (root : FilePath), packages[seat]? = some kp →
    BTreeMap.lastUnder (seatOfPuts calls) seat roots = some root →
      (∃ call ∈ calls root, call.tag = ⟨.active, .genesis, seat⟩ ∧ call.keyPackage = kp) ∧
        OnlyActive t root ⟨.active, .genesis, seat⟩

/-- The group that is returned was put for the label and epoch at which it is read.
    The shares are of them, and alone, exactly if the puts of every root that a
    returned share is from have left one tag active, and it is of that label and
    epoch. -/
theorem one_epoch_iff (hlaws : RoundTrips) {calls : FilePath → List Put} {t : UInt16}
    (hbuilt : ∀ root ∈ selectedRoots env d base t, Built root (calls root) d.tree)
    {passphrase : Except StoreError Passphrase} {group : PublicKeyPackage}
    (h : ((loadPersistedShares base t passphrase).run env.world d).result = .ok (packages, group)) :
    (∃ first ∈ (selectedRoots env d base t).head?, ∃ last ∈ calls first,
        last.tag.keyId = .active ∧ last.tag.epoch = .genesis ∧ last.group = group) ∧
      (OneEpoch calls d.tree (selectedRoots env d base t) packages ↔
        ∀ seat root, BTreeMap.lastUnder (seatOfPuts calls) seat (selectedRoots env d base t) =
            some root →
          (index (calls root)).filter (fun x => x.2 == .active) =
            [(⟨.active, .genesis, seat⟩, .active)]) := by
  obtain ⟨first, rest, secret, hselected, -, -, ⟨tick, hloop⟩, tick', envelope, henvelope, hdecode⟩ :=
    loadPersistedShares_ok h
  rw [hselected] at hbuilt ⊢
  have hround : ∀ root ∈ first :: rest, ∀ seat kp tick,
      ((ParticipantStore.loadOnlyActive ⟨root, .ok secret⟩).run env.world ⟨d.tree, tick⟩).result =
          .ok (seat, kp) →
        seatOfPuts calls root = some seat ∧ shareOfPuts calls root = some kp := by
    intro root hroot seat kp tick hload
    obtain ⟨tag, last, htag, rfl, hlast, rfl⟩ :=
      ((hbuilt root hroot).holds hlaws).loadOnlyActive hlaws hload
    exact ⟨congrArg (Option.map ShareTag.seat) htag, shareOfPuts_eq htag hlast⟩
  have hlookup := loadSeats_lookup (d := ⟨d.tree, tick⟩) hround hloop
  have hsource : ∀ {seat root}, BTreeMap.lastUnder (seatOfPuts calls) seat (first :: rest) = some root →
      root ∈ first :: rest ∧ seatOfPuts calls root = some seat := by
    intro seat root hlast
    simpa using List.mem_filter.mp (List.mem_of_getLast? hlast)
  constructor
  · have hholds := (hbuilt first List.mem_cons_self).holds hlaws
    obtain ⟨last, hlast, hgroup⟩ := hholds.loadPublicEnvelope henvelope hdecode
    obtain ⟨hmem, hcoordinates⟩ := mem_of_latest hlast
    obtain ⟨hkey, hepoch⟩ := of_decide_eq_true hcoordinates
    exact ⟨first, rfl, last, hmem, hkey, hepoch, hgroup⟩
  constructor
  · intro hone seat root hlast
    obtain ⟨hroot, hseat⟩ := hsource hlast
    obtain ⟨kp, hkp⟩ := exists_shareOfPuts hseat
    have hpackage : packages[seat]? = some kp := by rw [hlookup, hlast, Option.bind_some, hkp]
    exact ((hbuilt root hroot).holds hlaws).onlyActive_iff.mp (hone seat kp root hpackage hlast).2
  · intro hactive seat kp root hpackage hlast
    obtain ⟨hroot, -⟩ := hsource hlast
    have hfilter := hactive seat root hlast
    have htag : activeTag (calls root) = some ⟨.active, .genesis, seat⟩ := by
      rw [activeTag, ← List.head?_filter, hfilter]
      rfl
    obtain ⟨last, hlatest⟩ := latest_of_mem_index (mem_index_of_activeTag htag)
    obtain ⟨hmem, hcoordinates⟩ := mem_of_latest hlatest
    refine ⟨⟨last, hmem, of_decide_eq_true hcoordinates, ?_⟩,
      ((hbuilt root hroot).holds hlaws).onlyActive_iff.mpr hfilter⟩
    rw [hlookup, hlast, Option.bind_some, shareOfPuts_eq htag hlatest] at hpackage
    exact Option.some.inj hpackage

end Quorum

/-! ## A refreshed seat, and a copied one -/

open Store.Plain

namespace Quorum

/-- The root of the first seat below `b`. -/
def firstRoot : FilePath := ["b", "seat-0001"]

/-- The share of epoch 0 is retired, and that of epoch 1 is active. -/
def refreshed : List Put :=
  [⟨.ok secret, firstTag, ((1, 7) : UInt8 × UInt8), (7 : UInt8), .retired⟩,
    ⟨.ok secret, ⟨.active, ⟨1⟩, firstTag.seat⟩, ((1, 8) : UInt8 × UInt8), (8 : UInt8), .active⟩]

/-- The run of a put on a disk. -/
def putRun (root : FilePath) (d : Disk) (call : Put) : Program.Run SysOp SysOp.Resp Disk StoreError Unit :=
  (call.program root).run SysEnv.calm.world d

/-- The disk after puts. -/
def putAll (root : FilePath) (d : Disk) (calls : List Put) : Disk :=
  calls.foldl (fun d call => (putRun root d call).state) d

/-- Whether every put succeeds. -/
def allOk (root : FilePath) : Disk → List Put → Bool
  | _, [] => true
  | d, call :: calls => (putRun root d call).result.isOk && allOk root (putRun root d call).state calls

theorem built_putAll {root : FilePath} {calls : List Put} {done : List Put} {d : Disk}
    (h : Built root done d.tree) (hok : allOk root d calls = true) :
    Built root (done ++ calls) (putAll root d calls).tree := by
  induction calls generalizing done d with
  | nil => rwa [List.append_nil]
  | cons call calls ih =>
      obtain ⟨hcall, hcalls⟩ := Bool.and_eq_true_iff.mp hok
      have hput : Built root (done ++ [call]) (putRun root d call).state.tree :=
        h.put (fun _ h => nomatch h) (Except.eq_ok_of_isOk hcall)
      rw [List.append_cons]
      exact ih hput hcalls

/-- Loading from `b`. -/
def loadRun (d : Disk) (t : UInt16) :
    Program.Run SysOp SysOp.Resp Disk (Abort CliError) (BTreeMap Identifier KeyPackage × PublicKeyPackage) :=
  (loadPersistedShares ["b"] t (.ok secret)).run SysEnv.calm.world d

def refreshedDisk : Disk := putAll firstRoot ⟨∅, 0⟩ refreshed

theorem allOk_refreshed : allOk firstRoot ⟨∅, 0⟩ refreshed = true ∧
    selectedRoots SysEnv.calm refreshedDisk ["b"] 1 = [firstRoot] ∧
    (loadRun refreshedDisk 1).result.toOption.map (fun out => (out.1.toList, out.2)) =
      some ([(firstTag.seat, ((1, 8) : UInt8 × UInt8))], (7 : UInt8)) := by
  decide +kernel

theorem load_refreshed : ∃ packages, (loadRun refreshedDisk 1).result = .ok (packages, (7 : UInt8)) ∧
    packages[firstTag.seat]? = some ((1, 8) : UInt8 × UInt8) := by
  obtain ⟨⟨packages, group⟩, hload, hout⟩ := Option.map_eq_some_iff.mp allOk_refreshed.2.2
  obtain ⟨hpackages, rfl⟩ := Prod.mk.inj hout
  refine ⟨packages, Except.toOption_eq_some.mp hload, BTreeMap.mem_toList.mp ?_⟩
  rw [hpackages]
  exact List.mem_singleton_self _

theorem built_refreshed : ∀ root ∈ selectedRoots SysEnv.calm refreshedDisk ["b"] 1,
    Built root refreshed refreshedDisk.tree := by
  rw [allOk_refreshed.2.1]
  intro root hroot
  rw [List.mem_singleton.mp hroot]
  exact built_putAll (.empty (emptyRoot_empty firstRoot)) allOk_refreshed.1

theorem one_epoch_iff_refreshed : ∃ packages group, (loadRun refreshedDisk 1).result = .ok (packages, group) ∧
    (OneEpoch (fun _ => refreshed) refreshedDisk.tree (selectedRoots SysEnv.calm refreshedDisk ["b"] 1)
        packages ↔
      ∀ seat root, BTreeMap.lastUnder (seatOfPuts (fun _ => refreshed)) seat
          (selectedRoots SysEnv.calm refreshedDisk ["b"] 1) = some root →
        (index refreshed).filter (fun x => x.2 == .active) =
          [(⟨.active, .genesis, seat⟩, .active)]) := by
  obtain ⟨packages, hload, -⟩ := load_refreshed
  exact ⟨packages, _, hload, (one_epoch_iff roundTrips built_refreshed hload).2⟩

/-- The share of epoch 1 is returned with the group of epoch 0. -/
theorem refreshed_share_mixes_epochs : ∃ packages group,
    (∀ root ∈ selectedRoots SysEnv.calm refreshedDisk ["b"] 1,
      Built root refreshed refreshedDisk.tree) ∧
    (loadRun refreshedDisk 1).result = .ok (packages, group) ∧
    ¬ OneEpoch (fun _ => refreshed) refreshedDisk.tree
      (selectedRoots SysEnv.calm refreshedDisk ["b"] 1) packages := by
  obtain ⟨packages, hload, hpackage⟩ := load_refreshed
  refine ⟨packages, _, built_refreshed, hload, fun hone => ?_⟩
  have hlast : BTreeMap.lastUnder (seatOfPuts (fun _ => refreshed)) firstTag.seat
      (selectedRoots SysEnv.calm refreshedDisk ["b"] 1) = some firstRoot := by
    rw [allOk_refreshed.2.1]
    decide +kernel
  obtain ⟨⟨call, hcall, htag, hkp⟩, -⟩ := hone _ _ _ hpackage hlast
  rcases List.mem_cons.mp hcall with rfl | hcall
  · have hne : ((1, 7) : UInt8 × UInt8) ≠ (1, 8) := by decide
    exact hne hkp
  · rw [List.mem_singleton.mp hcall] at htag
    have hne : (⟨1⟩ : Epoch) ≠ .genesis := by decide
    exact hne (congrArg ShareTag.epoch htag)

/-- The root of the first seat, and another one of the same seat. -/
def copiedDisk : Disk :=
  putAll ["b", "seat-0002"] (putAll firstRoot ⟨∅, 0⟩ [bothSeats false]) [bothSeats false]

theorem load_copied :
    (allOk firstRoot ⟨∅, 0⟩ [bothSeats false] = true ∧
      allOk ["b", "seat-0002"] (putAll firstRoot ⟨∅, 0⟩ [bothSeats false]) [bothSeats false] = true) ∧
    (loadRun copiedDisk 2).result.toOption.map (fun out => out.1.size) = some 1 := by
  decide +kernel

theorem full_quorum_iff_copied : ∃ packages group, (loadRun copiedDisk 2).result = .ok (packages, group) ∧
    (packages.size = 2 ↔
      ((selectedRoots SysEnv.calm copiedDisk ["b"] 2).map (activeSeat copiedDisk.tree)).Nodup) := by
  obtain ⟨⟨packages, group⟩, hload, -⟩ := Option.map_eq_some_iff.mp load_copied.2
  have hok := Except.toOption_eq_some.mp hload
  exact ⟨packages, group, hok, full_quorum_iff hok⟩

/-- Two roots of one seat are a quorum of two with one share. -/
theorem copied_seat_short :
    (allOk firstRoot ⟨∅, 0⟩ [bothSeats false] = true ∧
      allOk ["b", "seat-0002"] (putAll firstRoot ⟨∅, 0⟩ [bothSeats false]) [bothSeats false] = true) ∧
    ∃ packages group, (loadRun copiedDisk 2).result = .ok (packages, group) ∧ packages.size ≠ 2 := by
  obtain ⟨⟨packages, group⟩, hload, hsize⟩ := Option.map_eq_some_iff.mp load_copied.2
  refine ⟨load_copied.1, packages, group, Except.toOption_eq_some.mp hload, fun htwo => ?_⟩
  rw [htwo] at hsize
  cases hsize

end Quorum

end Cli
