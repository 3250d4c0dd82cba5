-- SUMMARY: Persisting runs on one base, each interrupted anywhere, and when the shares loaded after them are of one key.
import Cheget.Base.Text
import Cheget.Cli.Loading
import Cheget.Crypto.Outcome
import Cheget.Store.Coherent
import Cheget.Store.Plain

/-!
# Runs on one base

A run persists the seats of one ceremony, one root after the other, and may stop
after any number of its system calls. The loader takes the first roots that it
finds, whichever runs they are from.
-/

namespace Cli

open Crypto Store

/-! ## Seat roots -/

theorem toList_seatDir (i : Nat) :
    (seatDir i).toList = "seat-".toList ++
      (List.replicate (4 - (Nat.toDigits 10 i).length) '0' ++ Nat.toDigits 10 i) := by
  have hname : seatDir i = String.ofList ("seat-".toList ++
      List.replicate (4 - (Nat.toDigits 10 i).length) '0' ++ Nat.toDigits 10 i) := rfl
  rw [hname, String.toList_ofList, List.append_assoc]

theorem ofDigitChars_seatDir (i : Nat) :
    Nat.ofDigitChars 10 ((seatDir i).toList.drop "seat-".toList.length) 0 = i := by
  rw [toList_seatDir, List.drop_left, Nat.ofDigitChars_zeros_append]
  exact Nat.ofDigitChars_ten_toDigits

theorem seatDir_injective : Function.Injective seatDir := by
  intro i j h
  rw [← ofDigitChars_seatDir i, h, ofDigitChars_seatDir]

/-- The root of a seat. -/
def seatRoot (base : FilePath) (id : Identifier) : FilePath := base ++ [seatDir id.scalar]

/-- The tag that the share of a seat is stored under. -/
def seatTag (id : Identifier) : ShareTag := ⟨.active, .genesis, id⟩

/-- The tags in use below a base. -/
def SeatOf (base root : FilePath) (tag : ShareTag) : Prop :=
  ∃ id, root = seatRoot base id ∧ tag = seatTag id

theorem seatRoot_injective (base : FilePath) : Function.Injective (seatRoot base) := by
  intro a b h
  have hname := List.append_cancel_left h
  exact Identifier.scalar_injective (seatDir_injective (List.cons.inj hname).1)

/-- A name below the base that looks like that of a seat root. -/
def isSeatName (name : String) : Bool := "seat-".toList.isPrefixOf name.toList

/-- Nothing below the base looks like a seat root. -/
def NoSeats (t : FileTree) (base : FilePath) : Prop :=
  ∀ name rest, isSeatName name = true → t[base ++ name :: rest]? = none

/-- What looks like a seat root is one. -/
def OwnSeats (t : FileTree) (base : FilePath) : Prop :=
  ∀ name, isSeatName name = true → t[base ++ [name]]? ≠ none → ∃ id : Identifier, name = seatDir id.scalar

theorem isSeatName_seatDir (i : Nat) : isSeatName (seatDir i) = true := by
  rw [isSeatName, List.isPrefixOf_iff_prefix, toList_seatDir]
  exact List.prefix_append _ _

theorem head_of_isSeatName {name : String} (h : isSeatName name = true) : name.toList.head? = some 's' := by
  obtain ⟨rest, hrest⟩ := List.isPrefixOf_iff_prefix.mp h
  rw [← hrest]
  simp

/-- The files of a seat are below its root. -/
theorem seatRoot_prefix_of_finalOf {base f : FilePath} (h : FinalOf (SeatOf base) f) :
    ∃ id, seatRoot base id <+: f := by
  obtain ⟨root, tag, ⟨id, rfl, -⟩, hf⟩ := h
  refine ⟨id, ?_⟩
  rcases hf with rfl | rfl | rfl
  · exact List.prefix_append _ _
  · exact List.prefix_append _ _
  · exact List.prefix_append _ _

theorem OwnSeats.step {β : Type} {env : SysEnv} {note : Event SysOp SysOp.Resp → Option β}
    {base : FilePath} {op : SysOp} {w : Disk × List β} (hop : Replaces (FinalOf (SeatOf base)) op)
    (hw : OwnSeats w.1.tree base) : OwnSeats (recorded env note op w).2.1.tree base := by
  intro name hname hexists
  by_contra hnone
  have htemp : ¬ Temp (base ++ [name]) := not_temp_concat (by rw [head_of_isSeatName hname]; simp)
  have hframe : (recorded env note op w).2.1.tree[base ++ [name]]? = w.1.tree[base ++ [name]]? := by
    refine SysEnv.act_frame (hop.not_touches htemp (fun f hf hpre => ?_))
    obtain ⟨id, hroot⟩ := seatRoot_prefix_of_finalOf hf
    have hsame : base ++ [name] = seatRoot base id :=
      (List.prefix_of_prefix_length_le hpre hroot (by simp [seatRoot])).eq_of_length
        (by simp [seatRoot])
    exact hnone ⟨id, (List.cons.inj (List.append_cancel_left hsame)).1⟩
  rw [hframe] at hexists
  exact hnone (hw name hname hexists)

section Runs

variable [KeyCodec] [Json] [Age] [DecidableEq VerifyingKey]

omit [DecidableEq VerifyingKey] in
/-- Where there is no seat root, there is no file of a seat. -/
theorem NoSeats.coherent {t₀ : FileTree} {base : FilePath} (h : NoSeats t₀ base) :
    Coherent (SeatOf base) (⟨t₀, 0⟩, []) := by
  have hnone : ∀ f, FinalOf (SeatOf base) f → t₀[f]? = none := by
    intro f hf
    obtain ⟨id, rest, rfl⟩ := seatRoot_prefix_of_finalOf hf
    rw [seatRoot, List.append_assoc]
    exact h _ rest (isSeatName_seatDir id.scalar)
  intro p bytes hp
  have hnot : ¬ FinalOf (SeatOf base) p := fun hf => by cases (hnone p hf).symm.trans hp
  constructor
  · exact fun root tag htag hpath => absurd ⟨root, tag, htag, Or.inl hpath⟩ hnot
  · exact fun root tag htag hpath => absurd ⟨root, tag, htag, Or.inr (Or.inl hpath)⟩ hnot
  · exact fun root tag htag hpath => absurd ⟨root, tag, htag, Or.inr (Or.inr hpath)⟩ hnot

/-! ## Seats of a ceremony -/

omit [Json] [Age] in
/-- The place of a seat in its ceremony is its number. -/
theorem scalar_of_mem_zipIdx {input : CeremonyInput} {t n : UInt16}
    {shares : BTreeMap Identifier KeyPackage} {group : PublicKeyPackage}
    (h : runInprocessDkg input t n = .ok (shares, group)) {seat : (Identifier × KeyPackage) × Nat}
    (hseat : seat ∈ shares.toList.zipIdx) : seat.1.1.scalar = seat.2 + 1 := by
  have hget := congrArg (fun scalars : List Nat => scalars[seat.2]?) (runInprocessDkg_toList h)
  have hmem : shares.toList[seat.2]? = some seat.1 := List.mem_zipIdx_iff_getElem?.mp hseat
  obtain ⟨hlt, -⟩ := List.getElem?_eq_some_iff.mp hmem
  have hlength := congrArg List.length (runInprocessDkg_toList h)
  rw [List.length_map, List.length_range'] at hlength
  simp only [List.getElem?_map, hmem, Option.map_some] at hget
  rw [List.getElem?_range' (hlength ▸ hlt)] at hget
  simpa [Nat.add_comm] using hget

omit [Json] [Age] in
theorem seatKey_of_mem_zipIdx (hagree : PackagesAgree) {input : CeremonyInput} {t n : UInt16}
    {shares : BTreeMap Identifier KeyPackage} {group : PublicKeyPackage}
    (h : runInprocessDkg input t n = .ok (shares, group)) {seat : (Identifier × KeyPackage) × Nat}
    (hseat : seat ∈ shares.toList.zipIdx) :
    FrostKeys.seatKey seat.1.2 = FrostKeys.groupKey group := by
  have hmem : shares[seat.1.1]? = some seat.1.2 :=
    BTreeMap.mem_toList.mp (List.fst_mem_of_mem_zipIdx hseat)
  obtain ⟨group', hgroup, hkey⟩ := (runInprocessDkg_confirmed h).seatKey hagree _ _ hmem
  cases hgroup
  exact hkey

/-! ## Interrupted runs -/

/-- One persisting run, and the number of system calls after which it stops. -/
structure Attempt where
  input : CeremonyInput
  t : UInt16
  n : UInt16
  passphrase : Except StoreError Passphrase
  steps : Nat

namespace Attempt

def program (self : Attempt) (base : FilePath) :
    CliM (BTreeMap Identifier KeyPackage × PublicKeyPackage) :=
  persistDkgShares self.input base self.t self.n self.passphrase

/-- Note what is replaced, with the group key that the run has generated. -/
def note (self : Attempt) (ev : Event SysOp SysOp.Resp) : Option (FilePath × VerifyingKey) :=
  match runInprocessDkg self.input self.t self.n with
  | .ok (_, group) => noteKey (FrostKeys.groupKey group) ev
  | .error _ => none

/-- What the run leaves behind. -/
def perform (env : SysEnv) (base : FilePath) (w : Disk × KeyLog) (self : Attempt) : Disk × KeyLog :=
  Program.replay (recorded env self.note) w
    (((self.program base).run (recorded env self.note) w).trace.take self.steps)

theorem perform_keeps {env : SysEnv} {base : FilePath} {self : Attempt} {w : Disk × KeyLog}
    {I : Disk × KeyLog → Prop} (hw : I w)
    (h : ∀ shares group secret, runInprocessDkg self.input self.t self.n = .ok (shares, group) →
      ∀ seat ∈ shares.toList.zipIdx, ∀ w, I w → (persistSeat base secret group seat).Keeps
        (recorded env (noteKey (FrostKeys.groupKey group))) I (fun _ _ => True) w) :
    I (self.perform env base w) := by
  refine Program.Keeps.interrupt (Q := fun _ _ => True) ?_ self.steps
  unfold program persistDkgShares
  cases hceremony : runInprocessDkg self.input self.t self.n with
  | error e => exact hw
  | ok out =>
      obtain ⟨shares, group⟩ := out
      have hnote : self.note = noteKey (FrostKeys.groupKey group) := by
        funext ev
        rw [note, hceremony]
      rw [hnote, Except.mapError_ok, Program.ofExcept_ok, Program.done_bind]
      refine (Program.keeps_ofExcept (Q := fun _ _ => True) hw (fun _ _ => trivial)).bind
        (fun secret w hw _ => ?_)
      refine (Program.Keeps.forM hw (h shares group secret hceremony)).bind (fun _ w hw _ => ?_)
      exact ⟨hw, trivial⟩

theorem perform_coherent (hlaws : RoundTrips) (hagree : PackagesAgree) {env : SysEnv}
    {base : FilePath} {self : Attempt} {w : Disk × KeyLog} (hw : Coherent (SeatOf base) w) :
    Coherent (SeatOf base) (self.perform env base w) := by
  refine perform_keeps hw (fun shares group secret hceremony seat hseat w hw => ?_)
  have hroot : base ++ [seatDir (seat.2 + 1)] = seatRoot base seat.1.1 := by
    rw [seatRoot, scalar_of_mem_zipIdx hceremony hseat]
  refine (putShare_coherent hlaws ⟨seat.1.1, hroot, rfl⟩ ?_ rfl hw).mapError _
  exact seatKey_of_mem_zipIdx hagree hceremony hseat

/-- A run makes no seat root but its own. -/
theorem perform_ownSeats {env : SysEnv} {base : FilePath} {self : Attempt} {w : Disk × KeyLog}
    (hw : OwnSeats w.1.tree base) : OwnSeats (self.perform env base w).1.tree base := by
  refine perform_keeps (I := fun w => OwnSeats w.1.tree base) hw
    (fun shares group secret hceremony seat hseat w hw => ?_)
  have hroot : base ++ [seatDir (seat.2 + 1)] = seatRoot base seat.1.1 := by
    rw [seatRoot, scalar_of_mem_zipIdx hceremony hseat]
  have hfinal (f : FilePath) (h : f = manifestPath (seatRoot base seat.1.1) ∨
      f = sharePath (seatRoot base seat.1.1) (seatTag seat.1.1) ∨
      f = publicPath (seatRoot base seat.1.1) .active .genesis) : FinalOf (SeatOf base) f :=
    ⟨_, _, ⟨seat.1.1, rfl, rfl⟩, h⟩
  unfold persistSeat
  rw [hroot]
  have huses : (ParticipantStore.putShare ⟨seatRoot base seat.1.1, .ok secret⟩ (seatTag seat.1.1)
      seat.1.2 group .active).Uses (Replaces (FinalOf (SeatOf base))) :=
    ParticipantStore.putShare_uses (hfinal _ (Or.inr (Or.inr rfl)))
      (hfinal _ (Or.inr (Or.inl rfl))) (hfinal _ (Or.inl rfl)) _ _ _
  have hstep (op : SysOp) (w : Disk × KeyLog) (hop : Replaces (FinalOf (SeatOf base)) op)
      (hw : OwnSeats w.1.tree base) :
      OwnSeats (recorded env (noteKey (FrostKeys.groupKey group)) op w).2.1.tree base := hw.step hop
  exact (huses.keeps (I := fun w : Disk × KeyLog => OwnSeats w.1.tree base) hstep hw).mapError _

end Attempt

/-- The base after a sequence of runs, and the record of what they have replaced. -/
def history (env : SysEnv) (base : FilePath) (t₀ : FileTree) (runs : List Attempt) : Disk × KeyLog :=
  runs.foldl (Attempt.perform env base) (⟨t₀, 0⟩, [])

theorem history_coherent (hlaws : RoundTrips) (hagree : PackagesAgree) {base : FilePath}
    {t₀ : FileTree} (hfresh : NoSeats t₀ base) (env : SysEnv) (runs : List Attempt) :
    Coherent (SeatOf base) (history env base t₀ runs) := by
  have hrun : ∀ w, Coherent (SeatOf base) w →
      Coherent (SeatOf base) (runs.foldl (Attempt.perform env base) w) := by
    induction runs with
    | nil => exact fun w hw => hw
    | cons self runs ih => exact fun w hw => ih _ (Attempt.perform_coherent hlaws hagree hw)
  exact hrun _ hfresh.coherent

theorem history_ownSeats {base : FilePath} {t₀ : FileTree} (hfresh : NoSeats t₀ base) (env : SysEnv)
    (runs : List Attempt) : OwnSeats (history env base t₀ runs).1.tree base := by
  have hrun : ∀ w : Disk × KeyLog, OwnSeats w.1.tree base →
      OwnSeats (runs.foldl (Attempt.perform env base) w).1.tree base := by
    induction runs with
    | nil => exact fun w hw => hw
    | cons self runs ih => exact fun w hw => ih _ (Attempt.perform_ownSeats hw)
  exact hrun _ (fun name hname h => absurd (hfresh name [] hname) h)

/-! ## The key of what is loaded -/

/-- The packages collected from roots that were last written for known keys. -/
structure Collected (base : FilePath) (log : KeyLog) (roots : List FilePath)
    (packages : BTreeMap Identifier KeyPackage) : Prop where
  found : ∀ (id : Identifier) (kp : KeyPackage), packages[id]? = some kp → seatRoot base id ∈ roots ∧
    lastKey log (sharePath (seatRoot base id) (seatTag id)) = some (FrostKeys.seatKey kp)
  complete : ∀ id, seatRoot base id ∈ roots → ∃ kp, packages[id]? = some kp

omit [Json] [Age] [DecidableEq VerifyingKey] in
theorem Collected.snoc {base : FilePath} {log : KeyLog} {roots : List FilePath}
    {packages : BTreeMap Identifier KeyPackage} (h : Collected base log roots packages)
    {id : Identifier} {kp : KeyPackage}
    (hkey : lastKey log (sharePath (seatRoot base id) (seatTag id)) = some (FrostKeys.seatKey kp)) :
    Collected base log (roots ++ [seatRoot base id]) (packages.insert id kp) where
  found := by
    intro id' kp' hget
    rw [BTreeMap.getElem?_insert] at hget
    split at hget
    · next hid =>
        cases hid
        cases hget
        exact ⟨by simp, hkey⟩
    · obtain ⟨hroot, hkey'⟩ := h.found id' kp' hget
      exact ⟨List.mem_append_left _ hroot, hkey'⟩
  complete := by
    intro id' hroot
    rw [BTreeMap.getElem?_insert]
    split
    · exact ⟨kp, rfl⟩
    · next hid =>
        rcases List.mem_append.mp hroot with hold | hnew
        · exact h.complete id' hold
        · exact absurd (seatRoot_injective base (List.mem_singleton.mp hnew)).symm hid

omit [DecidableEq VerifyingKey] in
theorem loadSeats_collected {base : FilePath} {env : SysEnv} {d : Disk} {log : KeyLog}
    (hcoherent : Coherent (SeatOf base) (d, log)) {secret : Passphrase} {roots : List FilePath}
    (hroots : ∀ root ∈ roots, ∃ id, root = seatRoot base id)
    {packages : BTreeMap Identifier KeyPackage}
    (h : ((roots.foldlM (loadSeat secret) ∅).run env.world d).result = .ok packages) :
    Collected base log roots packages := by
  refine loadSeats_ok (P := Collected base log) ⟨by simp, by simp⟩
    (fun done root keyPackages seat kp tick hmem hdone hload => ?_) h
  obtain ⟨id, rfl⟩ := hroots root hmem
  obtain ⟨tag, ⟨id', hroot, rfl⟩, hseat, hkey⟩ :=
    Coherent.loadOnlyActive (d := ⟨d.tree, tick⟩) hcoherent rfl ⟨id, rfl, rfl⟩ hload
  cases seatRoot_injective base hroot
  cases hseat
  exact hdone.snoc hkey

/-- The shares that are loaded after any runs on a fresh base are of the key of
    the group loaded with them exactly if the last run to have written the share
    of each selected root generated the same key as the last run to have written
    the envelope of the first. -/
theorem loaded_shares_agree_iff (hlaws : RoundTrips) (hagree : PackagesAgree) {base : FilePath}
    {t₀ : FileTree} (hfresh : NoSeats t₀ base) (env env' : SysEnv) (runs : List Attempt) {t : UInt16}
    {passphrase : Except StoreError Passphrase} {packages : BTreeMap Identifier KeyPackage}
    {group : PublicKeyPackage}
    (h : ((loadPersistedShares base t passphrase).run env'.world (history env base t₀ runs).1).result =
      .ok (packages, group)) :
    let w := history env base t₀ runs
    let roots := selectedRoots env' w.1 base t
    (confirmGroupKey packages group : Except (KeygenError Dkg.Error) Unit) = .ok () ↔
      ∀ first ∈ roots.head?, ∀ id, seatRoot base id ∈ roots →
        lastKey w.2 (sharePath (seatRoot base id) (seatTag id)) =
          lastKey w.2 (publicPath first .active .genesis) := by
  intro w roots
  have hcoherent : Coherent (SeatOf base) w := history_coherent hlaws hagree hfresh env runs
  have hown : OwnSeats w.1.tree base := history_ownSeats hfresh env runs
  have hseats : ∀ root ∈ roots, ∃ id, root = seatRoot base id := by
    intro root hroot
    obtain ⟨name, hprefix, rfl, hexists⟩ := mem_selectedRoots hroot
    obtain ⟨id, rfl⟩ := hown name (List.isPrefixOf_iff_prefix.mpr hprefix) hexists
    exact ⟨id, rfl⟩
  obtain ⟨first, rest, secret, hselected, -, -, ⟨tick, hloop⟩, tick', envelope, henvelope, hdecode⟩ :=
    loadPersistedShares_ok h
  have hroots : roots = first :: rest := hselected
  rw [hroots] at hseats ⊢
  have hcollected : Collected base w.2 (first :: rest) packages :=
    loadSeats_collected (d := ⟨w.1.tree, tick⟩) hcoherent hseats hloop
  obtain ⟨id₁, rfl⟩ := hseats first List.mem_cons_self
  have hallowed : SeatOf base (⟨seatRoot base id₁, .ok secret⟩ : ParticipantStore).root (seatTag id₁) :=
    ⟨id₁, rfl, rfl⟩
  have hgroup : lastKey w.2 (publicPath (seatRoot base id₁) .active .genesis) =
      some (FrostKeys.groupKey group) :=
    Coherent.loadPublicEnvelope (d := ⟨w.1.tree, tick'⟩) hcoherent hallowed henvelope hdecode
  simp only [List.head?_cons, Option.mem_def, Option.some.injEq, forall_eq', hgroup,
    confirmGroupKey_eq_ok]
  constructor
  · intro hconfirmed id hid
    obtain ⟨kp, hkp⟩ := hcollected.complete id hid
    rw [(hcollected.found id kp hkp).2, hconfirmed id kp hkp]
  · intro hkeys id kp hkp
    obtain ⟨hid, hkey⟩ := hcollected.found id kp hkp
    exact Option.some.inj (hkey.symm.trans (hkeys id hid))

end Runs

/-! ## A run that stops half way -/

open Store.Plain

/-- Two of two seats below `b`, and then another key that gets as far as the
    first of its seats. -/
def halfReplaced : List Attempt :=
  [⟨⟨(7 : UInt8), [], []⟩, 2, 2, .ok secret, 100⟩, ⟨⟨(8 : UInt8), [], []⟩, 2, 2, .ok secret, 24⟩]

/-- Loading both seats after these runs. -/
def mixedLoad : Program.Run SysOp SysOp.Resp Disk (Abort CliError)
    (BTreeMap Identifier KeyPackage × PublicKeyPackage) :=
  (loadPersistedShares ["b"] 2 (.ok secret)).run SysEnv.calm.world
    (history SysEnv.calm ["b"] ∅ halfReplaced).1

theorem confirm_mixedLoad : mixedLoad.result.toOption.map (fun out =>
    (confirmGroupKey out.1 out.2 : Except (KeygenError Dkg.Error) Unit).isOk) = some false := by
  decide +kernel

theorem noSeats_empty (base : FilePath) : NoSeats ∅ base := fun name rest _ => by simp

/-- The key of a share that the first run has left is not that of the envelope
    that the second has replaced. -/
theorem loaded_shares_agree_halfReplaced : ∃ packages group, mixedLoad.result = .ok (packages, group) ∧
    let w := history SysEnv.calm ["b"] ∅ halfReplaced
    let roots := selectedRoots SysEnv.calm w.1 ["b"] 2
    ((confirmGroupKey packages group : Except (KeygenError Dkg.Error) Unit) = .ok () ↔
      ∀ first ∈ roots.head?, ∀ id, seatRoot ["b"] id ∈ roots →
        lastKey w.2 (sharePath (seatRoot ["b"] id) (seatTag id)) =
          lastKey w.2 (publicPath first .active .genesis)) := by
  obtain ⟨⟨packages, group⟩, hload, -⟩ := Option.map_eq_some_iff.mp confirm_mixedLoad
  have hload := Except.toOption_eq_some.mp hload
  refine ⟨packages, group, hload, ?_⟩
  rw [mixedLoad] at hload
  exact loaded_shares_agree_iff roundTrips packagesAgree (noSeats_empty ["b"]) SysEnv.calm SysEnv.calm
    halfReplaced hload

/-- The loader returns shares of two keys. -/
theorem interrupted_run_mixes_keys : ∃ packages group, mixedLoad.result = .ok (packages, group) ∧
    (confirmGroupKey packages group : Except (KeygenError Dkg.Error) Unit) ≠ .ok () := by
  obtain ⟨⟨packages, group⟩, hload, hconfirm⟩ := Option.map_eq_some_iff.mp confirm_mixedLoad
  refine ⟨packages, group, Except.toOption_eq_some.mp hload, fun hok => ?_⟩
  rw [hok] at hconfirm
  cases hconfirm

end Cli
