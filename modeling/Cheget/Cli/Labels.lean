-- SUMMARY: Under which label a persisting key generation stores its shares, and when a second one leaves the first loadable.
import Cheget.Crypto.Outcome
import Cheget.Cli.Keygen
import Cheget.Store.Effects
import Cheget.Store.Plain

/-!
# Key labels on disk

The command takes a label for the key it generates. It puts it into the public
envelope of `--out`, and stores the shares under the conventional label of the
primary key.
-/

namespace Cli

open Crypto Store

/-! ## Labels of paths -/

/-- The label in the path of a stored share or envelope below `base`. -/
def storedLabel (base p : FilePath) : Option String := p[base.length + 2]?

/-- The paths that carry no label but the active one. -/
def ActiveOnly (base p : FilePath) : Prop := ∀ label, storedLabel base p = some label → label = "active"

/-- A path below one with a label has that label. -/
theorem storedLabel_of_isPrefix {base p q : FilePath} {label : String} (h : p <+: q)
    (hp : storedLabel base p = some label) : storedLabel base q = some label := by
  obtain ⟨rest, rfl⟩ := h
  obtain ⟨hlt, hget⟩ := List.getElem?_eq_some_iff.mp hp
  rw [storedLabel, List.getElem?_append_left hlt]
  exact hp

theorem storedLabel_sharePath (base : FilePath) (dir : String) (tag : ShareTag) :
    storedLabel base (sharePath (base ++ [dir]) tag) = some tag.keyId.label := by
  simp [storedLabel, sharePath]

theorem storedLabel_publicPath (base : FilePath) (dir : String) (keyId : KeyId) (epoch : Epoch) :
    storedLabel base (publicPath (base ++ [dir]) keyId epoch) = some keyId.label := by
  simp [storedLabel, publicPath]

theorem storedLabel_manifestPath (base : FilePath) (dir : String) :
    storedLabel base (manifestPath (base ++ [dir])) = none := by
  simp [storedLabel, manifestPath]

section Labels

variable [KeyCodec] [Json] [Age]

/-! ## What is held -/

/-- The outcome of a program on a tree, when no system call fails. -/
def loads {ε α : Type} (t : FileTree) (p : SysM ε α) : Except ε α := (p.run SysEnv.calm.world ⟨t, 0⟩).result

/-- Every share and every group envelope of a ceremony can be loaded under a
    label, and is the one given. -/
def HeldUnder (t : FileTree) (base : FilePath) (label : String) (secret : Passphrase)
    (shares : BTreeMap Identifier KeyPackage) (group : PublicKeyPackage) : Prop :=
  ∃ keyId : KeyId, keyId.label = label ∧ ∀ seat ∈ shares.toList.zipIdx,
    let store : ParticipantStore := ⟨base ++ [seatDir (seat.2 + 1)], .ok secret⟩
    loads t (store.loadShare ⟨keyId, .genesis, seat.1.1⟩) = .ok seat.1.2 ∧
      ∃ envelope, loads t (store.loadPublicEnvelope keyId .genesis) = .ok envelope ∧
        envelope.decodePackage = .ok group

/-- Every share and envelope that a run has written is tagged with a label. -/
def TaggedWith (base : FilePath) (label : String) (trace : List (Event SysOp SysOp.Resp)) : Prop :=
  ∀ ev ∈ trace, ∀ p, replaced ev = some p → ∀ l, storedLabel base p = some l → l = label

theorem loads_loadShare_congr {t t' : FileTree} {self : ParticipantStore} {tag : ShareTag}
    (h : t[sharePath self.root tag]? = t'[sharePath self.root tag]?) (keyPackage : KeyPackage) :
    loads t (self.loadShare tag) = .ok keyPackage ↔ loads t' (self.loadShare tag) = .ok keyPackage := by
  rw [loads, self.run_loadShare, loads, self.run_loadShare]
  rw [ParticipantStore.openShare_eq_ok, ParticipantStore.openShare_eq_ok]
  exact exists_congr (fun bytes => and_congr_left' (FileTree.read_congr h bytes))

theorem loads_loadPublicEnvelope_congr {t t' : FileTree} {self : ParticipantStore} {keyId : KeyId}
    {epoch : Epoch}
    (h : t[publicPath self.root keyId epoch]? = t'[publicPath self.root keyId epoch]?)
    (envelope : PubkeyEnvelope) :
    loads t (self.loadPublicEnvelope keyId epoch) = .ok envelope ↔
      loads t' (self.loadPublicEnvelope keyId epoch) = .ok envelope := by
  rw [loads, self.run_loadPublicEnvelope, loads, self.run_loadPublicEnvelope]
  simp only [Except.bind_eq_ok, Except.mapError_eq_ok]
  exact exists_congr (fun bytes => and_congr_left' (FileTree.read_congr h bytes))

theorem heldUnder_keyId {t : FileTree} {base : FilePath} {keyId : KeyId} {secret : Passphrase}
    {shares : BTreeMap Identifier KeyPackage} {group : PublicKeyPackage} :
    HeldUnder t base keyId.label secret shares group ↔ ∀ seat ∈ shares.toList.zipIdx,
      let store : ParticipantStore := ⟨base ++ [seatDir (seat.2 + 1)], .ok secret⟩
      (loads t (store.loadShare ⟨keyId, .genesis, seat.1.1⟩)).toOption = some seat.1.2 ∧
        ((loads t (store.loadPublicEnvelope keyId .genesis)).toOption.bind
          (fun envelope => envelope.decodePackage.toOption)) = some group := by
  simp only [Option.bind_eq_some_iff, Except.toOption_eq_some]
  constructor
  · rintro ⟨keyId', hlabel, h⟩
    rwa [KeyId.label_injective hlabel] at h
  · exact fun h => ⟨keyId, rfl, h⟩

/-- Only the files under the label matter. -/
theorem heldUnder_congr {t t' : FileTree} {base : FilePath} {label : String} {secret : Passphrase}
    {shares : BTreeMap Identifier KeyPackage} {group : PublicKeyPackage}
    (h : ∀ q, storedLabel base q = some label → ¬ Temp q → t[q]? = t'[q]?) :
    HeldUnder t base label secret shares group ↔ HeldUnder t' base label secret shares group := by
  refine exists_congr (fun keyId => and_congr_right (fun hlabel => ?_))
  refine forall₂_congr (fun seat _ => ?_)
  dsimp only
  refine and_congr (loads_loadShare_congr ?_ _)
    (exists_congr (fun envelope => and_congr_left' (loads_loadPublicEnvelope_congr ?_ envelope)))
  · apply h _ _ (not_temp_sharePath _ _)
    rw [storedLabel_sharePath, hlabel]
  · apply h _ _ (not_temp_publicPath _ _ _)
    rw [storedLabel_publicPath, hlabel]

/-! ## The effects of the command -/

variable [DecidableEq VerifyingKey]

/-- The files of one seat, in the order in which they are replaced. -/
def seatFiles (base : FilePath) (seat : (Identifier × KeyPackage) × Nat) : List FilePath :=
  let root := base ++ [seatDir (seat.2 + 1)]
  [publicPath root .active .genesis, sharePath root ⟨.active, .genesis, seat.1.1⟩, manifestPath root]

omit [Json] [Age] [DecidableEq VerifyingKey] in
theorem activeOnly_seatFiles (base : FilePath) (seat : (Identifier × KeyPackage) × Nat) :
    ∀ f ∈ seatFiles base seat, ActiveOnly base f := by
  intro f hf label h
  simp only [seatFiles, List.mem_cons, List.not_mem_nil, or_false] at hf
  rcases hf with rfl | rfl | rfl
  · rw [storedLabel_publicPath] at h
    exact (Option.some.inj h).symm
  · rw [storedLabel_sharePath] at h
    exact (Option.some.inj h).symm
  · rw [storedLabel_manifestPath] at h
    cases h

omit [DecidableEq VerifyingKey] in
theorem persistSeat_uses (base : FilePath) (secret : Passphrase) (group : PublicKeyPackage)
    (seat : (Identifier × KeyPackage) × Nat) :
    (persistSeat base secret group seat).Uses (Replaces (ActiveOnly base)) := by
  have hfiles := activeOnly_seatFiles base seat
  exact (ParticipantStore.putShare_uses (hfiles _ (by simp [seatFiles]))
    (hfiles _ (by simp [seatFiles])) (hfiles _ (by simp [seatFiles])) _ _ _).mapError _

omit [DecidableEq VerifyingKey] in
theorem persistSeat_emits (base : FilePath) (secret : Passphrase) (group : PublicKeyPackage)
    (seat : (Identifier × KeyPackage) × Nat) :
    (persistSeat base secret group seat).Emits replaced (seatFiles base seat) :=
  (ParticipantStore.putShare_emits _ _ _ _ _).mapError _

/-- One invocation of the command. -/
structure Invocation where
  input : CeremonyInput
  home : Option FilePath
  passphrase : Except StoreError Passphrase
  args : KeygenArgs

namespace Invocation

def program (self : Invocation) : CliM Unit :=
  keygen self.input self.home self.passphrase self.args

/-- The invocation persists its shares below a base. -/
def PersistsAt (self : Invocation) (base : FilePath) : Prop :=
  self.args.persist = true ∧ (self.args.base <|> self.home) = some base

/-- The ceremony that the invocation runs. -/
def ceremony (self : Invocation) :
    Except (Abort (KeygenError Dkg.Error)) (BTreeMap Identifier KeyPackage × PublicKeyPackage) :=
  runInprocessDkg self.input self.args.resolveTn.1 self.args.resolveTn.2

/-- All that the invocation is to persist can be loaded under its label. -/
def HeldIn (self : Invocation) (t : FileTree) (base : FilePath) : Prop :=
  ∀ secret shares group, self.passphrase = .ok secret → self.ceremony = .ok (shares, group) →
    HeldUnder t base self.args.keyId secret shares group

/-- `HeldIn`, for a known passphrase and label. -/
def Loads (self : Invocation) (t : FileTree) (base : FilePath) (secret : Passphrase)
    (keyId : KeyId) : Prop :=
  ∀ out ∈ self.ceremony.toOption, ∀ seat ∈ out.1.toList.zipIdx,
    let store : ParticipantStore := ⟨base ++ [seatDir (seat.2 + 1)], .ok secret⟩
    (loads t (store.loadShare ⟨keyId, .genesis, seat.1.1⟩)).toOption = some seat.1.2 ∧
      ((loads t (store.loadPublicEnvelope keyId .genesis)).toOption.bind
        (fun envelope => envelope.decodePackage.toOption)) = some out.2

instance decidableLoads [DecidableEq KeyPackage] [DecidableEq PublicKeyPackage] (self : Invocation)
    (t : FileTree) (base : FilePath) (secret : Passphrase) (keyId : KeyId) :
    Decidable (self.Loads t base secret keyId) :=
  inferInstanceAs (Decidable (∀ out ∈ self.ceremony.toOption, ∀ seat ∈ out.1.toList.zipIdx, _ ∧ _))

theorem heldIn_iff {self : Invocation} {t : FileTree} {base : FilePath} {secret : Passphrase}
    {keyId : KeyId} (hsecret : self.passphrase = .ok secret) (hkey : self.args.keyId = keyId.label) :
    self.HeldIn t base ↔ self.Loads t base secret keyId := by
  simp only [HeldIn, Loads, hsecret, hkey, heldUnder_keyId, Option.mem_def, Except.toOption_eq_some]
  constructor
  · exact fun h out hout => h secret out.1 out.2 rfl hout
  · intro h secret' shares group hsecret' hceremony
    cases hsecret'
    exact h (shares, group) hceremony

/-- The file that `--out` names, and what it is to hold. -/
def outFile (self : Invocation) : Option (FilePath × Bytes) := do
  let out ← self.args.out
  let (_, group) ← self.ceremony.toOption
  let envelope ← (PubkeyEnvelope.fromPackage self.args.keyId 0 group).toOption
  let json ← (Json.envelopeToVec envelope).toOption
  pure (out, json)

/-- A tree with the `--out` file of the invocation. -/
def withOut (self : Invocation) (t : FileTree) : FileTree :=
  match self.outFile with
  | some (out, json) => t.insert out (.file json)
  | none => t

theorem withOut_congr {self : Invocation} {t t' : FileTree} {q : FilePath} (h : t[q]? = t'[q]?) :
    (self.withOut t)[q]? = (self.withOut t')[q]? := by
  unfold withOut
  split
  · rw [BTreeMap.getElem?_insert, BTreeMap.getElem?_insert, h]
  · exact h

/-- The last step of the command. -/
def outStep (self : Invocation) (group : PublicKeyPackage) : CliM Unit :=
  match self.args.out with
  | some out => writePublicEnvelope self.args.keyId group out
  | none => pure ()

/-- An invocation that returns has passed its checks, and is the loop over its
    seats and the last step. -/
theorem program_of_ok {self : Invocation} {base : FilePath} (hpersists : self.PersistsAt base)
    {env : SysEnv} {d : Disk} (hok : (self.program.run env.world d).result = .ok ()) :
    ∃ shares group secret, self.ceremony = .ok (shares, group) ∧ self.passphrase = .ok secret ∧
      self.program = (shares.toList.zipIdx.forM (persistSeat base secret group) >>= fun _ =>
        self.outStep group) := by
  obtain ⟨hpersist, hbase⟩ := hpersists
  have hvalid : ¬ (self.args.resolveTn.1 = 0 ∨ self.args.resolveTn.2 = 0 ∨
      self.args.resolveTn.2 < self.args.resolveTn.1) := by
    intro hinvalid
    simp only [program, keygen, hinvalid, if_true] at hok
    cases hok
  have hprogram : self.program = (do
      let secret ← lift (self.passphrase.mapError .store)
      let (_, group) ← persistDkgShares self.input base self.args.resolveTn.1
        self.args.resolveTn.2 (.ok secret)
      self.outStep group) := by
    simp only [program, keygen, hvalid, hpersist, hbase, if_true, if_false, reduceCtorEq, and_false]
    rfl
  rw [hprogram] at hok ⊢
  obtain ⟨secret, hsecret, hok⟩ := Program.result_bind_ok hok
  rw [lift, Program.run_ofExcept, Except.mapError_eq_ok, Except.mapError_eq_ok] at hsecret
  obtain ⟨out, hpersisted, -⟩ := Program.result_bind_ok hok
  obtain ⟨⟨shares, group⟩, hceremony, -⟩ := Program.result_bind_ok hpersisted
  rw [Program.run_ofExcept, Except.mapError_eq_ok] at hceremony
  refine ⟨shares, group, secret, hceremony, hsecret, ?_⟩
  simp only [persistDkgShares, hsecret, hceremony, lift, Except.mapError_ok, Program.ofExcept_ok,
    Program.done_bind, bind_assoc, pure_bind]

omit [DecidableEq VerifyingKey] in
theorem outStep_emits (self : Invocation) (group : PublicKeyPackage) :
    (self.outStep group).Emits replaced [] := by
  unfold outStep
  split
  · refine (Program.emits_ofExcept _).bind (fun envelope => ?_)
    refine (Program.emits_ofExcept _).bind (fun json => ?_)
    refine fun created => (Program.emits_ofExcept _).bind (fun _ => ?_)
    exact fun written => Program.emits_ofExcept _
  · rfl

omit [Age] [DecidableEq VerifyingKey] in
/-- A returning write of the envelope leaves it in the file. -/
theorem writePublicEnvelope_ok {keyId : String} {group : PublicKeyPackage} {out : FilePath}
    {env : SysEnv} {d : Disk}
    (hok : ((writePublicEnvelope keyId group out).run env.world d).result = .ok ()) :
    ∃ envelope json, PubkeyEnvelope.fromPackage keyId 0 group = .ok envelope ∧
      Json.envelopeToVec envelope = .ok json ∧
      ∀ q : FilePath, ((writePublicEnvelope keyId group out).run env.world d).state.tree[q]? =
        (d.tree.insert out (.file json))[q]? := by
  unfold writePublicEnvelope at hok ⊢
  obtain ⟨envelope, hfrom, hrest⟩ := Program.result_bind_ok hok
  obtain ⟨json, hjson, -⟩ := Program.result_bind_ok hrest
  rw [lift, Program.run_ofExcept, Except.mapError_eq_ok, Except.mapError_eq_ok] at hfrom hjson
  refine ⟨envelope, json, hfrom, hjson, fun q => ?_⟩
  simp only [hfrom, hjson, lift, Except.mapError_ok, Program.ofExcept_ok, Program.done_bind] at hok ⊢
  simp only [sys, Program.perform, Program.exec_bind, Program.done_bind, Program.run_exec] at hok ⊢
  cases hcreated : (env.world (.createTruncate out) d).1 with
  | error e =>
      rw [hcreated] at hok
      cases hok
  | ok created =>
      rw [hcreated] at hok
      simp only [Except.mapError_ok, Program.ofExcept_ok, Program.done_bind, Program.run_exec,
        Program.run_ofExcept, Except.mapError_eq_ok] at hok ⊢
      have hempty : (env.world (.createTruncate out) d).2.tree = d.tree.insert out (.file []) :=
        SysEnv.act_createTruncate_ok hcreated
      have hcontent : (env.world (.createTruncate out) d).2.tree[out]? = some (.file []) := by
        rw [hempty, BTreeMap.getElem?_insert, if_pos rfl]
      have hwritten := SysEnv.act_writeAll_ok hcontent hok
      have hlast : (env.world (.writeAll out json) (env.world (.createTruncate out) d).2).2.tree =
          (env.world (.createTruncate out) d).2.tree.insert out (.file ([] ++ json)) := hwritten
      rw [hlast, hempty]
      simp only [BTreeMap.getElem?_insert, List.nil_append]
      split <;> rfl

/-- What a returning invocation leaves under other labels than the active one:
    what was there, and the file of `--out`. -/
theorem getElem?_of_ok {self : Invocation} {base : FilePath} (hpersists : self.PersistsAt base)
    {env : SysEnv} {d : Disk} (hok : (self.program.run env.world d).result = .ok ())
    {q : FilePath} {label : String} (hlabel : storedLabel base q = some label)
    (hactive : label ≠ "active") (htemp : ¬ Temp q) :
    (self.program.run env.world d).state.tree[q]? = (self.withOut d.tree)[q]? := by
  obtain ⟨shares, group, secret, hceremony, -, hprogram⟩ := program_of_ok hpersists hok
  rw [hprogram] at hok ⊢
  obtain ⟨_, hloop, hout⟩ := Program.result_bind_ok hok
  have hframe : ((shares.toList.zipIdx.forM (persistSeat base secret group)).run env.world d).state.tree[q]? =
      d.tree[q]? := by
    refine SysM.frame (Program.Uses.mono (Program.Uses.forM fun seat _ => persistSeat_uses base secret group seat)
      (fun op hop => hop.not_touches htemp ?_)) env d
    intro f hf hpre
    exact hactive (hf label (storedLabel_of_isPrefix hpre hlabel))
  rw [Program.run_bind_ok hloop]
  rw [withOut, outFile, hceremony]
  unfold outStep at hout ⊢
  cases hargs : self.args.out with
  | none => exact hframe
  | some out =>
      rw [hargs] at hout
      obtain ⟨envelope, json, hfrom, hjson, htree⟩ := writePublicEnvelope_ok hout
      rw [htree, BTreeMap.getElem?_insert, hframe]
      simp [hfrom, hjson]

/-- What a persisting invocation that returns has replaced. -/
theorem replaced_of_ok {self : Invocation} {base : FilePath} (hpersists : self.PersistsAt base)
    {env : SysEnv} {d : Disk} (hok : (self.program.run env.world d).result = .ok ()) :
    ∃ shares group, self.ceremony = .ok (shares, group) ∧
      (self.program.run env.world d).trace.filterMap replaced =
        shares.toList.zipIdx.flatMap (seatFiles base) := by
  obtain ⟨shares, group, secret, hceremony, -, hprogram⟩ := program_of_ok hpersists hok
  refine ⟨shares, group, hceremony, ?_⟩
  rw [hprogram] at hok ⊢
  have hemits := (Program.Emits.forM (fun seat (_ : seat ∈ shares.toList.zipIdx) =>
    persistSeat_emits base secret group seat)).bind (fun _ => self.outStep_emits group)
  rw [List.append_nil] at hemits
  exact (hemits.trace env.world d).2 () hok

theorem taggedWith_active_of_ok {self : Invocation} {base : FilePath} (hpersists : self.PersistsAt base)
    {env : SysEnv} {d : Disk} (hok : (self.program.run env.world d).result = .ok ()) :
    TaggedWith base "active" (self.program.run env.world d).trace := by
  obtain ⟨shares, group, -, hreplaced⟩ := replaced_of_ok hpersists hok
  intro ev hev p hp
  have hmem : p ∈ shares.toList.zipIdx.flatMap (seatFiles base) :=
    hreplaced ▸ List.mem_filterMap.mpr ⟨ev, hev, hp⟩
  obtain ⟨seat, -, hseat⟩ := List.mem_flatMap.mp hmem
  exact activeOnly_seatFiles base seat p hseat

/-- It has replaced at least one share. -/
theorem exists_active_of_ok {self : Invocation} {base : FilePath} (hpersists : self.PersistsAt base)
    {env : SysEnv} {d : Disk} (hok : (self.program.run env.world d).result = .ok ()) :
    ∃ ev ∈ (self.program.run env.world d).trace, ∃ p,
      replaced ev = some p ∧ storedLabel base p = some "active" := by
  obtain ⟨shares, group, hceremony, hreplaced⟩ := replaced_of_ok hpersists hok
  have hne : shares.toList.zipIdx ≠ [] := by
    rw [ne_eq, List.zipIdx_eq_nil_iff]
    exact runInprocessDkg_toList_ne_nil hceremony
  obtain ⟨seat, hseat⟩ := List.exists_mem_of_ne_nil _ hne
  have hmem : sharePath (base ++ [seatDir (seat.2 + 1)]) ⟨.active, .genesis, seat.1.1⟩ ∈
      (self.program.run env.world d).trace.filterMap replaced := by
    rw [hreplaced]
    exact List.mem_flatMap.mpr ⟨seat, hseat, by simp [seatFiles]⟩
  obtain ⟨ev, hev, hp⟩ := List.mem_filterMap.mp hmem
  exact ⟨ev, hev, _, hp, storedLabel_sharePath _ _ _⟩

/-- After two persisting invocations with different labels, all that the first
    has persisted is held under its label and the second has written under its
    own, exactly if the second label is the active one and the base held the
    shares of the first under its label before, whoever put them there. -/
theorem keygen_keeps_other_key_iff {first second : Invocation} {base : FilePath}
    (hlabels : first.args.keyId ≠ second.args.keyId) (hfirst : first.PersistsAt base)
    (hsecond : second.PersistsAt base) {env : SysEnv} {d : Disk}
    (hok : (first.program.run env.world d).result = .ok ())
    (hok' : (second.program.run env.world (first.program.run env.world d).state).result = .ok ()) :
    let run := second.program.run env.world (first.program.run env.world d).state
    (first.HeldIn run.state.tree base ∧ TaggedWith base second.args.keyId run.trace) ↔
      (second.args.keyId = "active" ∧ first.HeldIn (second.withOut (first.withOut d.tree)) base) := by
  intro run
  obtain ⟨ev, hev, p, hp, hactive⟩ := exists_active_of_ok hsecond hok'
  have hheld (hkey : second.args.keyId = "active") :
      first.HeldIn run.state.tree base ↔ first.HeldIn (second.withOut (first.withOut d.tree)) base := by
    refine forall₃_congr (fun secret shares group => forall₂_congr (fun _ _ => ?_))
    apply heldUnder_congr
    intro q hq htemp
    have hne : first.args.keyId ≠ "active" := hkey ▸ hlabels
    rw [getElem?_of_ok hsecond hok' hq hne htemp]
    exact withOut_congr (getElem?_of_ok hfirst hok hq hne htemp)
  constructor
  · intro h
    have hkey : second.args.keyId = "active" := (h.2 ev hev p hp _ hactive).symm
    exact ⟨hkey, (hheld hkey).mp h.1⟩
  · intro h
    refine ⟨(hheld h.1).mpr h.2, ?_⟩
    rw [h.1]
    exact taggedWith_active_of_ok hsecond hok'

end Invocation

end Labels

/-! ## An active and a standby key -/

namespace Invocation

open Store.Plain

/-- Two of two seats below `b`, from the randomness that yields `key`. -/
def twoOfTwo (key : UInt8) (label : String) (out : Option FilePath) : Invocation where
  input := ⟨key, [], []⟩
  home := none
  passphrase := .ok secret
  args := ⟨some 2, some 2, false, label, out, true, some ["b"]⟩

/-- The first key, as the active one. -/
def activeKey : Invocation := twoOfTwo 7 "active" none

/-- A second key, as the standby one. -/
def standbyKey : Invocation := twoOfTwo 8 "standby" (some ["standby.json"])

/-- Persisting the first key on an empty disk. -/
def activeRun : Program.Run SysOp SysOp.Resp Disk (Abort CliError) Unit :=
  activeKey.program.run SysEnv.calm.world ⟨∅, 0⟩

/-- Persisting the second key after it. -/
def standbyRun : Program.Run SysOp SysOp.Resp Disk (Abort CliError) Unit :=
  standbyKey.program.run SysEnv.calm.world activeRun.state

theorem activeRun_standbyRun :
    activeRun.result.isOk = true ∧ standbyRun.result.isOk = true ∧
      activeKey.Loads activeRun.state.tree ["b"] secret .active ∧
      ¬ activeKey.Loads standbyRun.state.tree ["b"] secret .active := by
  decide +kernel

theorem keygen_keeps_other_key_standby :
    (activeKey.HeldIn standbyRun.state.tree ["b"] ∧
        TaggedWith ["b"] standbyKey.args.keyId standbyRun.trace) ↔
      (standbyKey.args.keyId = "active" ∧
        activeKey.HeldIn (standbyKey.withOut (activeKey.withOut ∅)) ["b"]) := by
  obtain ⟨hok, hok', -, -⟩ := activeRun_standbyRun
  have hlabels : activeKey.args.keyId ≠ standbyKey.args.keyId := by decide
  have hfirst : activeKey.PersistsAt ["b"] := ⟨rfl, rfl⟩
  have hsecond : standbyKey.PersistsAt ["b"] := ⟨rfl, rfl⟩
  have hrun := Except.eq_ok_of_isOk hok
  have hrun' := Except.eq_ok_of_isOk hok'
  rw [standbyRun, activeRun] at hrun'
  rw [activeRun] at hrun
  rw [standbyRun, activeRun]
  exact keygen_keeps_other_key_iff hlabels hfirst hsecond hrun hrun'

/-- Generating the standby key loses the active one. -/
theorem standby_replaces_active :
    activeRun.result = .ok () ∧ standbyRun.result = .ok () ∧
      activeKey.HeldIn activeRun.state.tree ["b"] ∧
      ¬ activeKey.HeldIn standbyRun.state.tree ["b"] := by
  obtain ⟨hok, hok', hheld, hlost⟩ := activeRun_standbyRun
  have hloads (t : FileTree) : activeKey.HeldIn t ["b"] ↔ activeKey.Loads t ["b"] secret .active :=
    heldIn_iff rfl rfl
  rw [hloads, hloads]
  exact ⟨Except.eq_ok_of_isOk hok, Except.eq_ok_of_isOk hok', hheld, hlost⟩

end Invocation

end Cli
