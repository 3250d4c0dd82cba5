-- SUMMARY: Every entry of the manifest has its complete share, over every interleaving of calls with failures and crashes anywhere.
import Cheget.Store.Coherent
import Cheget.Store.Plain
import Cheget.Store.Shared

namespace Store

open Cli Crypto

/-! ## Files -/

/-- The final files of one root. -/
def FilesOf (root : FilePath) : FilePath → Prop := FinalOf (fun root' _ => root' = root)

theorem not_temp_filesOf {root f : FilePath} (h : FilesOf root f) : ¬ Temp f := by
  obtain ⟨root', tag, rfl, hf⟩ := h
  rcases hf with rfl | rfl | rfl
  · exact not_temp_manifestPath root'
  · exact not_temp_sharePath root' tag
  · exact not_temp_publicPath root' _ _

theorem filesOf_sharePath (root : FilePath) (tag : ShareTag) : FilesOf root (sharePath root tag) :=
  ⟨root, tag, rfl, Or.inr (Or.inl rfl)⟩

theorem filesOf_publicPath (root : FilePath) (tag : ShareTag) :
    FilesOf root (publicPath root tag.keyId tag.epoch) := ⟨root, tag, rfl, Or.inr (Or.inr rfl)⟩

theorem filesOf_manifestPath (root : FilePath) (tag : ShareTag) : FilesOf root (manifestPath root) :=
  ⟨root, tag, rfl, Or.inl rfl⟩

section Backed

variable [KeyCodec] [Json] [Age] {ι : Type}

/-! ## The invariant -/

/-- The complete ciphertext of the share that a call was given. -/
def Put.Sealed (self : Put) (bytes : Bytes) : Prop :=
  ∃ secret entropy plaintext, self.passphrase = .ok secret ∧
    KeyCodec.serializeKeyPackage self.keyPackage = .ok plaintext ∧
    encryptSecret secret entropy plaintext = .ok bytes

/-- Every share on disk is complete, and every entry of the manifest has one. -/
structure Backed (root : FilePath) (calls : ι → Put) (t : FileTree) : Prop where
  shares : ∀ tag bytes, t[sharePath root tag]? = some (.file bytes) →
    ∃ k, (calls k).tag = tag ∧ (calls k).Sealed bytes
  manifest : ∀ bytes manifest, t[manifestPath root]? = some (.file bytes) →
    Manifest.fromJsonBytes bytes = .ok manifest → ∀ e ∈ manifest.shares, ∃ tag, e.Indexes tag ∧
      IsFile t (sharePath root tag)

variable {env : SysEnv} {root : FilePath} {calls : ι → Put} {k : ι}

theorem steady_backed : Steady env (FilesOf root) (fun w : Turns ι => Backed root calls w.1.tree) where
  prepares := by
    intro k op w hop hw
    have hfile {q : FilePath} {bytes : Bytes} (hq : ¬ Temp q) :
        (turn env k op w).2.1.tree[q]? = some (.file bytes) ↔ w.1.tree[q]? = some (.file bytes) :=
      hop.file_iff env w.1.tick hq
    constructor
    · intro tag bytes h
      exact hw.2.shares tag bytes ((hfile (not_temp_sharePath root tag)).mp h)
    · intro bytes manifest h hparse e he
      obtain ⟨tag, hindexes, content, hcontent⟩ := hw.2.manifest bytes manifest
        ((hfile (not_temp_manifestPath root)).mp h) hparse e he
      exact ⟨tag, hindexes, content, (hfile (not_temp_sharePath root tag)).mpr hcontent⟩
  failed := by
    intro k src dst w e herror hw
    have htree : (turn env k (.rename src dst) w).2.1.tree = w.1.tree := SysEnv.act_rename_error herror
    exact htree.symm ▸ hw.2

/-- A complete file may be put in place, if it is a share that a call was given
    or a manifest whose entries all have their shares. -/
theorem places_backed {f : FilePath} {bytes : Bytes} {w : Turns ι}
    (hshare : ∀ tag, f = sharePath root tag → ∃ k, (calls k).tag = tag ∧ (calls k).Sealed bytes)
    (hmanifest : f = manifestPath root → ∀ manifest, Manifest.fromJsonBytes bytes = .ok manifest →
      ∀ e ∈ manifest.shares, ∃ tag, e.Indexes tag ∧ IsFile w.1.tree (sharePath root tag)) :
    Places env (FilesOf root) (fun w => Backed root calls w.1.tree) k f bytes w := by
  intro tmp w' hext hw' htemp hcontent hok
  have hget {q : FilePath} (hq : ¬ Temp q) : (turn env k (.rename tmp f) w').2.1.tree[q]? =
      if f = q then some (.file bytes) else w'.1.tree[q]? := by
    have htmp : tmp ≠ q := fun h => hq (h ▸ htemp)
    rw [tree_rename_ok hcontent hok]
    simp [htmp]
  have hstays {tag : ShareTag} (h : IsFile w'.1.tree (sharePath root tag)) :
      IsFile (turn env k (.rename tmp f) w').2.1.tree (sharePath root tag) := by
    obtain ⟨content, hold⟩ := h
    rw [IsFile, hget (not_temp_sharePath root tag)]
    split
    · exact ⟨bytes, rfl⟩
    · exact ⟨content, hold⟩
  constructor
  · intro tag content h
    rw [hget (not_temp_sharePath root tag)] at h
    split at h
    · next hf =>
        cases h
        exact hshare tag hf
    · exact hw'.2.shares tag content h
  · intro content manifest h hparse e he
    rw [hget (not_temp_manifestPath root)] at h
    split at h
    · next hf =>
        cases h
        obtain ⟨tag, hindexes, hfile⟩ := hmanifest hf manifest hparse e he
        exact ⟨tag, hindexes, hstays (hext.files _ (filesOf_sharePath root tag) hfile)⟩
    · obtain ⟨tag, hindexes, hfile⟩ := hw'.2.manifest content manifest h hparse e he
      exact ⟨tag, hindexes, hstays hfile⟩

/-! ## Calls -/

/-- A manifest whose entries all have their shares. -/
def Supported (root : FilePath) (manifest : Manifest) (w : Turns ι) : Prop :=
  ∀ e ∈ manifest.shares, ∃ tag, e.Indexes tag ∧ IsFile w.1.tree (sharePath root tag)

/-- Every call keeps the invariant, side by side with the others. -/
theorem put_backed (hlaws : RoundTrips) (hsuffix : Function.Injective env.suffix) (w : Turns ι) :
    Behaves env (FilesOf root) (fun w => Backed root calls w.1.tree) k
      (fun _ w' => HasReplaced k (manifestPath root) w') ((calls k).program root) w := by
  refine put_behaves (P := Supported root) ⟨hsuffix, fun _ => not_temp_filesOf⟩ steady_backed
    (filesOf_publicPath root _) (filesOf_sharePath root _) (filesOf_manifestPath root (calls k).tag)
    ?_ ?_ ?_ ?_ ?_
  · intro json w
    refine places_backed (fun tag h => ?_) (fun h => ?_)
    · exact absurd h.symm (sharePath_ne_publicPath _ _ _ _ _)
    · exact absurd h (publicPath_ne_manifestPath _ _ _ _)
  · intro secret entropy plaintext ciphertext w hsecret hplaintext hciphertext
    refine places_backed (fun tag h => ?_) (fun h => ?_)
    · exact ⟨k, (sharePath_inj h).2, secret, entropy, plaintext, hsecret, hplaintext, hciphertext⟩
    · exact absurd h (sharePath_ne_manifestPath _ _ _)
  · intro w manifest hw hanswers e he
    rcases hanswers with ⟨bytes, hread, hparse⟩ | ⟨-, rfl⟩
    · obtain ⟨tag, hindexes, content, hfile⟩ :=
        hw.2.manifest bytes manifest (SysEnv.act_read_ok hread) hparse e he
      have hframe : (turn env k (.read (manifestPath root)) w).2.1.tree[sharePath root tag]? =
          w.1.tree[sharePath root tag]? := SysEnv.act_frame (fun h => h)
      exact ⟨tag, hindexes, content, hframe.trans hfile⟩
    · cases he
  · intro manifest w w' hext hsupported e he
    obtain ⟨tag, hindexes, hfile⟩ := hsupported e he
    exact ⟨tag, hindexes, hext.files _ (filesOf_sharePath root tag) hfile⟩
  · intro manifest now json w hsupported hfile hjson
    refine places_backed (fun tag h => ?_) (fun _ manifest' hparse e he => ?_)
    · exact absurd h.symm (sharePath_ne_manifestPath _ _ _)
    · rw [fromJsonBytes_eq hlaws hjson hparse] at he
      rcases mem_insertEntry he with rfl | hold
      · exact ⟨(calls k).tag, ⟨rfl, rfl, rfl⟩, hfile⟩
      · exact hsupported e hold

/-- On an initially empty root, however calls are interleaved, fail or stop,
    every entry of the manifest has its share on disk: the complete ciphertext
    of a key package that some call was given for the entry's tag. -/
theorem manifest_entries_have_shares [DecidableEq ι] (hlaws : RoundTrips) {env : SysEnv}
    (hsuffix : Function.Injective env.suffix) {root : FilePath} {t₀ : FileTree}
    (hempty : EmptyRoot t₀ root) (calls : ι → Put) (schedule : List ι) :
    let crew := (crewOf root calls (⟨t₀, 0⟩ : Disk)).after (fun _ => env.world) schedule
    ∀ bytes manifest, crew.state.tree[manifestPath root]? = some (.file bytes) →
      Manifest.fromJsonBytes bytes = .ok manifest → ∀ e ∈ manifest.shares, ∃ k content,
        e.Indexes (calls k).tag ∧
        crew.state.tree[sharePath root (calls k).tag]? = some (.file content) ∧
        (calls k).Sealed content := by
  intro crew bytes manifest hfile hparse e he
  have hstart : Backed root calls t₀ := by
    constructor
    · intro tag bytes h
      cases (hempty _ _).symm.trans h
    · intro bytes manifest h
      cases (hempty _ _).symm.trans h
  have hbacked : Backed root calls crew.state.tree := by
    have hkept := (crew_kept (I := fun w => Backed root calls w.1.tree)
      (fun _ => put_backed hlaws hsuffix) hstart schedule).1
    rwa [after_turn] at hkept
  obtain ⟨tag, hindexes, content, hcontent⟩ := hbacked.manifest bytes manifest hfile hparse e he
  obtain ⟨k, rfl, hsealed⟩ := hbacked.shares tag content hcontent
  exact ⟨k, content, hindexes, hcontent, hsealed⟩

end Backed

/-! ## Two calls -/

open Store.Plain

/-- The first call reads the manifest, the second runs to its end, and then the
    first. -/
def overlap : List Bool :=
  List.replicate 18 false ++ List.replicate 40 true ++ List.replicate 20 false

/-- The calls, after they have taken these turns below an empty root. -/
def overlapRun : Program.Crew Bool SysOp SysOp.Resp (Turns Bool) StoreError Unit :=
  (crewOf ["r"] bothSeats ((⟨∅, 0⟩, []) : Turns Bool)).after (turn SysEnv.calm) overlap

theorem seats_overlapRun :
    ((overlapRun.programs false).returned = some () ∧ (overlapRun.programs true).returned = some ()) ∧
      ((overlapRun.state.1.tree.read (manifestPath ["r"])).toOption.bind (fun bytes =>
        (Manifest.fromJsonBytes bytes).toOption)).map (fun manifest =>
          manifest.shares.map ShareEntry.seat) = some [seatHex firstTag.seat] := by
  decide +kernel

theorem manifest_overlapRun : ∃ bytes manifest,
    overlapRun.state.1.tree[manifestPath ["r"]]? = some (.file bytes) ∧
      Manifest.fromJsonBytes bytes = .ok manifest ∧
      manifest.shares.map ShareEntry.seat = [seatHex firstTag.seat] := by
  obtain ⟨manifest, hread, hseats⟩ := Option.map_eq_some_iff.mp seats_overlapRun.2
  obtain ⟨bytes, hbytes, hparse⟩ := Option.bind_eq_some_iff.mp hread
  exact ⟨bytes, manifest, FileTree.read_eq_ok.mp (Except.toOption_eq_some.mp hbytes),
    Except.toOption_eq_some.mp hparse, hseats⟩

/-- The one entry that is left after an overlap has its share. -/
theorem manifest_entries_have_shares_overlap :
    let crew := (crewOf ["r"] bothSeats (⟨∅, 0⟩ : Disk)).after (fun _ => SysEnv.calm.world) overlap
    ∃ bytes manifest, crew.state.tree[manifestPath ["r"]]? = some (.file bytes) ∧
      Manifest.fromJsonBytes bytes = .ok manifest ∧ manifest.shares ≠ [] ∧
      ∀ e ∈ manifest.shares, ∃ k content, e.Indexes (bothSeats k).tag ∧
        crew.state.tree[sharePath ["r"] (bothSeats k).tag]? = some (.file content) ∧
        (bothSeats k).Sealed content := by
  obtain ⟨bytes, manifest, hfile, hparse, hseats⟩ := manifest_overlapRun
  have hentries := manifest_entries_have_shares roundTrips SysEnv.suffix_calm_injective
    (emptyRoot_empty ["r"]) bothSeats overlap
  rw [overlapRun, after_turn] at hfile
  generalize (crewOf ["r"] bothSeats (⟨∅, 0⟩ : Disk)).after (fun _ => SysEnv.calm.world) overlap = crew
    at hfile hentries ⊢
  refine ⟨bytes, manifest, hfile, hparse, fun hnil => ?_, hentries bytes manifest hfile hparse⟩
  simp [hnil] at hseats

end Store
