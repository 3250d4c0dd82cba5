-- SUMMARY: What a write of one slot makes and removes is not above another slot, so that a load keeps its error.
import Cheget.Store.Slots

/-!
# Above a slot

Why a file cannot be read depends on what is above it. A write makes and removes its
own file and temporary files beside it, and neither is above the file of another slot.
-/

namespace Store

open Cli Crypto

/-- The call makes and removes no file that is at or above a path. -/
def Leaves (q : FilePath) (op : SysOp) : Prop := ∀ p ∈ op.filePaths, ¬ p <+: q

theorem Leaves.hasFile_run {ε α : Type} {p : SysM ε α} {q : FilePath} (hp : p.Uses (Leaves q)) (env : SysEnv)
    (d : Disk) : (p.run env.world d).state.tree.hasFile q = d.tree.hasFile q :=
  hp.preserves (g := fun d : Disk => d.tree.hasFile q) (fun _ _ hop => SysEnv.hasFile_act hop) d

/-- Neither a file nor a temporary file beside it is at or above a path. -/
structure Clears (f q : FilePath) : Prop where
  final : ¬ f <+: q
  temp : ∀ suffix, ¬ tempPath f.dropLast suffix <+: q

/-! ## Writes -/

section Writes

variable [KeyCodec] [Json] {q : FilePath}

omit [KeyCodec] [Json] in
theorem leaves_none {op : SysOp} (h : op.filePaths = []) : Leaves q op := fun p hp => by
  rw [h] at hp
  cases hp

omit [KeyCodec] [Json] in
theorem leaves_one {op : SysOp} {p : FilePath} (h : op.filePaths = [p]) (hp : ¬ p <+: q) : Leaves q op := by
  intro p' hp'
  rw [h] at hp'
  exact List.mem_singleton.mp hp' ▸ hp

theorem createDirSecure_leaves (path : FilePath) : (createDirSecure path).Uses (Leaves q) := by
  refine Program.Uses.bind (p := sys (.isDir path)) ⟨leaves_none rfl, fun _ => trivial⟩ (fun isDir => ?_)
  cases isDir with
  | true => trivial
  | false => exact uses_io ⟨leaves_none rfl, fun _ => trivial⟩

theorem cleanUp_leaves {tmp : FilePath} (htmp : ¬ tmp <+: q) (e : IoError) :
    (cleanUp tmp e).Uses (Leaves q) :=
  ⟨leaves_one rfl htmp, fun _ => trivial⟩

omit [KeyCodec] [Json] in
theorem writeTemp_leaves {tmp : FilePath} (htmp : ¬ tmp <+: q) (bytes : Bytes) :
    (writeTemp tmp bytes).Uses (Leaves q) := by
  refine ⟨leaves_one rfl htmp, fun created => (Program.uses_ofExcept _ created).bind (fun _ => ?_)⟩
  refine ⟨leaves_one rfl htmp, fun written => (Program.uses_ofExcept _ written).bind (fun _ => ?_)⟩
  exact ⟨leaves_none rfl, fun synced => Program.uses_ofExcept _ synced⟩

theorem writeAtomic_leaves {f : FilePath} (hf : Clears f q) (bytes : Bytes) :
    (writeAtomic f bytes).Uses (Leaves q) := by
  unfold writeAtomic
  split
  · trivial
  · refine ⟨leaves_none rfl, fun suffix => ?_⟩
    have htmp := hf.temp suffix
    refine (writeTemp_leaves htmp bytes).attempt.bind (fun written => ?_)
    cases written with
    | error e => exact cleanUp_leaves htmp e
    | ok out =>
        refine ⟨fun p hp => ?_, fun renamed => ?_⟩
        · rcases List.mem_cons.mp hp with rfl | hp
          · exact htmp
          · exact List.mem_singleton.mp hp ▸ hf.final
        · cases renamed with
          | error e => exact cleanUp_leaves htmp e
          | ok out => exact uses_io ⟨leaves_none rfl, fun _ => trivial⟩

variable [Age]

theorem putPublicEnvelope_leaves (self : ParticipantStore) {keyId : KeyId} {epoch : Epoch}
    (hf : Clears (publicPath self.root keyId epoch) q) (group : PublicKeyPackage) :
    (self.putPublicEnvelope keyId epoch group).Uses (Leaves q) := by
  refine (Program.uses_ofExcept _ _).bind (fun envelope => ?_)
  refine (Program.uses_ofExcept _ _).bind (fun json => ?_)
  exact (createDirSecure_leaves _).bind (fun _ => writeAtomic_leaves hf json)

theorem loadManifest_leaves (self : ParticipantStore) : self.loadManifest.Uses (Leaves q) := by
  refine ⟨leaves_none rfl, fun content => ?_⟩
  cases content with
  | ok bytes => exact Program.uses_ofExcept _ _
  | error e => cases e <;> trivial

theorem putShare_leaves (self : ParticipantStore) {tag : ShareTag}
    (hpublic : Clears (publicPath self.root tag.keyId tag.epoch) q) (hshare : Clears (sharePath self.root tag) q)
    (hmanifest : Clears (manifestPath self.root) q) (keyPackage : KeyPackage) (group : PublicKeyPackage)
    (state : ShareState) : (self.putShare tag keyPackage group state).Uses (Leaves q) := by
  refine (Program.uses_ofExcept _ _).bind (fun passphrase => ?_)
  refine (putPublicEnvelope_leaves self hpublic group).bind (fun _ => ?_)
  refine (createDirSecure_leaves _).bind (fun _ => ?_)
  refine (Program.uses_ofExcept _ _).bind (fun plaintext => ?_)
  refine ⟨leaves_none rfl, fun entropy => ?_⟩
  refine (Program.uses_ofExcept _ _).bind (fun ciphertext => ?_)
  refine (writeAtomic_leaves hshare ciphertext).bind (fun _ => ?_)
  refine (loadManifest_leaves self).bind (fun manifest => ?_)
  refine ⟨leaves_none rfl, fun now => ?_⟩
  refine (createDirSecure_leaves _).bind (fun _ => ?_)
  refine (Program.uses_ofExcept _ _).bind (fun json => ?_)
  exact writeAtomic_leaves hmanifest json

theorem putRound_leaves {self : CheckpointStore} {cid : CeremonyId} {seat : SeatId} {round : UInt8}
    (hf : Clears (roundPath self.root cid seat round) q) (plaintext : Bytes) :
    (self.putRound cid seat round plaintext).Uses (Leaves q) := by
  refine (Program.uses_ofExcept _ _).bind (fun passphrase => ?_)
  refine ⟨leaves_none rfl, fun entropy => ?_⟩
  refine (Program.uses_ofExcept _ _).bind (fun ciphertext => ?_)
  exact (createDirSecure_leaves _).bind (fun _ => writeAtomic_leaves hf ciphertext)

theorem persist_leaves {self : IdentityKeypair} {root : FilePath} (hf : Clears (identityPath root) q)
    (passphrase : Except StoreError Passphrase) : (self.persist root passphrase).Uses (Leaves q) := by
  refine (createDirSecure_leaves _).bind (fun _ => ?_)
  refine (Program.uses_ofExcept _ _).bind (fun pass => ?_)
  refine ⟨leaves_none rfl, fun entropy => ?_⟩
  exact (Program.uses_ofExcept _ _).bind (fun ciphertext => writeAtomic_leaves hf ciphertext)

end Writes

/-! ## Slots -/

namespace Slot

variable {root : FilePath}

theorem length_path (s : Slot) (root : FilePath) : (s.path root).length =
    root.length + (if s.kind = "pubkey" then 3 else if s.kind = identityFile then 1 else 4) := by
  cases s <;> simp [path, sharePath, publicPath, roundPath_eq, identityPath, kind, ceremoniesDir, identityFile]

/-- The files of a kind are equally deep. -/
theorem length_eq_of_kind {a b : Slot} (h : a.kind = b.kind) :
    (a.path root).length = (b.path root).length := by
  rw [a.length_path, b.length_path, h]

theorem kind_head (s : Slot) : s.kind.toList.head? ≠ some '.' := by
  cases s <;> simp [kind, ceremoniesDir, identityFile]

/-- A name in the root that is not of the kind is not above the slot. -/
theorem not_prefix_of_kind {s : Slot} {name : String} (h : s.kind ≠ name) (rest : FilePath) :
    ¬ root ++ name :: rest <+: s.path root := by
  obtain ⟨rest', hpath⟩ := s.path_eq_kind root
  rw [hpath, List.prefix_append_right_inj, List.cons_prefix_cons]
  exact fun hpre => h hpre.1.symm

theorem not_prefix_tempPath (s : Slot) (suffix : String) : ¬ tempPath root suffix <+: s.path root := by
  refine not_prefix_of_kind (fun hkind => s.kind_head ?_) []
  simp [hkind, String.toList_append]

/-- What a write of a slot makes is not above another one. -/
theorem clears (s₀ : Slot) {s : Slot} {q : FilePath} (hq : q <+: s.path root) (hne : q ≠ s.path root) :
    Clears (s₀.path root) q where
  final h := hne (hq.eq_of_length_le (by
    have hs : s₀ = s := eq_of_isPrefix (h.trans hq)
    exact hs ▸ h.length_le))
  temp suffix h := by
    obtain ⟨rest, hpath⟩ := s₀.path_eq_kind root
    rcases List.eq_nil_or_concat rest with rfl | ⟨rest, name, rfl⟩
    · -- a file in the root
      rw [hpath, List.dropLast_concat] at h
      exact s.not_prefix_tempPath suffix (h.trans hq)
    · have hdir : (s₀.path root).dropLast = root ++ s₀.kind :: rest := by
        rw [hpath, List.concat_eq_append, ← List.cons_append, ← List.append_assoc, List.dropLast_concat]
      rw [hdir] at h
      have hkind : s.kind = s₀.kind := by
        by_contra hkind
        exact not_prefix_of_kind hkind rest ((List.prefix_append _ _).trans (h.trans hq))
      have hlength : (tempPath (root ++ s₀.kind :: rest) suffix).length = (s.path root).length := by
        rw [length_eq_of_kind hkind, hpath]
        simp [tempPath]
      exact hne (hq.eq_of_length_le (hlength ▸ h.length_le))

theorem clears_manifestPath {s : Slot} {q : FilePath} (hq : q <+: s.path root) : Clears (manifestPath root) q where
  final h := by
    have hkind : s.kind ≠ "manifest.json" := by
      cases s <;> simp [kind, ceremoniesDir, identityFile]
    exact not_prefix_of_kind hkind [] (h.trans hq)
  temp suffix h := by
    rw [manifestPath, List.dropLast_concat] at h
    exact s.not_prefix_tempPath suffix (h.trans hq)

end Slot

end Store
