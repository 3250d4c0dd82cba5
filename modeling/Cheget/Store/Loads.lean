-- SUMMARY: What a load that returns has found on disk; loading changes nothing.
import Cheget.Store.Replace

namespace Store

open Cli Crypto

/-! ## Reading -/

/-- A call that changes nothing. -/
def ReadOnly (op : SysOp) : Prop := ∀ q, ¬ op.Touches q

theorem readOnly_tree {ε α : Type} {p : SysM ε α} (hp : p.Uses ReadOnly) (env : SysEnv) (d : Disk) :
    (p.run env.world d).state.tree = d.tree := by
  apply BTreeMap.ext_getElem?
  intro q
  exact SysM.frame (hp.mono (fun _ hop => hop q)) env d

variable [KeyCodec] [Json]

theorem io_read_readOnly (p : FilePath) : (io (sys (.read p)) : StoreM Bytes).Uses ReadOnly :=
  uses_io ⟨fun _ h => h, fun _ => trivial⟩

namespace ParticipantStore

variable [Age] {self : ParticipantStore}

theorem loadManifest_readOnly : self.loadManifest.Uses ReadOnly := by
  refine ⟨fun _ h => h, fun content => ?_⟩
  cases content with
  | ok bytes => exact Program.uses_ofExcept _ _
  | error e => cases e <;> trivial

theorem loadShare_readOnly (tag : ShareTag) : (self.loadShare tag).Uses ReadOnly := by
  refine (Program.uses_ofExcept _ _).bind (fun secret => ?_)
  refine (io_read_readOnly _).bind (fun ciphertext => ?_)
  exact (Program.uses_ofExcept _ _).bind (fun plaintext => Program.uses_ofExcept _ _)

theorem loadOnlyActive_readOnly : self.loadOnlyActive.Uses ReadOnly := by
  refine loadManifest_readOnly.bind (fun manifest => ?_)
  refine (Program.uses_ofExcept _ _).bind (fun entry => ?_)
  refine (Program.uses_ofExcept _ _).bind (fun keyId => ?_)
  refine (Program.uses_ofExcept _ _).bind (fun seat => ?_)
  exact (loadShare_readOnly _).bind (fun keyPackage => trivial)

/-! ## What has been found -/

variable {env : SysEnv} {d : Disk}

theorem loadManifest_ok {manifest : Manifest}
    (h : (self.loadManifest.run env.world d).result = .ok manifest) :
    Finds self.root d.tree manifest := by
  unfold loadManifest at h
  obtain ⟨content, hread, hrest⟩ := Program.result_bind_ok h
  rw [sys, Program.run_perform] at hread
  cases content with
  | ok bytes =>
      rw [Program.run_ofExcept] at hrest
      exact Or.inr ⟨bytes, SysEnv.act_read_ok (Except.ok.inj hread), hrest⟩
  | error e =>
      cases e with
      | notFound =>
          cases hrest
          exact Or.inl rfl
      | alreadyExists => cases hrest
      | other code => cases hrest

/-- The file that a share is loaded from. -/
theorem loadShare_ok {tag : ShareTag} {kp : KeyPackage}
    (h : ((self.loadShare tag).run env.world d).result = .ok kp) :
    ∃ secret ciphertext plaintext, self.passphrase = .ok secret ∧
      d.tree[sharePath self.root tag]? = some (.file ciphertext) ∧
      decryptSecret secret ciphertext = .ok plaintext ∧
      KeyCodec.deserializeKeyPackage plaintext = .ok kp := by
  rw [run_loadShare] at h
  obtain ⟨secret, hsecret, h⟩ := Except.bind_eq_ok.mp h
  obtain ⟨ciphertext, hread, h⟩ := Except.bind_eq_ok.mp h
  obtain ⟨plaintext, hdecrypt, h⟩ := Except.bind_eq_ok.mp h
  exact ⟨secret, ciphertext, plaintext, hsecret, SysEnv.act_read_ok (Except.mapError_eq_ok.mp hread),
    hdecrypt, Except.mapError_eq_ok.mp h⟩

theorem loadPublicEnvelope_ok {keyId : KeyId} {epoch : Epoch} {envelope : PubkeyEnvelope}
    (h : ((self.loadPublicEnvelope keyId epoch).run env.world d).result = .ok envelope) :
    ∃ json, d.tree[publicPath self.root keyId epoch]? = some (.file json) ∧
      Json.envelopeFromSlice json = .ok envelope := by
  rw [run_loadPublicEnvelope] at h
  obtain ⟨json, hread, h⟩ := Except.bind_eq_ok.mp h
  exact ⟨json, SysEnv.act_read_ok (Except.mapError_eq_ok.mp hread), Except.mapError_eq_ok.mp h⟩

/-- The entry whose share is the active one. -/
theorem loadOnlyActive_ok {seat : SeatId} {kp : KeyPackage}
    (h : (self.loadOnlyActive.run env.world d).result = .ok (seat, kp)) :
    ∃ manifest entry keyId, Finds self.root d.tree manifest ∧
      manifest.shares.find? (fun e => e.state == .active) = some entry ∧
      entry.keyId = KeyId.label keyId ∧ seatFromHex entry.seat = .ok seat ∧
      ∃ tick, ((self.loadShare ⟨keyId, ⟨entry.epoch⟩, seat⟩).run env.world ⟨d.tree, tick⟩).result =
        .ok kp := by
  unfold loadOnlyActive at h
  obtain ⟨manifest, hmanifest, h⟩ := Program.result_bind_ok h
  have htree := readOnly_tree (self.loadManifest_readOnly) env d
  generalize (self.loadManifest.run env.world d).state = d' at h htree
  obtain ⟨entry, hentry, h⟩ := Program.result_bind_ok h
  obtain ⟨keyId, hkeyId, h⟩ := Program.result_bind_ok h
  obtain ⟨seat', hseat, h⟩ := Program.result_bind_ok h
  obtain ⟨kp', hshare, h⟩ := Program.result_bind_ok h
  rw [Program.run_ofExcept] at hentry hkeyId hseat
  simp only [Program.run_ofExcept] at hshare
  cases h
  refine ⟨manifest, entry, keyId, loadManifest_ok hmanifest, Option.okOr_eq_ok.mp hentry,
    KeyId.new_eq_ok.mp (Except.mapError_eq_ok.mp hkeyId), hseat, d'.tick, ?_⟩
  rw [← htree]
  exact hshare

end ParticipantStore

end Store
