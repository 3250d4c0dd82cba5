-- SUMMARY: The stores on a root are independent maps: loads return what was put last at their own coordinates.
import Cheget.Base.WellFormed
import Cheget.Store.Above
import Cheget.Store.Plain
import Cheget.Store.Writes

/-!
# Stores as maps

Each artefact is loaded from its own slot. In the abstract, the stores on a root
are one map from slots to the results of loading them, and each call updates it
at the coordinates it names. The files refine this map.
-/

namespace Store

open Cli Crypto

deriving instance DecidableEq for Slot

section Stores

variable [KeyCodec] [Json] [Age] [RoundCodec]

/-! ## Loads -/

omit [Age] [RoundCodec] in
/-- A program that decodes what it reads. -/
theorem run_read_decode {α : Type} {env : SysEnv} (henv : ∀ tick, env.fault tick = none) (p : FilePath)
    (f : Bytes → StoreM α) (g : Bytes → Except StoreError α) (hfg : ∀ bytes, f bytes = .ofExcept (g bytes))
    (d : Disk) :
    ((io (sys (.read p)) >>= f).run env.world d).result = ((d.tree.read p).mapError .io >>= g) := by
  have hread : (env.act d.tick d.tree (.read p)).1 = d.tree.read p := SysEnv.act_read (henv d.tick) p
  simp only [io, sys, Program.perform, Program.exec_bind, Program.run_exec, Program.done_bind,
    SysEnv.world, hread]
  cases d.tree.read p with
  | error e => rfl
  | ok bytes => simp [hfg]

omit [Age] [RoundCodec] in
theorem ofExcept_bind_ofExcept {α β : Type} (x : Except StoreError α) (f : α → Except StoreError β) :
    (Program.ofExcept x >>= fun a => Program.ofExcept (f a) : StoreM β) = .ofExcept (x >>= f) := by
  cases x <;> rfl

omit [RoundCodec] in
/-- The load of a checkpoint, whatever its plaintext decodes to. -/
theorem run_loadRound_decode {α : Type} {env : SysEnv} (henv : ∀ tick, env.fault tick = none)
    (root : FilePath) (secret : Passphrase) (cid : CeremonyId) (seat : SeatId) (round : UInt8)
    (g : Bytes → Except StoreError α) (d : Disk) :
    ((CheckpointStore.loadRound ⟨root, .ok secret⟩ cid seat round >>=
        fun plaintext => .ofExcept (g plaintext)).run env.world d).result =
      ((d.tree.read (roundPath root cid seat round)).mapError .io >>= fun bytes =>
        decryptSecret secret bytes >>= g) := by
  have hload : CheckpointStore.loadRound ⟨root, .ok secret⟩ cid seat round =
      io (sys (.read (roundPath root cid seat round))) >>= fun bytes =>
        .ofExcept (decryptSecret secret bytes) := rfl
  rw [hload, bind_assoc]
  exact run_read_decode henv _ _ _ (fun _ => ofExcept_bind_ofExcept _ _) d

namespace Slot

/-- What a slot is loaded as. -/
abbrev Value : Slot → Type
  | .share _ => KeyPackage
  | .group _ _ => Except (Abort EnvelopeError) PublicKeyPackage
  | .round1 _ _ => R1Secret
  | .round2 _ _ => R2Secret
  | .identity => IdentityKeypair

/-- Load what is in a slot. -/
def load (root : FilePath) (secret : Passphrase) : (s : Slot) → StoreM s.Value
  | .share tag => ParticipantStore.loadShare ⟨root, .ok secret⟩ tag
  | .group keyId epoch => do
      let envelope ← ParticipantStore.loadPublicEnvelope ⟨root, .ok secret⟩ keyId epoch
      pure envelope.decodePackage
  | .round1 cid seat => CheckpointStore.loadRound1 ⟨root, .ok secret⟩ cid seat
  | .round2 cid seat => CheckpointStore.loadRound2 ⟨root, .ok secret⟩ cid seat
  | .identity => IdentityKeypair.load root (.ok secret)

/-- What the content of a slot's file is loaded as. -/
def decode (secret : Passphrase) : (s : Slot) → Bytes → Except StoreError s.Value
  | .share _, bytes => do
      let plaintext ← decryptSecret secret bytes
      (KeyCodec.deserializeKeyPackage plaintext).mapError .frost
  | .group _ _, bytes => do
      let envelope ← (Json.envelopeFromSlice bytes).mapError StoreError.json
      pure envelope.decodePackage
  | .round1 _ _, bytes => do
      let plaintext ← decryptSecret secret bytes
      (RoundCodec.deserializeRound1 plaintext).mapError .frost
  | .round2 _ _, bytes => do
      let plaintext ← decryptSecret secret bytes
      (RoundCodec.deserializeRound2 plaintext).mapError .frost
  | .identity, bytes => do
      let plaintext ← decryptSecret secret bytes
      IdentityKeypair.ofPlaintext plaintext

/-- A load decodes the content of its slot's file. -/
theorem run_load {env : SysEnv} (henv : ∀ tick, env.fault tick = none) (root : FilePath)
    (secret : Passphrase) (s : Slot) (d : Disk) :
    ((s.load root secret).run env.world d).result =
      ((d.tree.read (s.path root)).mapError .io >>= s.decode secret) := by
  cases s with
  | share tag => exact run_read_decode henv _ _ _ (fun _ => ofExcept_bind_ofExcept _ _) d
  | group keyId epoch =>
      have hload : load root secret (.group keyId epoch) =
          io (sys (.read (publicPath root keyId epoch))) >>= fun bytes =>
            Program.ofExcept ((Json.envelopeFromSlice bytes).mapError StoreError.json) >>= fun envelope =>
              .ofExcept (.ok envelope.decodePackage) := bind_assoc _ _ _
      rw [hload]
      exact run_read_decode henv _ _ _ (fun _ => ofExcept_bind_ofExcept _ _) d
  | round1 cid seat => exact run_loadRound_decode henv root secret cid seat 1 _ d
  | round2 cid seat => exact run_loadRound_decode henv root secret cid seat 2 _ d
  | identity => exact run_read_decode henv _ _ _ (fun _ => ofExcept_bind_ofExcept _ _) d

end Slot

/-! ## The abstract stores -/

/-- What loading each slot returns. -/
abbrev Maps := (s : Slot) → Except StoreError s.Value

/-- A call of one of the stores on a root. -/
inductive StoreCall where
  | putShare (tag : ShareTag) (keyPackage : KeyPackage) (group : PublicKeyPackage) (state : ShareState)
  | putPublicEnvelope (keyId : KeyId) (epoch : Epoch) (group : PublicKeyPackage)
  | putRound1 (cid : CeremonyId) (seat : SeatId) (pkg : R1Secret)
  | putRound2 (cid : CeremonyId) (seat : SeatId) (pkg : R2Secret)
  | wipe (cid : CeremonyId)
  | persist (identity : IdentityKeypair)

namespace StoreCall

def program (root : FilePath) (secret : Passphrase) : StoreCall → StoreM Unit
  | .putShare tag keyPackage group state =>
      ParticipantStore.putShare ⟨root, .ok secret⟩ tag keyPackage group state
  | .putPublicEnvelope keyId epoch group =>
      ParticipantStore.putPublicEnvelope ⟨root, .ok secret⟩ keyId epoch group
  | .putRound1 cid seat pkg => CheckpointStore.putRound1 ⟨root, .ok secret⟩ cid seat pkg
  | .putRound2 cid seat pkg => CheckpointStore.putRound2 ⟨root, .ok secret⟩ cid seat pkg
  | .wipe cid => CheckpointStore.wipe ⟨root, .ok secret⟩ cid
  | .persist identity => identity.persist root (.ok secret)

/-- The update that a call stands for. -/
def apply (m : Maps) : StoreCall → Maps
  | .putShare tag keyPackage group _ =>
      Function.update (Function.update m (.group tag.keyId tag.epoch) (.ok (.ok group)))
        (.share tag) (.ok keyPackage)
  | .putPublicEnvelope keyId epoch group => Function.update m (.group keyId epoch) (.ok (.ok group))
  | .putRound1 cid seat pkg => Function.update m (.round1 cid seat) (.ok pkg)
  | .putRound2 cid seat pkg => Function.update m (.round2 cid seat) (.ok pkg)
  | .wipe cid => fun s => if s.ceremony = some cid then .error (.io .notFound) else m s
  | .persist identity => Function.update m .identity (.ok identity)

end StoreCall

/-! ## What a call leaves -/

section Sealed

variable {β : Type} {env : SysEnv} {note : Event SysOp SysOp.Resp → Option β}
  {Final : FilePath → Prop} {I : Disk × List β → Prop} {w : Disk × List β}

omit [RoundCodec] in
theorem CheckpointStore.putRound_keeps {self : CheckpointStore} {cid : CeremonyId} {seat : SeatId}
    {round : UInt8} {plaintext : Bytes} (hquiet : Quiet env note Final I) (hw : I w)
    (hfinal : Final (roundPath self.root cid seat round))
    (hput : ∀ ciphertext, Seals self.passphrase plaintext ciphertext →
      Installs note I (roundPath self.root cid seat round) ciphertext) :
    (self.putRound cid seat round plaintext).Keeps (recorded env note) I (fun _ _ => True) w := by
  refine (Program.keeps_ofExcept (Q := fun secret _ => self.passphrase = .ok secret) hw
    (fun _ h => h)).bind (fun secret w hw hsecret => ?_)
  refine (keeps_of_prepares (p := sys .entropy) ⟨trivial, fun _ => trivial⟩ hquiet hw).bind
    (fun entropy w hw _ => ?_)
  refine (Program.keeps_ofExcept
    (Q := fun ciphertext _ => encryptSecret secret entropy plaintext = .ok ciphertext) hw
    (fun _ h => h)).bind (fun ciphertext w hw hciphertext => ?_)
  refine (keeps_of_prepares (createDirSecure_uses hfinal (List.dropLast_prefix _)) hquiet hw).bind
    (fun _ w hw _ => ?_)
  exact (writeAtomic_keeps hquiet hw (hput ciphertext ⟨secret, entropy, hsecret, hciphertext⟩)).mono
    (fun _ _ _ => trivial)

omit [RoundCodec] in
theorem CheckpointStore.putRound_emits (self : CheckpointStore) (cid : CeremonyId) (seat : SeatId)
    (round : UInt8) (plaintext : Bytes) :
    (self.putRound cid seat round plaintext).Emits replaced [roundPath self.root cid seat round] := by
  refine (Program.emits_ofExcept _).bind (fun secret => ?_)
  refine Program.Emits.bind (p := sys .entropy) (emits_sys (fun _ => rfl)) (fun entropy => ?_)
  refine (Program.emits_ofExcept _).bind (fun ciphertext => ?_)
  exact (createDirSecure_emits _).bind (fun _ => writeAtomic_emits _ ciphertext)

omit [RoundCodec] in
theorem IdentityKeypair.persist_keeps {self : IdentityKeypair} {root : FilePath}
    {passphrase : Except StoreError Passphrase} (hquiet : Quiet env note Final I) (hw : I w)
    (hfinal : Final (identityPath root))
    (hput : ∀ ciphertext, Seals passphrase self.secret ciphertext →
      Installs note I (identityPath root) ciphertext) :
    (self.persist root passphrase).Keeps (recorded env note) I (fun _ _ => True) w := by
  refine (keeps_of_prepares (createDirSecure_uses hfinal (List.prefix_append _ _)) hquiet hw).bind
    (fun _ w hw _ => ?_)
  refine (Program.keeps_ofExcept (Q := fun secret _ => passphrase = .ok secret) hw
    (fun _ h => h)).bind (fun secret w hw hsecret => ?_)
  refine (keeps_of_prepares (p := sys .entropy) ⟨trivial, fun _ => trivial⟩ hquiet hw).bind
    (fun entropy w hw _ => ?_)
  refine (Program.keeps_ofExcept
    (Q := fun ciphertext _ => encryptSecret secret entropy self.secret = .ok ciphertext) hw
    (fun _ h => h)).bind (fun ciphertext w hw hciphertext => ?_)
  exact (writeAtomic_keeps hquiet hw (hput ciphertext ⟨secret, entropy, hsecret, hciphertext⟩)).mono
    (fun _ _ _ => trivial)

omit [RoundCodec] in
theorem IdentityKeypair.persist_emits (self : IdentityKeypair) (root : FilePath)
    (passphrase : Except StoreError Passphrase) :
    (self.persist root passphrase).Emits replaced [identityPath root] := by
  refine (createDirSecure_emits _).bind (fun _ => ?_)
  refine (Program.emits_ofExcept _).bind (fun secret => ?_)
  refine Program.Emits.bind (p := sys .entropy) (emits_sys (fun _ => rfl)) (fun entropy => ?_)
  exact (Program.emits_ofExcept _).bind (fun ciphertext => writeAtomic_emits _ ciphertext)

end Sealed

/-! ## Views -/

namespace Slot

variable {root : FilePath} {secret : Passphrase} {t : FileTree} {w : Disk × List FilePath}
  {Final : FilePath → Prop} {Good : FilePath → Bytes → Prop}

/-- What the loads find in a tree. -/
def view (root : FilePath) (secret : Passphrase) (t : FileTree) : Maps :=
  fun s => (t.read (s.path root)).mapError .io >>= s.decode secret

theorem view_congr {t' : FileTree} {s : Slot} (h : t'[s.path root]? = t[s.path root]?)
    (habove : ∀ q, q <+: s.path root → q ≠ s.path root → t'.hasFile q = t.hasFile q) :
    view root secret t' s = view root secret t s := by
  rw [view, view, FileTree.read_congr_above h habove]

theorem view_file {s : Slot} {bytes : Bytes} (h : t[s.path root]? = some (.file bytes)) :
    view root secret t s = s.decode secret bytes := by
  rw [view, FileTree.read_eq_ok.mpr h]
  rfl

theorem view_none {s : Slot} (h : t[s.path root]? = none) :
    view root secret t s = .error (.io (t.missing (s.path root))) := by
  have hread : t.read (s.path root) = .error (t.missing (s.path root)) := by
    unfold FileTree.read
    rw [h]
    exact if_neg (by simpa using s.path_ne_nil root)
  rw [view, hread]
  rfl

/-- A slot whose file is not replaced is loaded as before. -/
theorem view_wrote_of_ne (h : Wrote Final Good t w) {s : Slot}
    (hs : ∀ f, Final f ∨ f ∈ w.2 → ¬ s.path root <+: f)
    (habove : ∀ q, q <+: s.path root → q ≠ s.path root → w.1.tree.hasFile q = t.hasFile q) :
    view root secret w.1.tree s = view root secret t s := by
  refine view_congr (h.unchanged (fun hmem => ?_) (s.not_temp_path root) (fun f hf => hs f (Or.inl hf)))
    habove
  exact hs _ (Or.inr hmem) List.prefix_rfl

/-- A write of one file updates the map at its slot. -/
theorem view_update (s₀ : Slot) {v : s₀.Value} {d : Disk}
    (h : Wrote (· = s₀.path root) Good t (d, [s₀.path root]))
    (habove : ∀ q, Clears (s₀.path root) q → d.tree.hasFile q = t.hasFile q)
    (hgood : ∀ bytes, Good (s₀.path root) bytes → s₀.decode secret bytes = .ok v) :
    view root secret d.tree = Function.update (view root secret t) s₀ (.ok v) := by
  funext s
  by_cases hs : s = s₀
  · subst hs
    obtain ⟨bytes, hfile, hbytes⟩ := h.written _ List.mem_cons_self
    rw [Function.update_self, view_file hfile]
    exact hgood bytes hbytes
  · rw [Function.update_of_ne hs]
    refine view_wrote_of_ne h (fun f hf hpre => ?_) (fun q hq hne => habove q (s₀.clears hq hne))
    have hf' : f = s₀.path root := hf.elim id List.mem_singleton.mp
    exact hs (eq_of_isPrefix (hf' ▸ hpre))

/-! ## Decoding what was put -/

theorem decode_share (hlaws : RoundTrips) (hdecrypts : Decrypts) {tag : ShareTag} {kp : KeyPackage}
    {bytes : Bytes} (h : HoldsShare (.ok secret) kp bytes) : decode secret (.share tag) bytes = .ok kp := by
  obtain ⟨plaintext, hplaintext, secret', entropy, hsecret, hencrypt⟩ := h
  cases hsecret
  rw [decode, hdecrypts.decryptSecret hencrypt, Except.ok_bind, hlaws.keyPackage kp plaintext hplaintext,
    Except.mapError_ok]

theorem decode_group {keyId : KeyId} {epoch : Epoch} {group : PublicKeyPackage} {bytes : Bytes}
    (h : HoldsGroup group bytes) : decode secret (.group keyId epoch) bytes = .ok (.ok group) := by
  obtain ⟨envelope, hjson, hpackage⟩ := h
  rw [decode, hjson, Except.mapError_ok, Except.ok_bind, hpackage]
  rfl

omit [RoundCodec] in
/-- What is sealed decodes to what its plaintext decodes to. -/
theorem decode_seals {α : Type} (hdecrypts : Decrypts) {plaintext bytes : Bytes}
    (h : Seals (.ok secret) plaintext bytes) (f : Bytes → Except StoreError α) :
    (decryptSecret secret bytes >>= f) = f plaintext := by
  obtain ⟨secret', entropy, hsecret, hencrypt⟩ := h
  cases hsecret
  rw [hdecrypts.decryptSecret hencrypt, Except.ok_bind]

end Slot

/-! ## Calls -/

/-- FROST's encodings of a key generation's secret packages decode to what was
    encoded. -/
structure RoundTripsRounds [Dkg] [RoundCodec] : Prop where
  round1 : ∀ (pkg : R1Secret) (bytes : Bytes),
    RoundCodec.serializeRound1 pkg = .ok bytes → RoundCodec.deserializeRound1 bytes = .ok pkg
  round2 : ∀ (pkg : R2Secret) (bytes : Bytes),
    RoundCodec.serializeRound2 pkg = .ok bytes → RoundCodec.deserializeRound2 bytes = .ok pkg

namespace StoreCall

open Slot

variable {root : FilePath} {secret : Passphrase} {env : SysEnv} {d : Disk}

theorem view_putShare (call : Put) (hlaws : RoundTrips) (hdecrypts : Decrypts)
    (hpass : call.passphrase = .ok secret) (hok : ((call.program root).run env.world d).result = .ok ()) :
    view root secret ((call.program root).run env.world d).state.tree =
      Function.update
        (Function.update (view root secret d.tree) (.group call.tag.keyId call.tag.epoch)
          (.ok (.ok call.group)))
        (.share call.tag) (.ok call.keyPackage) := by
  have hkeeps : (call.program root).Keeps (recorded env replaced)
      (Wrote (· ∈ call.files root) (call.Writes root Manifest.Known) d.tree) (fun _ _ => True) (d, []) :=
    Put.keeps_wrote hlaws (fun _ h => h) (fun _ h => h.finds.known) (fun _ _ h => h)
  have hwrote := wrote_ok hkeeps Put.emits_files hok
  have habove (s : Slot) (q : FilePath) (hq : q <+: s.path root) (hne : q ≠ s.path root) :
      ((call.program root).run env.world d).state.tree.hasFile q = d.tree.hasFile q :=
    Leaves.hasFile_run (putShare_leaves ⟨root, call.passphrase⟩
      ((Slot.group call.tag.keyId call.tag.epoch).clears hq hne) ((Slot.share call.tag).clears hq hne)
      (Slot.clears_manifestPath hq) _ _ _) env d
  generalize ((call.program root).run env.world d).state = d' at hwrote habove
  funext s
  by_cases hshare : s = .share call.tag
  · subst hshare
    obtain ⟨bytes, hfile, hgood⟩ := hwrote.written (sharePath root call.tag) (by simp [Put.files])
    rw [Function.update_self, view_file hfile]
    exact decode_share hlaws hdecrypts (hpass ▸ hgood.share rfl)
  · rw [Function.update_of_ne hshare]
    by_cases hgroup : s = .group call.tag.keyId call.tag.epoch
    · subst hgroup
      obtain ⟨bytes, hfile, hgood⟩ := hwrote.written (publicPath root call.tag.keyId call.tag.epoch)
        (by simp [Put.files])
      rw [Function.update_self, view_file hfile]
      exact decode_group (hgood.envelope rfl)
    · rw [Function.update_of_ne hgroup]
      refine view_wrote_of_ne hwrote (fun f hf hpre => ?_) (habove s)
      have hmem : f ∈ call.files root := hf.elim id id
      simp only [Put.files, List.mem_cons, List.not_mem_nil, or_false] at hmem
      rcases hmem with rfl | rfl | rfl
      · exact hgroup (eq_of_isPrefix (show s.path root <+: (Slot.group _ _).path root from hpre))
      · exact hshare (eq_of_isPrefix (show s.path root <+: (Slot.share _).path root from hpre))
      · exact s.not_prefix_manifestPath root hpre

theorem view_putPublicEnvelope (hlaws : RoundTrips) {passphrase : Except StoreError Passphrase} {keyId : KeyId}
    {epoch : Epoch} {group : PublicKeyPackage} {d' : Disk}
    (hd' : ((ParticipantStore.putPublicEnvelope ⟨root, passphrase⟩ keyId epoch group).run env.world d).state = d')
    (hok : ((ParticipantStore.putPublicEnvelope ⟨root, passphrase⟩ keyId epoch group).run env.world d).result =
      .ok ()) :
    view root secret d'.tree =
      Function.update (view root secret d.tree) (.group keyId epoch) (.ok (.ok group)) := by
  have hkeeps : (ParticipantStore.putPublicEnvelope ⟨root, passphrase⟩ keyId epoch group).Keeps
      (recorded env replaced)
      (Wrote (· = publicPath root keyId epoch) (fun _ => HoldsGroup group) d.tree) _ (d, []) :=
    ParticipantStore.putPublicEnvelope_keeps quiet_wrote (wrote_nil d) rfl
      (fun envelope json henvelope hjson => installs_wrote (not_temp_publicPath root keyId epoch)
        ⟨envelope, hlaws.envelope envelope json hjson, decodePackage_fromPackage hlaws henvelope⟩)
  have hwrote := wrote_ok hkeeps (ParticipantStore.putPublicEnvelope_emits _ _ _ _) hok
  rw [hd'] at hwrote
  refine view_update (Slot.group keyId epoch) hwrote (fun q hq => ?_) (fun _ h => decode_group h)
  exact hd' ▸ Leaves.hasFile_run (putPublicEnvelope_leaves ⟨root, passphrase⟩ hq group) env d

theorem view_putRound {cid : CeremonyId} {seat : SeatId} {round : UInt8} {plaintext : Bytes} {d' : Disk}
    (hd' : ((CheckpointStore.putRound ⟨root, .ok secret⟩ cid seat round plaintext).run env.world d).state = d')
    (hok : ((CheckpointStore.putRound ⟨root, .ok secret⟩ cid seat round plaintext).run env.world d).result =
      .ok ()) {s₀ : Slot} (hpath : roundPath root cid seat round = s₀.path root) {v : s₀.Value}
    (hdecode : ∀ bytes, Seals (.ok secret) plaintext bytes → s₀.decode secret bytes = .ok v) :
    view root secret d'.tree = Function.update (view root secret d.tree) s₀ (.ok v) := by
  have hkeeps : (CheckpointStore.putRound ⟨root, .ok secret⟩ cid seat round plaintext).Keeps
      (recorded env replaced)
      (Wrote (· = roundPath root cid seat round) (fun _ => Seals (.ok secret) plaintext) d.tree) _ (d, []) :=
    CheckpointStore.putRound_keeps quiet_wrote (wrote_nil d) rfl
      (fun ciphertext h => installs_wrote (not_temp_roundPath root cid seat round) h)
  have hwrote := wrote_ok hkeeps (CheckpointStore.putRound_emits _ _ _ _ _) hok
  rw [hd', hpath] at hwrote
  refine view_update s₀ hwrote (fun q hq => ?_) hdecode
  exact hd' ▸ Leaves.hasFile_run (putRound_leaves (hpath ▸ hq) plaintext) env d

theorem view_persist (hdecrypts : Decrypts) {identity : IdentityKeypair} {d' : Disk}
    (hd' : ((identity.persist root (.ok secret)).run env.world d).state = d')
    (hok : ((identity.persist root (.ok secret)).run env.world d).result = .ok ()) :
    view root secret d'.tree = Function.update (view root secret d.tree) .identity (.ok identity) := by
  have hkeeps : (identity.persist root (.ok secret)).Keeps (recorded env replaced)
      (Wrote (· = identityPath root) (fun _ => Seals (.ok secret) identity.secret) d.tree) _ (d, []) :=
    IdentityKeypair.persist_keeps quiet_wrote (wrote_nil d) rfl
      (fun ciphertext h => installs_wrote (not_temp_path .identity root) h)
  have hwrote := wrote_ok hkeeps (IdentityKeypair.persist_emits _ _ _) hok
  rw [hd'] at hwrote
  refine view_update Slot.identity hwrote
    (fun q hq => hd' ▸ Leaves.hasFile_run (persist_leaves hq _) env d) (fun bytes h => ?_)
  exact (decode_seals hdecrypts h _).trans identity.ofPlaintext_secret

theorem view_wipe (hfault : ∀ tick, env.fault tick ≠ some .notFound) (hwf : d.tree.WellFormed)
    {passphrase : Except StoreError Passphrase} {cid : CeremonyId} {d' : Disk}
    (hd' : ((CheckpointStore.wipe ⟨root, passphrase⟩ cid).run env.world d).state = d')
    (hok : ((CheckpointStore.wipe ⟨root, passphrase⟩ cid).run env.world d).result = .ok ()) :
    view root secret d'.tree =
      fun s => if s.ceremony = some cid then .error (.io .notFound) else view root secret d.tree s := by
  unfold CheckpointStore.wipe at hd' hok
  simp only [sys, Program.perform, Program.exec_bind, Program.done_bind, Program.run_exec, SysEnv.world]
    at hd' hok
  have hne : ceremonyDir root cid ≠ [] := by simp [ceremonyDir]
  have hgone := SysEnv.act_removeDirAll (hfault d.tick) hwf hne
  have hmissing := fun hresp q => SysEnv.act_removeDirAll_missing (q := q) (hfault d.tick) hwf hne hresp
  generalize env.act d.tick d.tree (.removeDirAll (ceremonyDir root cid)) = out at hd' hok hgone hmissing
  obtain ⟨resp, tree⟩ := out
  have hresp : resp = .ok () ∨ resp = .error .notFound := by
    cases resp with
    | ok out => exact Or.inl rfl
    | error e =>
        cases e with
        | notFound => exact Or.inr rfl
        | alreadyExists => cases hok
        | other code => cases hok
  have htree : d'.tree = tree := by
    rcases hresp with rfl | rfl
    · exact congrArg Disk.tree hd'.symm
    · exact congrArg Disk.tree hd'.symm
  rw [htree]
  funext s
  split
  · next hcid =>
      have hpre : ceremonyDir root cid <+: s.path root := ceremonyDir_isPrefix.mpr hcid
      have hslot := hgone hresp (s.path root)
      rw [if_pos hpre] at hslot
      rw [view_none hslot, hmissing hresp _ hpre]
  · next hcid =>
      have hsame (q : FilePath) (hq : q <+: s.path root) : tree[q]? = d.tree[q]? := by
        have hnode := hgone hresp q
        rwa [if_neg (fun hpre => hcid (ceremonyDir_isPrefix.mp (hpre.trans hq)))] at hnode
      refine view_congr (hsame _ List.prefix_rfl) (fun q hq _ => ?_)
      rw [FileTree.hasFile, FileTree.hasFile, hsame q hq]

/-- Storing a checkpoint is storing its encoding, where it has one. -/
theorem view_encoded (s₀ : Slot) {ε : Type} {x : Except ε Bytes} {f : ε → StoreError} {cid : CeremonyId} {seat : SeatId}
    {round : UInt8} {d' : Disk} {program : StoreM Unit}
    (hprogram : program = Program.ofExcept (x.mapError f) >>= fun plaintext =>
      CheckpointStore.putRound ⟨root, .ok secret⟩ cid seat round plaintext)
    (hd' : (program.run env.world d).state = d') (hok : (program.run env.world d).result = .ok ())
    (hpath : roundPath root cid seat round = s₀.path root) {v : s₀.Value}
    (hdecode : ∀ plaintext bytes, x = .ok plaintext → Seals (.ok secret) plaintext bytes →
      s₀.decode secret bytes = .ok v) :
    view root secret d'.tree = Function.update (view root secret d.tree) s₀ (.ok v) := by
  subst hprogram
  cases x with
  | error e => cases hok
  | ok plaintext =>
      exact view_putRound hd' hok hpath (fun bytes h => hdecode plaintext bytes rfl h)

/-- A call that returns updates the map as it should. -/
theorem view_program (hlaws : RoundTrips) (hrounds : RoundTripsRounds) (hdecrypts : Decrypts)
    (hfault : ∀ tick, env.fault tick ≠ some .notFound) (hwf : d.tree.WellFormed) {call : StoreCall}
    (hok : ((call.program root secret).run env.world d).result = .ok ()) :
    view root secret ((call.program root secret).run env.world d).state.tree =
      call.apply (view root secret d.tree) := by
  cases call with
  | putShare tag keyPackage group state =>
      exact view_putShare ⟨.ok secret, tag, keyPackage, group, state⟩ hlaws hdecrypts rfl hok
  | putPublicEnvelope keyId epoch group => exact view_putPublicEnvelope hlaws rfl hok
  | putRound1 cid seat pkg =>
      refine view_encoded (.round1 cid seat) rfl rfl hok rfl (fun plaintext bytes hplaintext h => ?_)
      refine (decode_seals hdecrypts h _).trans ?_
      rw [hrounds.round1 pkg plaintext hplaintext, Except.mapError_ok]
  | putRound2 cid seat pkg =>
      refine view_encoded (.round2 cid seat) rfl rfl hok rfl (fun plaintext bytes hplaintext h => ?_)
      refine (decode_seals hdecrypts h _).trans ?_
      rw [hrounds.round2 pkg plaintext hplaintext, Except.mapError_ok]
  | wipe cid => exact view_wipe hfault hwf rfl hok
  | persist identity => exact view_persist hdecrypts rfl hok

/-! ## Runs -/

/-- The results of all loads from a disk. -/
def loads (reader : SysEnv) (root : FilePath) (secret : Passphrase) (d : Disk) : Maps :=
  fun s => ((s.load root secret).run reader.world d).result

theorem loads_eq_view {reader : SysEnv} (hreader : ∀ tick, reader.fault tick = none) (d : Disk) :
    loads reader root secret d = view root secret d.tree := by
  funext s
  exact run_load hreader root secret s d

theorem view_forM (hlaws : RoundTrips) (hrounds : RoundTripsRounds) (hdecrypts : Decrypts)
    (hfault : ∀ tick, env.fault tick ≠ some .notFound) {calls : List StoreCall} (hwf : d.tree.WellFormed)
    (hok : ((calls.forM (·.program root secret)).run env.world d).result = .ok ()) :
    view root secret ((calls.forM (·.program root secret)).run env.world d).state.tree =
      calls.foldl apply (view root secret d.tree) := by
  induction calls generalizing d with
  | nil => rfl
  | cons call calls ih =>
      have hcons : (call :: calls).forM (·.program root secret) =
          (call.program root secret >>= fun _ => calls.forM (·.program root secret)) := rfl
      rw [hcons] at hok ⊢
      obtain ⟨out, hcall, hrest⟩ := Program.result_bind_ok hok
      rw [Program.run_bind_ok hcall, List.foldl_cons,
        ← view_program hlaws hrounds hdecrypts hfault hwf hcall]
      exact ih ((call.program root secret).wellFormed env hwf) hrest

/-- The stores on a root refine independent maps. After any sequence of calls
    that return, every load returns what the map holds at its coordinates, if the
    map is updated by each call in turn from what the loads returned before. On an
    empty root they all failed. -/
theorem loads_run (hlaws : RoundTrips) (hrounds : RoundTripsRounds) (hdecrypts : Decrypts)
    (hfault : ∀ tick, env.fault tick ≠ some .notFound) (hwf : d.tree.WellFormed) {reader : SysEnv}
    (hreader : ∀ tick, reader.fault tick = none) {calls : List StoreCall}
    (hok : ((calls.forM (·.program root secret)).run env.world d).result = .ok ()) (tick tick' : Nat) :
    loads reader root secret ⟨((calls.forM (·.program root secret)).run env.world d).state.tree, tick⟩ =
        calls.foldl apply (loads reader root secret ⟨d.tree, tick'⟩) ∧
      (EmptyRoot d.tree root →
        loads reader root secret ⟨d.tree, tick'⟩ = fun _ => .error (.io (d.tree.missing root))) := by
  rw [loads_eq_view hreader, loads_eq_view hreader]
  refine ⟨view_forM hlaws hrounds hdecrypts hfault hwf hok, fun hempty => ?_⟩
  funext s
  obtain ⟨rest, hpath⟩ := s.path_eq_kind root
  rw [view_none (hpath ▸ hempty s.kind rest), hpath, hempty.missing]

end StoreCall

end Stores

/-! ## One root -/

namespace Plain

@[reducible] def roundCodec : RoundCodec where
  serializeRound1 pkg := .ok [pkg.1, pkg.2]
  deserializeRound1
    | [seat, key] => .ok (seat, key)
    | _ => .error ()
  serializeRound2 pkg := .ok [pkg.1, pkg.2]
  deserializeRound2
    | [seat, key] => .ok (seat, key)
    | _ => .error ()

scoped instance plainRoundCodec : RoundCodec := roundCodec

theorem roundTripsRounds : RoundTripsRounds where
  round1 := by
    intro pkg bytes h
    cases h
    rfl
  round2 := by
    intro pkg bytes h
    cases h
    rfl

end Plain

namespace StoreCall

open Store.Plain

/-- Two ceremonies. -/
def ceremonyA : CeremonyId := ⟨"a", by decide⟩
def ceremonyB : CeremonyId := ⟨"b", by decide⟩

/-- An identity whose secret is one. -/
def oneIdentity : IdentityKeypair := ⟨List.replicate 31 0 ++ [1], by decide⟩

/-- Calls of all stores, of which one removes the checkpoint of another. -/
def mixed : List StoreCall :=
  [.putRound1 ceremonyA firstTag.seat ((1, 5) : UInt8 × UInt8),
    .putRound1 ceremonyB firstTag.seat ((1, 6) : UInt8 × UInt8),
    .putRound2 ceremonyB firstTag.seat ((1, 8) : UInt8 × UInt8),
    .putShare firstTag ((1, 7) : UInt8 × UInt8) (7 : UInt8) .active,
    .persist oneIdentity, .wipe ceremonyA]

theorem mixed_ok :
    ((mixed.forM (·.program ["r"] Plain.secret)).run SysEnv.calm.world ⟨∅, 0⟩).result.isOk = true := by
  decide +kernel

/-- What the loads return after calls of all stores. -/
theorem loads_run_mixed :
    loads SysEnv.calm ["r"] Plain.secret
        ⟨((mixed.forM (·.program ["r"] Plain.secret)).run SysEnv.calm.world ⟨∅, 0⟩).state.tree, 0⟩ =
      mixed.foldl apply (fun _ => .error (.io .notFound)) := by
  have hcalm : ∀ tick, SysEnv.calm.fault tick = none := fun _ => rfl
  have hfault : ∀ tick, SysEnv.calm.fault tick ≠ some .notFound := fun _ h => nomatch h
  obtain ⟨hrun, hfresh⟩ := loads_run roundTrips roundTripsRounds decrypts hfault
    FileTree.wellFormed_empty hcalm (Except.eq_ok_of_isOk mixed_ok) 0 0
  have hmissing : FileTree.missing ∅ ["r"] = .notFound := by decide +kernel
  rw [hrun, hfresh (emptyRoot_empty ["r"])]
  exact congrArg (fun e => mixed.foldl apply (fun _ => .error (.io e))) hmissing

end StoreCall

end Store
