-- SUMMARY: What the stores of a root return, and what lies on the disk, over every interleaving of their calls.
import Cheget.Store.Discipline
import Cheget.Store.Maps

/-!
# Calls side by side

Any calls of the stores on a root may take turns, under any passphrases, with
anybody who reads or removes files. What a load returns was put at exactly its
coordinates, and what lies on the disk is public or sealed at every moment.
-/

namespace Store

open Cli Crypto Discipline

section Stores

variable [KeyCodec] [Json] [Age] [RoundCodec]

/-! ## What calls write -/

/-- The file of an envelope, with the encoding of the envelope. -/
def WritesGroup (root : FilePath) (keyId : KeyId) (epoch : Epoch) (group : PublicKeyPackage) (f : FilePath)
    (bytes : Bytes) : Prop :=
  f = publicPath root keyId epoch ∧ ∃ envelope,
    PubkeyEnvelope.fromPackage keyId.label epoch.number group = .ok envelope ∧
      Json.envelopeToVec envelope = .ok bytes

namespace StoreCall

/-- The files that a call writes, and what it may write there. -/
def Writes (root : FilePath) (secret : Passphrase) : StoreCall → FilePath → Bytes → Prop
  | .putShare tag keyPackage group state, f, bytes =>
      WritesGroup root tag.keyId tag.epoch group f bytes ∨
      (f = sharePath root tag ∧ HoldsShare (.ok secret) keyPackage bytes) ∨
      (f = manifestPath root ∧ ∃ (manifest : Manifest) (now : UInt64),
        (manifest.addEntry (.new tag.keyId tag.epoch tag.seat state now)).toJsonBytes = .ok bytes)
  | .putPublicEnvelope keyId epoch group, f, bytes => WritesGroup root keyId epoch group f bytes
  | .putRound1 cid seat pkg, f, bytes =>
      f = roundPath root cid seat 1 ∧ ∃ plaintext, RoundCodec.serializeRound1 pkg = .ok plaintext ∧
        Seals (.ok secret) plaintext bytes
  | .putRound2 cid seat pkg, f, bytes =>
      f = roundPath root cid seat 2 ∧ ∃ plaintext, RoundCodec.serializeRound2 pkg = .ok plaintext ∧
        Seals (.ok secret) plaintext bytes
  | .wipe _, _, _ => False
  | .persist identity, f, bytes => f = identityPath root ∧ Seals (.ok secret) identity.secret bytes

/-- What a call puts, each under its coordinates. -/
def puts : StoreCall → List ((s : Slot) × s.Value)
  | .putShare tag keyPackage group _ => [⟨.group tag.keyId tag.epoch, .ok group⟩, ⟨.share tag, keyPackage⟩]
  | .putPublicEnvelope keyId epoch group => [⟨.group keyId epoch, .ok group⟩]
  | .putRound1 cid seat pkg => [⟨.round1 cid seat, pkg⟩]
  | .putRound2 cid seat pkg => [⟨.round2 cid seat, pkg⟩]
  | .wipe _ => []
  | .persist identity => [⟨.identity, identity⟩]

variable {root : FilePath} {secret : Passphrase}

theorem not_temp_of_writes {call : StoreCall} {f : FilePath} {bytes : Bytes}
    (h : call.Writes root secret f bytes) : ¬ Temp f := by
  cases call with
  | putShare tag keyPackage group state =>
      rcases h with ⟨rfl, -⟩ | ⟨rfl, -⟩ | ⟨rfl, -⟩
      · exact not_temp_publicPath _ _ _
      · exact not_temp_sharePath _ _
      · exact not_temp_manifestPath _
  | putPublicEnvelope keyId epoch group =>
      obtain ⟨rfl, -⟩ := h
      exact not_temp_publicPath _ _ _
  | putRound1 cid seat pkg =>
      obtain ⟨rfl, -⟩ := h
      exact not_temp_roundPath _ _ _ _
  | putRound2 cid seat pkg =>
      obtain ⟨rfl, -⟩ := h
      exact not_temp_roundPath _ _ _ _
  | wipe cid => exact h.elim
  | persist identity =>
      obtain ⟨rfl, -⟩ := h
      exact Slot.not_temp_path .identity root

/-! ## Obeying the terms -/

section Obeying

variable {ι : Type} {env : SysEnv} {Keep : FilePath → Prop} {Written : ι → FilePath → Bytes → Prop}
  {t₀ : FileTree} {k : ι} {w : Turns ι} (hlawful : Lawful env Keep Written)

include hlawful

omit [RoundCodec] in
theorem putPublicEnvelope_obeys {self : ParticipantStore} {keyId : KeyId} {epoch : Epoch}
    {group : PublicKeyPackage}
    (hwrites : ∀ f bytes, WritesGroup self.root keyId epoch group f bytes → Written k f bytes) :
    Obeys env Keep Written t₀ k (fun _ _ => True) (self.putPublicEnvelope keyId epoch group) w := by
  refine Program.Respects.bind (Q := fun envelope _ =>
      PubkeyEnvelope.fromPackage keyId.label epoch.number group = .ok envelope)
    (Program.respects_ofExcept (fun _ h => Except.mapError_eq_ok.mp h)) (fun envelope w henvelope => ?_)
  refine Program.Respects.bind (Q := fun json _ => Json.envelopeToVec envelope = .ok json)
    (Program.respects_ofExcept (fun _ h => Except.mapError_eq_ok.mp h)) (fun json w hjson => ?_)
  refine (createDirSecure_obeys _).bind (fun _ w _ => ?_)
  exact writeAtomic_obeys hlawful (hwrites _ _ ⟨rfl, envelope, henvelope, hjson⟩)

omit hlawful [RoundCodec] in
theorem loadManifest_obeys {self : ParticipantStore} {Readable : Prop}
    (hread : ∀ w manifest, Disciplined Keep Written t₀ w →
      Answers (turn env k (.read (manifestPath self.root)) w).1 manifest → Readable) :
    Obeys env Keep Written t₀ k (fun _ _ => Readable) self.loadManifest w := by
  refine Program.Respects.bind (Q := fun content _ => ∀ manifest, Answers content manifest → Readable)
    (obeys_sys (idle_of_cleans trivial) (fun w' _ hw' manifest h => hread w' manifest hw' h)) ?_
  intro content w hanswers
  cases content with
  | ok bytes =>
      exact Program.respects_ofExcept (fun manifest h => hanswers manifest (Or.inl ⟨bytes, rfl, h⟩))
  | error e =>
      cases e with
      | notFound => exact hanswers .new (Or.inr ⟨rfl, rfl⟩)
      | alreadyExists => trivial
      | other code => trivial

omit hlawful [RoundCodec] in
/-- Encrypting and writing a secret. -/
theorem seal_obeys {f : FilePath} {plaintext : Bytes}
    (hwrites : ∀ bytes, Seals (.ok secret) plaintext bytes → Written k f bytes)
    {rest : Bytes → StoreM Unit} {Q : Unit → Turns ι → Prop}
    (hrest : ∀ ciphertext w, Written k f ciphertext → Obeys env Keep Written t₀ k Q (rest ciphertext) w) :
    Obeys env Keep Written t₀ k Q (do
      let entropy ← sys SysOp.entropy
      let ciphertext ← Program.ofExcept (encryptSecret secret entropy plaintext)
      rest ciphertext) w := by
  refine Program.Respects.bind (Q := fun _ _ => True)
    (obeys_sys (idle_of_cleans trivial) (fun _ _ _ => trivial)) (fun entropy w _ => ?_)
  refine Program.Respects.bind (Q := fun ciphertext _ => Written k f ciphertext)
    (Program.respects_ofExcept (fun ciphertext h => hwrites _ ⟨secret, entropy, rfl, h⟩)) ?_
  exact fun ciphertext w hwritten => hrest ciphertext w hwritten

omit [RoundCodec] in
theorem putRound_obeys {cid : CeremonyId} {seat : SeatId} {round : UInt8} {plaintext : Bytes}
    (hwrites : ∀ bytes, Seals (.ok secret) plaintext bytes → Written k (roundPath root cid seat round) bytes) :
    Obeys env Keep Written t₀ k (fun _ _ => True)
      (CheckpointStore.putRound ⟨root, .ok secret⟩ cid seat round plaintext) w := by
  refine seal_obeys hwrites (fun ciphertext w hwritten => ?_)
  refine (createDirSecure_obeys _).bind (fun _ w _ => ?_)
  exact writeAtomic_obeys hlawful hwritten

/-- A call obeys if it may write what it writes. The manifest it need only be
    allowed to write once one has been read. -/
theorem program_obeys {call : StoreCall} {Readable : Prop}
    (hwrites : ∀ f bytes, f ≠ manifestPath root → call.Writes root secret f bytes → Written k f bytes)
    (hread : ∀ w manifest, Disciplined Keep Written t₀ w →
      Answers (turn env k (.read (manifestPath root)) w).1 manifest → Readable)
    (hmanifest : ∀ bytes, Readable → call.Writes root secret (manifestPath root) bytes →
      Written k (manifestPath root) bytes)
    (hwipe : ∀ cid f, Keep f → ¬ ceremonyDir root cid <+: f) :
    Obeys env Keep Written t₀ k
      (fun _ _ => ∀ tag keyPackage group state, call = .putShare tag keyPackage group state → Readable)
      (call.program root secret) w := by
  have hslot : ∀ (s : Slot) (bytes : Bytes), call.Writes root secret (s.path root) bytes →
      Written k (s.path root) bytes := by
    intro s bytes h
    refine hwrites _ _ (fun hpath => ?_) h
    exact s.not_prefix_manifestPath root (hpath ▸ List.prefix_rfl)
  cases call with
  | putShare tag keyPackage group state =>
      refine Program.Respects.bind (Q := fun passphrase _ => passphrase = secret)
        (Program.respects_ofExcept (fun _ h => (Except.ok.inj h).symm)) ?_
      rintro _ w rfl
      refine (putPublicEnvelope_obeys hlawful (fun f bytes h => ?_)).bind (fun _ w _ => ?_)
      · obtain ⟨rfl, hgroup⟩ := h
        exact hslot (.group tag.keyId tag.epoch) bytes (Or.inl ⟨rfl, hgroup⟩)
      refine (createDirSecure_obeys _).bind (fun _ w _ => ?_)
      refine Program.Respects.bind
        (Q := fun plaintext _ => KeyCodec.serializeKeyPackage keyPackage = .ok plaintext)
        (Program.respects_ofExcept (fun _ h => Except.mapError_eq_ok.mp h)) (fun plaintext w hplaintext => ?_)
      refine seal_obeys
        (fun bytes h => hslot (.share tag) bytes (Or.inr (Or.inl ⟨rfl, plaintext, hplaintext, h⟩)))
        (fun ciphertext w hwritten => ?_)
      refine (writeAtomic_obeys hlawful hwritten).bind (fun _ w _ => ?_)
      refine (loadManifest_obeys hread).bind (fun manifest w hreadable => ?_)
      refine Program.Respects.bind (Q := fun _ _ => True)
        (obeys_sys (idle_of_cleans trivial) (fun _ _ _ => trivial)) (fun now w _ => ?_)
      refine (createDirSecure_obeys _).bind (fun _ w _ => ?_)
      refine Program.Respects.bind (Q := fun json _ => (manifest.addEntry
          (.new tag.keyId tag.epoch tag.seat state now)).toJsonBytes = .ok json)
        (Program.respects_ofExcept (fun _ h => h)) (fun json w hjson => ?_)
      exact (writeAtomic_obeys hlawful (hmanifest json hreadable
        (Or.inr (Or.inr ⟨rfl, manifest, now, hjson⟩)))).mono (fun _ _ _ _ _ _ _ _ => hreadable)
  | putPublicEnvelope keyId epoch group =>
      refine (putPublicEnvelope_obeys hlawful (fun f bytes h => ?_)).mono (fun _ _ _ _ _ _ _ h => nomatch h)
      obtain ⟨rfl, hgroup⟩ := h
      exact hslot (.group keyId epoch) bytes ⟨rfl, hgroup⟩
  | putRound1 cid seat pkg =>
      refine Program.Respects.bind (Q := fun plaintext _ => RoundCodec.serializeRound1 pkg = .ok plaintext)
        (Program.respects_ofExcept (fun _ h => Except.mapError_eq_ok.mp h)) (fun plaintext w hplaintext => ?_)
      exact (putRound_obeys hlawful (fun bytes h =>
        hslot (.round1 cid seat) bytes ⟨rfl, plaintext, hplaintext, h⟩)).mono (fun _ _ _ _ _ _ _ h => nomatch h)
  | putRound2 cid seat pkg =>
      refine Program.Respects.bind (Q := fun plaintext _ => RoundCodec.serializeRound2 pkg = .ok plaintext)
        (Program.respects_ofExcept (fun _ h => Except.mapError_eq_ok.mp h)) (fun plaintext w hplaintext => ?_)
      exact (putRound_obeys hlawful (fun bytes h =>
        hslot (.round2 cid seat) bytes ⟨rfl, plaintext, hplaintext, h⟩)).mono (fun _ _ _ _ _ _ _ h => nomatch h)
  | wipe cid =>
      refine Program.Respects.bind (Q := fun _ _ => True)
        (obeys_sys (idle_of_cleans (hwipe cid)) (fun _ _ _ => trivial)) (fun removed w _ => ?_)
      cases removed with
      | ok out => exact fun _ _ _ _ h => nomatch h
      | error e => cases e <;> first | trivial | exact fun _ _ _ _ h => nomatch h
  | persist identity =>
      refine (createDirSecure_obeys _).bind (fun _ w _ => ?_)
      refine Program.Respects.bind (Q := fun passphrase _ => passphrase = secret)
        (Program.respects_ofExcept (fun _ h => (Except.ok.inj h).symm)) ?_
      rintro _ w rfl
      refine seal_obeys (fun bytes h => hslot .identity bytes ⟨rfl, h⟩) (fun ciphertext w hwritten => ?_)
      exact (writeAtomic_obeys hlawful hwritten).mono (fun _ _ _ _ _ _ _ h => nomatch h)

end Obeying

end StoreCall

/-! ## Actors -/

/-- Somebody who uses a root: a call of one of its stores, or a program that reads
    and removes. -/
inductive Actor (Keep : FilePath → Prop) where
  | store (secret : Passphrase) (call : StoreCall)
  | other (program : StoreM Unit) (cleans : program.Uses (Cleans Keep))

namespace Actor

variable {Keep : FilePath → Prop}

def program (root : FilePath) : Actor Keep → StoreM Unit
  | .store secret call => call.program root secret
  | .other program _ => program

def Writes (root : FilePath) : Actor Keep → FilePath → Bytes → Prop
  | .store secret call => call.Writes root secret
  | .other _ _ => fun _ _ => False

variable {ι : Type} {env : SysEnv} {root : FilePath} {Written : ι → FilePath → Bytes → Prop} {t₀ : FileTree}

/-- Actors that have not made a step yet. -/
def crew {σ : Type} (root : FilePath) (actors : ι → Actor Keep) (s : σ) :
    Program.Crew ι SysOp SysOp.Resp σ StoreError Unit :=
  ⟨fun k => (actors k).program root, s⟩

/-- The actors and the disk after a schedule. -/
def after [DecidableEq ι] (env : SysEnv) (root : FilePath) (actors : ι → Actor Keep) (t₀ : FileTree)
    (schedule : List ι) : Program.Crew ι SysOp SysOp.Resp Disk StoreError Unit :=
  (crew root actors ⟨t₀, 0⟩).after (fun _ => env.world) schedule

/-- The actor puts a share. -/
def PutsShare (actor : Actor Keep) : Prop :=
  ∃ secret tag keyPackage group state, actor = .store secret (.putShare tag keyPackage group state)

/-- Over every schedule the tree stays disciplined, and shares are put only if a
    manifest can be read. -/
theorem disciplined [DecidableEq ι] {actors : ι → Actor Keep} (t₀ : FileTree)
    (hlawful : Lawful env Keep Written) (Readable : Prop)
    (hwrites : ∀ k f bytes, f ≠ manifestPath root → (actors k).Writes root f bytes → Written k f bytes)
    (hread : ∀ k w manifest, Disciplined Keep Written t₀ w →
      Answers (turn env k (.read (manifestPath root)) w).1 manifest → Readable)
    (hmanifest : ∀ k bytes, Readable → (actors k).Writes root (manifestPath root) bytes →
      Written k (manifestPath root) bytes)
    (hwipe : ∀ cid f, Keep f → ¬ ceremonyDir root cid <+: f) (schedule : List ι) :
    let after := (crew root actors ((⟨t₀, 0⟩, []) : Turns ι)).after (turn env) schedule
    Disciplined Keep Written t₀ after.state ∧
      ∀ k, (after.programs k).returned = some () → (actors k).PutsShare → Readable := by
  have hobeys : ∀ k w, Obeys env Keep Written t₀ k (fun _ _ => (actors k).PutsShare → Readable)
      ((actors k).program root) w := by
    intro k w
    have hwritesₖ := hwrites k
    have hmanifestₖ := hmanifest k
    cases hactor : actors k with
    | store secret call =>
        rw [hactor] at hwritesₖ hmanifestₖ
        have hcall := StoreCall.program_obeys (w := w) hlawful hwritesₖ (hread k) hmanifestₖ hwipe
        refine hcall.mono (fun _ _ h => ?_)
        rintro ⟨secret', tag, keyPackage, group, state, heq⟩
        exact h tag keyPackage group state (Actor.store.inj heq).2
    | other program cleans =>
        refine (obeys_of_idle (cleans.mono (fun _ => idle_of_cleans))).mono (fun _ _ _ => ?_)
        rintro ⟨_, _, _, _, _, heq⟩
        cases heq
  have hcrew : (crew root actors ((⟨t₀, 0⟩, []) : Turns ι)).Respectful (turn env) (Disciplined Keep Written t₀)
      (Discipline.Rely env) (Discipline.Guar env) (fun k _ _ => (actors k).PutsShare → Readable) :=
    ⟨disciplined_start t₀, fun k => ⟨_, (Discipline.terms env).refl k _, hobeys k _⟩⟩
  obtain ⟨hdisciplined, hprograms⟩ := hcrew.after (Discipline.terms env) schedule
  refine ⟨hdisciplined, fun k hdone => ?_⟩
  obtain ⟨w, -, hown⟩ := hprograms k
  rw [Program.returned_eq_some.mp hdone] at hown
  exact hown

omit [KeyCodec] [Json] [Age] [RoundCodec] in
theorem state_after [DecidableEq ι] (env : SysEnv) {ε α : Type} (programs : ι → SysM ε α) (d : Disk)
    (schedule : List ι) :
    ((⟨programs, ((d, []) : Turns ι)⟩ : Program.Crew ι SysOp SysOp.Resp (Turns ι) ε α).after
        (turn env) schedule).state.1 =
      ((⟨programs, d⟩ : Program.Crew ι SysOp SysOp.Resp Disk ε α).after (fun _ => env.world) schedule).state :=
  (Program.Crew.after_record programs (d, []) schedule).2

theorem not_temp_of_writes {actor : Actor Keep} {f : FilePath} {bytes : Bytes}
    (h : actor.Writes root f bytes) : ¬ Temp f := by
  cases actor with
  | store secret call => exact StoreCall.not_temp_of_writes h
  | other program cleans => exact h.elim

theorem lawful (hsuffix : Function.Injective env.suffix) (root : FilePath)
    (actors : ι → Actor (fun _ => False)) :
    Lawful env (fun _ => False) (fun k => (actors k).Writes root) where
  suffix := hsuffix
  final _ _ _ h := not_temp_of_writes h
  spared _ _ _ _ h := h
  keep _ h := h.elim

/-- Every file is from before, or one of the actors writes it or has begun to. -/
theorem files_after [DecidableEq ι] (hsuffix : Function.Injective env.suffix)
    (actors : ι → Actor (fun _ => False)) (schedule : List ι) {p : FilePath} {bytes : Bytes}
    (h : (after env root actors t₀ schedule).state.tree[p]? = some (.file bytes)) :
    t₀[p]? = some (.file bytes) ∨ Authored (fun k => (actors k).Writes root) p bytes := by
  obtain ⟨hdisciplined, -⟩ := disciplined t₀ (lawful hsuffix root actors) True
    (fun _ _ _ _ h => h) (fun _ _ _ _ _ => trivial) (fun _ _ _ h => h) (fun _ _ h => h.elim) schedule
  refine hdisciplined.files p bytes ?_
  rw [crew, state_after]
  exact h

end Actor

/-! ## What a load returns -/

namespace Slot

variable {root : FilePath} {secret : Passphrase} {env : SysEnv} {d : Disk}

omit [Age] [RoundCodec] in
theorem read_decode_ok {α : Type} {p : FilePath} {f : Bytes → StoreM α} {g : Bytes → Except StoreError α}
    (hfg : ∀ bytes, f bytes = .ofExcept (g bytes)) {a : α}
    (h : ((io (sys (.read p)) >>= f).run env.world d).result = .ok a) :
    ∃ bytes, d.tree[p]? = some (.file bytes) ∧ g bytes = .ok a := by
  obtain ⟨bytes, hread, h⟩ := Program.result_bind_ok h
  rw [hfg, Program.run_ofExcept] at h
  refine ⟨bytes, ?_, h⟩
  obtain ⟨content, hcontent, hread⟩ := Program.result_bind_ok hread
  rw [Program.run_ofExcept] at hread
  rw [sys, Program.run_perform] at hcontent
  exact SysEnv.act_read_ok ((Except.ok.inj hcontent).trans (Except.mapError_eq_ok.mp hread))

/-- A load that returns has decoded the file of its slot. -/
theorem load_ok {s : Slot} {v : s.Value} (h : ((s.load root secret).run env.world d).result = .ok v) :
    ∃ bytes, d.tree[s.path root]? = some (.file bytes) ∧ s.decode secret bytes = .ok v := by
  have hround : ∀ {α : Type} (cid : CeremonyId) (seat : SeatId) (round : UInt8)
      (g : Bytes → Except StoreError α) (a : α),
      ((CheckpointStore.loadRound ⟨root, .ok secret⟩ cid seat round >>=
        fun plaintext => .ofExcept (g plaintext)).run env.world d).result = .ok a →
      ∃ bytes, d.tree[roundPath root cid seat round]? = some (.file bytes) ∧
        (decryptSecret secret bytes >>= g) = .ok a := by
    intro α cid seat round g a h
    have hload : CheckpointStore.loadRound ⟨root, .ok secret⟩ cid seat round =
        io (sys (.read (roundPath root cid seat round))) >>= fun bytes =>
          .ofExcept (decryptSecret secret bytes) := rfl
    rw [hload, bind_assoc] at h
    exact read_decode_ok (fun _ => ofExcept_bind_ofExcept _ _) h
  cases s with
  | share tag => exact read_decode_ok (fun _ => ofExcept_bind_ofExcept _ _) h
  | group keyId epoch =>
      have hload : load root secret (.group keyId epoch) =
          io (sys (.read (publicPath root keyId epoch))) >>= fun bytes =>
            Program.ofExcept ((Json.envelopeFromSlice bytes).mapError StoreError.json) >>= fun envelope =>
              .ofExcept (.ok envelope.decodePackage) := bind_assoc _ _ _
      rw [hload] at h
      exact read_decode_ok (fun _ => ofExcept_bind_ofExcept _ _) h
  | round1 cid seat => exact hround cid seat 1 _ v h
  | round2 cid seat => exact hround cid seat 2 _ v h
  | identity => exact read_decode_ok (fun _ => ofExcept_bind_ofExcept _ _) h

omit [RoundCodec] in
/-- What is decoded is what was sealed, whatever the passphrase. -/
theorem of_seals {α : Type} (hlaws : RoundTrips) {secret' : Passphrase} {plaintext bytes : Bytes}
    (hseals : Seals (.ok secret') plaintext bytes) {f : Bytes → Except StoreError α} {a : α}
    (h : (decryptSecret secret bytes >>= f) = .ok a) : f plaintext = .ok a := by
  obtain ⟨secret'', entropy, -, hencrypt⟩ := hseals
  obtain ⟨plaintext', hdecrypt, h⟩ := Except.bind_eq_ok.mp h
  have hplain := hlaws.decrypt _ _ _ _ _ _ _ (Except.mapError_eq_ok.mp hencrypt)
    (Except.mapError_eq_ok.mp hdecrypt)
  exact hplain ▸ h

omit [KeyCodec] [Json] [Age] [RoundCodec] in
theorem eq_of_path {s s' : Slot} (h : s.path root = s'.path root) : s = s' := by
  have hprefix : s.path root <+: s'.path root := h ▸ List.prefix_rfl
  exact eq_of_isPrefix hprefix

/-- What a slot's file is decoded to is what was put, if a call wrote the file. -/
theorem mem_puts (hlaws : RoundTrips) (hrounds : RoundTripsRounds) {secret' : Passphrase} {call : StoreCall}
    {s : Slot} {v : s.Value} {bytes : Bytes} (hwrites : call.Writes root secret' (s.path root) bytes)
    (h : s.decode secret bytes = .ok v) : ⟨s, v⟩ ∈ call.puts := by
  have hgroup : ∀ keyId epoch group, WritesGroup root keyId epoch group (s.path root) bytes →
      (⟨s, v⟩ : (s : Slot) × s.Value) = ⟨.group keyId epoch, .ok group⟩ := by
    rintro keyId epoch group ⟨hpath, envelope, henvelope, hjson⟩
    obtain rfl : s = .group keyId epoch := eq_of_path hpath
    rw [decode, hlaws.envelope envelope bytes hjson, Except.mapError_ok, Except.ok_bind,
      decodePackage_fromPackage hlaws henvelope] at h
    cases h
    rfl
  cases call with
  | putShare tag keyPackage group state =>
      rcases hwrites with hwrites | ⟨hpath, plaintext, hplaintext, hseals⟩ | ⟨hpath, -⟩
      · rw [hgroup _ _ _ hwrites]
        exact List.mem_cons_self
      · obtain rfl : s = .share tag := eq_of_path hpath
        have h := of_seals hlaws hseals h
        rw [hlaws.keyPackage keyPackage plaintext hplaintext, Except.mapError_ok] at h
        cases h
        exact List.mem_cons_of_mem _ List.mem_cons_self
      · exact absurd (hpath ▸ List.prefix_rfl) (s.not_prefix_manifestPath root)
  | putPublicEnvelope keyId epoch group =>
      rw [hgroup _ _ _ hwrites]
      exact List.mem_cons_self
  | putRound1 cid seat pkg =>
      obtain ⟨hpath, plaintext, hplaintext, hseals⟩ := hwrites
      obtain rfl : s = .round1 cid seat := eq_of_path hpath
      have h := of_seals hlaws hseals h
      rw [hrounds.round1 pkg plaintext hplaintext, Except.mapError_ok] at h
      cases h
      exact List.mem_cons_self
  | putRound2 cid seat pkg =>
      obtain ⟨hpath, plaintext, hplaintext, hseals⟩ := hwrites
      obtain rfl : s = .round2 cid seat := eq_of_path hpath
      have h := of_seals hlaws hseals h
      rw [hrounds.round2 pkg plaintext hplaintext, Except.mapError_ok] at h
      cases h
      exact List.mem_cons_self
  | wipe cid => exact hwrites.elim
  | persist identity =>
      obtain ⟨hpath, hseals⟩ := hwrites
      obtain rfl : s = .identity := eq_of_path hpath
      have h := of_seals hlaws hseals h
      rw [IdentityKeypair.ofPlaintext_secret] at h
      cases h
      exact List.mem_cons_self

end Slot

namespace Actor

variable {ι : Type} [DecidableEq ι]

/-- What a load returns at any moment of any interleaving is what it would have
    returned at the start, or what one of the calls puts at exactly its
    coordinates. -/
theorem load_after (hlaws : RoundTrips) (hrounds : RoundTripsRounds) (env : SysEnv)
    (hsuffix : Function.Injective env.suffix) (root : FilePath) (actors : ι → Actor (fun _ => False))
    (t₀ : FileTree) (schedule : List ι) (reader : SysEnv) (secret : Passphrase) (tick : Nat) (s : Slot)
    (v : s.Value)
    (hload : ((s.load root secret).run reader.world
      ⟨(after env root actors t₀ schedule).state.tree, tick⟩).result = .ok v) :
    Slot.view root secret t₀ s = .ok v ∨
      ∃ k secret' call, actors k = .store secret' call ∧ ⟨s, v⟩ ∈ call.puts := by
  obtain ⟨bytes, hfile, hdecode⟩ := Slot.load_ok hload
  rcases files_after hsuffix actors schedule hfile with hold | ⟨k, hwrites | ⟨f, suffix, full, htemp, -⟩⟩
  · left
    rw [Slot.view_file hold]
    exact hdecode
  · right
    cases hactor : actors k with
    | store secret' call =>
        simp only [hactor] at hwrites
        exact ⟨k, secret', call, hactor, Slot.mem_puts hlaws hrounds hwrites hdecode⟩
    | other program cleans =>
        simp only [hactor] at hwrites
        exact hwrites.elim
  · exact absurd ⟨_, _, htemp⟩ (s.not_temp_path root)

/-! ## What lies on the disk -/

/-- The encoding of an envelope or of a manifest. -/
def Public (bytes : Bytes) : Prop :=
  (∃ envelope, Json.envelopeToVec envelope = .ok bytes) ∨
    ∃ manifest : Manifest, manifest.toJsonBytes = .ok bytes

/-- An encryption under a passphrase. -/
def Sealed (bytes : Bytes) : Prop := ∃ secret plaintext, Seals (.ok secret) plaintext bytes

omit [DecidableEq ι] in
theorem public_or_sealed {root : FilePath} {Keep : FilePath → Prop} {actor : Actor Keep} {f : FilePath}
    {bytes : Bytes} (h : actor.Writes root f bytes) : Public bytes ∨ Sealed bytes := by
  cases actor with
  | other program cleans => exact h.elim
  | store secret call =>
      cases call with
      | putShare tag keyPackage group state =>
          rcases h with ⟨-, envelope, -, hjson⟩ | ⟨-, plaintext, -, hseals⟩ | ⟨-, manifest, now, hjson⟩
          · exact Or.inl (Or.inl ⟨envelope, hjson⟩)
          · exact Or.inr ⟨secret, plaintext, hseals⟩
          · exact Or.inl (Or.inr ⟨_, hjson⟩)
      | putPublicEnvelope keyId epoch group =>
          obtain ⟨-, envelope, -, hjson⟩ := h
          exact Or.inl (Or.inl ⟨envelope, hjson⟩)
      | putRound1 cid seat pkg =>
          obtain ⟨-, plaintext, -, hseals⟩ := h
          exact Or.inr ⟨secret, plaintext, hseals⟩
      | putRound2 cid seat pkg =>
          obtain ⟨-, plaintext, -, hseals⟩ := h
          exact Or.inr ⟨secret, plaintext, hseals⟩
      | wipe cid => exact h.elim
      | persist identity => exact Or.inr ⟨secret, identity.secret, h.2⟩

/-- At any moment of any interleaving, every file that was not there before is
    public or sealed, or a temporary file that holds a beginning of what is. -/
theorem public_or_sealed_after (env : SysEnv) (hsuffix : Function.Injective env.suffix) (root : FilePath)
    (actors : ι → Actor (fun _ => False)) (t₀ : FileTree) (schedule : List ι) (p : FilePath) (bytes : Bytes)
    (h : (after env root actors t₀ schedule).state.tree[p]? = some (.file bytes)) :
    t₀[p]? = some (.file bytes) ∨ Public bytes ∨ Sealed bytes ∨
      Temp p ∧ ∃ full, bytes <+: full ∧ (Public full ∨ Sealed full) := by
  rcases files_after hsuffix actors schedule h with
    hold | ⟨k, hwrites | ⟨f, suffix, full, htemp, hprefix, hwrites⟩⟩
  · exact Or.inl hold
  · exact Or.inr ((public_or_sealed hwrites).imp_right Or.inl)
  · exact Or.inr (Or.inr (Or.inr ⟨⟨_, _, htemp⟩, full, hprefix, public_or_sealed hwrites⟩))

/-! ## A manifest that cannot be read -/

/-- What the actors write, but for the manifest. -/
def WritesOther (root : FilePath) (actors : ι → Actor (· = manifestPath root)) (k : ι) (f : FilePath)
    (bytes : Bytes) : Prop :=
  f ≠ manifestPath root ∧ (actors k).Writes root f bytes

omit [DecidableEq ι] in
theorem lawful_other {env : SysEnv} (hsuffix : Function.Injective env.suffix) (root : FilePath)
    (actors : ι → Actor (· = manifestPath root)) :
    Lawful env (· = manifestPath root) (WritesOther root actors) where
  suffix := hsuffix
  final _ _ _ h := not_temp_of_writes h.2
  spared _ _ _ h := h.1
  keep _ hf := hf ▸ not_temp_manifestPath root

/-- A manifest that is damaged, or of a later version, is kept as it is by every
    interleaving, unless somebody else removes it, and no share is put. -/
theorem unreadable_manifest_kept (env : SysEnv) (hsuffix : Function.Injective env.suffix)
    (hfault : ∀ tick, env.fault tick ≠ some .notFound) (root : FilePath)
    (actors : ι → Actor (· = manifestPath root)) (t₀ : FileTree) (bytes : Bytes)
    (hfile : t₀[manifestPath root]? = some (.file bytes))
    (hbad : ∀ manifest, Manifest.fromJsonBytes bytes ≠ .ok manifest) (schedule : List ι) :
    (after env root actors t₀ schedule).state.tree[manifestPath root]? = some (.file bytes) ∧
      ∀ k, (actors k).PutsShare → ((after env root actors t₀ schedule).programs k).returned = none := by
  have hread : ∀ (k : ι) (w : Turns ι) (manifest : Manifest),
      Disciplined (· = manifestPath root) (WritesOther root actors) t₀ w →
        Answers (turn env k (.read (manifestPath root)) w).1 manifest → False := by
    rintro k w manifest hw (⟨content, hcontent, hparse⟩ | ⟨hmissing, -⟩)
    · have hkept := hw.kept _ bytes rfl hfile
      cases (SysEnv.act_read_ok hcontent).symm.trans hkept
      exact hbad manifest hparse
    · have hkept := hw.kept _ bytes rfl hfile
      cases (SysEnv.act_read_notFound (hfault w.1.tick) hmissing).symm.trans hkept
  have hwipe : ∀ (cid : CeremonyId) (f : FilePath), f = manifestPath root → ¬ ceremonyDir root cid <+: f := by
    rintro cid f rfl hprefix
    rw [ceremonyDir, manifestPath, List.prefix_append_right_inj] at hprefix
    exact absurd hprefix.length_le (by simp)
  obtain ⟨hdisciplined, hreturned⟩ := disciplined t₀ (lawful_other hsuffix root actors) False
    (fun k f bytes hf h => ⟨hf, h⟩) hread (fun _ _ h => h.elim) hwipe schedule
  constructor
  · have hkept := hdisciplined.kept _ bytes rfl hfile
    rw [crew, state_after] at hkept
    exact hkept
  · intro k hputs
    rw [Option.eq_none_iff_forall_ne_some]
    rintro ⟨⟩ hdone
    refine hreturned k ?_ hputs
    rw [← hdone]
    exact congrArg _ (congrFun (Program.Crew.after_record _ _ _).1 k)

end Actor

end Stores

/-! ## Two actors -/

namespace Actor

open Store.Plain StoreCall

/-- One checkpoints a round, the other lists the root. -/
def twoActors : Bool → Actor (fun _ => False)
  | false => .store Plain.secret (.putRound1 ceremonyA firstTag.seat ((1, 5) : UInt8 × UInt8))
  | true => .other (sys (.readDir ["r"]) >>= fun _ => pure ()) ⟨trivial, fun _ => trivial⟩

def inTurns : List Bool := (List.replicate 10 [false, true]).flatten

theorem twoActors_load :
    (((Slot.round1 ceremonyA firstTag.seat).load ["r"] Plain.secret).run SysEnv.calm.world
      ⟨(after SysEnv.calm ["r"] twoActors ∅ inTurns).state.tree, 0⟩).result.isOk =
        true := by
  decide +kernel

/-- What is loaded once a checkpoint has been written beside a reader. -/
theorem load_after_twoActors : ∃ v : (Slot.round1 ceremonyA firstTag.seat).Value,
    Slot.view ["r"] Plain.secret ∅ (.round1 ceremonyA firstTag.seat) = .ok v ∨
      ∃ k secret' call, twoActors k = .store secret' call ∧
        ⟨.round1 ceremonyA firstTag.seat, v⟩ ∈ call.puts := by
  obtain ⟨v, hload⟩ := Except.exists_ok_of_isOk twoActors_load
  exact ⟨v, load_after roundTrips roundTripsRounds SysEnv.calm SysEnv.suffix_calm_injective ["r"] twoActors ∅
    inTurns SysEnv.calm Plain.secret 0 _ v hload⟩

/-- The file while it is being written, under its temporary name. -/
theorem public_or_sealed_after_twoActors :
    (∅ : FileTree)[["r", "ceremonies", "a", seatHex firstTag.seat, ".4.tmp"]]? = some (.file []) ∨
      Public [] ∨ Sealed [] ∨ Temp ["r", "ceremonies", "a", seatHex firstTag.seat, ".4.tmp"] ∧
        ∃ full, [] <+: full ∧ (Public full ∨ Sealed full) :=
  public_or_sealed_after SysEnv.calm SysEnv.suffix_calm_injective ["r"] twoActors ∅ (inTurns.take 9) _ []
    (by decide +kernel)

/-- One puts a share, the other lists the root. -/
def putsAndLists : Bool → Actor (· = manifestPath ["r"])
  | false => .store Plain.secret (.putShare firstTag ((1, 7) : UInt8 × UInt8) (7 : UInt8) .active)
  | true => .other (sys (.readDir ["r"]) >>= fun _ => pure ()) ⟨trivial, fun _ => trivial⟩

/-- A root whose manifest is empty. -/
def damagedRoot : FileTree :=
  ((∅ : FileTree).insert ["r"] .dir).insert (manifestPath ["r"]) (.file [])

theorem unreadable_manifest_kept_damaged :
    (after SysEnv.calm ["r"] putsAndLists damagedRoot inTurns).state.tree[manifestPath ["r"]]? =
        some (.file []) ∧
      ∀ k, (putsAndLists k).PutsShare →
        ((after SysEnv.calm ["r"] putsAndLists damagedRoot inTurns).programs k).returned = none :=
  unreadable_manifest_kept SysEnv.calm SysEnv.suffix_calm_injective (fun _ h => nomatch h) ["r"] putsAndLists
    damagedRoot [] (by decide +kernel) (by intro manifest h; cases h) inTurns

end Actor

end Store
