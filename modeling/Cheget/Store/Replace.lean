-- SUMMARY: The replacement of one file: what holds at every point of it, and what a reader finds after it.
import Cheget.Base.Crash
import Cheget.Store.Effects

/-!
# Replacing a file

An invariant of the store has two proof obligations: the calls that only
prepare a replacement keep it, and so does the moment at which a complete
temporary file takes the place of the final one. From these it holds at every
point of every operation, and so after a crash anywhere.
-/

namespace Store

open Cli Crypto

/-- The file system, with a record of what `note` says of its calls. -/
abbrev recorded {β : Type} (env : SysEnv) (note : Event SysOp SysOp.Resp → Option β) :
    Handler SysOp SysOp.Resp (Disk × List β) :=
  Program.record env.world note

/-- Neither the calls that prepare a replacement nor a replacement that fails
    disturb the invariant. -/
structure Quiet {β : Type} (env : SysEnv) (note : Event SysOp SysOp.Resp → Option β)
    (Final : FilePath → Prop) (I : Disk × List β → Prop) : Prop where
  prepares : ∀ op w, Prepares Final op → I w → I (recorded env note op w).2
  failed : ∀ src dst w e, (recorded env note (.rename src dst) w).1 = .error e → I w →
    I (recorded env note (.rename src dst) w).2

/-- A complete temporary file takes the place of a final one, in the recorded
    state. -/
def replaceWith {β : Type} (note : Event SysOp SysOp.Resp → Option β) (tmp f : FilePath)
    (bytes : Bytes) (w : Disk × List β) : Disk × List β :=
  (⟨(w.1.tree.erase tmp).insert f (.file bytes), w.1.tick + 1⟩,
    w.2 ++ (note ⟨.rename tmp f, .ok ()⟩).toList)

/-- Putting these bytes in the place of a file keeps the invariant. -/
def Installs {β : Type} (note : Event SysOp SysOp.Resp → Option β) (I : Disk × List β → Prop)
    (f : FilePath) (bytes : Bytes) : Prop :=
  ∀ tmp w, Temp tmp → w.1.tree[tmp]? = some (.file bytes) → I w → I (replaceWith note tmp f bytes w)

variable {β : Type} {env : SysEnv} {note : Event SysOp SysOp.Resp → Option β}
  {Final : FilePath → Prop} {I : Disk × List β → Prop} {w : Disk × List β}

theorem keeps_of_prepares {ε α : Type} {p : SysM ε α} (hp : p.Uses (Prepares Final))
    (hquiet : Quiet env note Final I) (hw : I w) :
    p.Keeps (recorded env note) I (fun _ _ => True) w :=
  hp.keeps hquiet.prepares hw

theorem keeps_createNew {ε : Type} {tmp : FilePath} (htmp : Temp tmp)
    (hquiet : Quiet env note Final I) (hw : I w) :
    (sys (.createNew tmp) : SysM ε _).Keeps (recorded env note) I
      (fun created w' => created = .ok () → w'.1.tree[tmp]? = some (.file [])) w := by
  refine Program.keeps_perform hw (hquiet.prepares _ w htmp hw) ?_
  intro hok
  have htree : (recorded env note (.createNew tmp) w).2.1.tree = w.1.tree.insert tmp (.file []) :=
    SysEnv.act_createNew_ok hok
  rw [htree, BTreeMap.getElem?_insert, if_pos rfl]

theorem keeps_writeAll {ε : Type} {tmp : FilePath} (htmp : Temp tmp) {content : Bytes} (bytes : Bytes)
    (hquiet : Quiet env note Final I) (hw : I w) (hcontent : w.1.tree[tmp]? = some (.file content)) :
    (sys (.writeAll tmp bytes) : SysM ε _).Keeps (recorded env note) I
      (fun written w' => written = .ok () → w'.1.tree[tmp]? = some (.file (content ++ bytes))) w := by
  refine Program.keeps_perform hw (hquiet.prepares _ w htmp hw) ?_
  intro hok
  have htree : (recorded env note (.writeAll tmp bytes) w).2.1.tree =
      w.1.tree.insert tmp (.file (content ++ bytes)) := SysEnv.act_writeAll_ok hcontent hok
  rw [htree, BTreeMap.getElem?_insert, if_pos rfl]

theorem keeps_syncAll {ε : Type} (p : FilePath) (hquiet : Quiet env note Final I) (hw : I w) :
    (sys (.syncAll p) : SysM ε _).Keeps (recorded env note) I
      (fun _ w' => ∀ q : FilePath, w'.1.tree[q]? = w.1.tree[q]?) w := by
  refine Program.keeps_perform hw (hquiet.prepares _ w trivial hw) ?_
  exact fun q => SysEnv.act_frame (fun h => h)

/-- A temporary file that has been written is complete. -/
theorem writeTemp_keeps {tmp : FilePath} (htmp : Temp tmp) (bytes : Bytes)
    (hquiet : Quiet env note Final I) (hw : I w) :
    (writeTemp tmp bytes).Keeps (recorded env note) I
      (fun _ w' => w'.1.tree[tmp]? = some (.file bytes)) w := by
  refine (keeps_createNew htmp hquiet hw).bind (fun created w₁ hw₁ hcreated => ?_)
  refine (Program.keeps_ofExcept (Q := fun _ w' => w'.1.tree[tmp]? = some (.file [])) hw₁
    (fun _ hok => hcreated hok)).bind (fun _ w₁ hw₁ hempty => ?_)
  refine (keeps_writeAll htmp bytes hquiet hw₁ hempty).bind (fun written w₂ hw₂ hwritten => ?_)
  refine (Program.keeps_ofExcept (Q := fun _ w' => w'.1.tree[tmp]? = some (.file bytes)) hw₂
    (fun _ hok => hwritten hok)).bind (fun _ w₂ hw₂ hfull => ?_)
  refine (keeps_syncAll tmp hquiet hw₂).bind (fun synced w₃ hw₃ hsame => ?_)
  exact Program.keeps_ofExcept hw₃ (fun _ _ => (hsame tmp).trans hfull)

theorem recorded_rename_ok {tmp f : FilePath} {bytes : Bytes}
    (hcontent : w.1.tree[tmp]? = some (.file bytes))
    (hok : (recorded env note (.rename tmp f) w).1 = .ok ()) :
    (recorded env note (.rename tmp f) w).2 = replaceWith note tmp f bytes w := by
  have hok' : (env.act w.1.tick w.1.tree (.rename tmp f)).1 = .ok () := hok
  obtain ⟨content, hsrc, htree⟩ := SysEnv.act_rename_ok hok'
  cases hcontent.symm.trans hsrc
  simp only [recorded, Program.record, SysEnv.world, replaceWith, htree, hok']

/-- Replacing a file keeps what its preparation and the replacement itself keep. -/
theorem writeAtomic_keeps [KeyCodec] [Json] {f : FilePath} {bytes : Bytes}
    (hquiet : Quiet env note Final I) (hw : I w) (hput : Installs note I f bytes) :
    (writeAtomic f bytes).Keeps (recorded env note) I
      (fun _ w' => w'.1.tree[f]? = some (.file bytes)) w := by
  unfold writeAtomic
  split
  · exact hw
  · refine (keeps_of_prepares (p := sys .uniqueSuffix) ⟨trivial, fun _ => trivial⟩ hquiet hw).bind
      (fun suffix w₁ hw₁ _ => ?_)
    have htmp := temp_tempPath f.dropLast suffix
    refine (writeTemp_keeps htmp bytes hquiet hw₁).attempt.bind (fun written w₂ hw₂ hfull => ?_)
    cases written with
    | error e => exact ⟨hw₂, hquiet.prepares _ w₂ htmp hw₂⟩
    | ok out =>
        refine ⟨hw₂, ?_⟩
        cases hrenamed : (recorded env note (.rename (tempPath f.dropLast suffix) f) w₂).1 with
        | error e =>
            have hw₃ := hquiet.failed _ _ w₂ e hrenamed hw₂
            exact ⟨hw₃, hquiet.prepares _ _ htmp hw₃⟩
        | ok out =>
            have hcontent := hfull () rfl
            rw [recorded_rename_ok hcontent hrenamed]
            have hw₃ := hput _ w₂ htmp hcontent hw₂
            refine (keeps_syncAll f.dropLast hquiet hw₃).bind (fun synced w₄ hw₄ hsame => ?_)
            refine Program.keeps_ofExcept hw₄ (fun _ _ => (hsame f).trans ?_)
            simp [replaceWith]

namespace ParticipantStore

variable [KeyCodec] [Json] [Age] {self : ParticipantStore}

theorem putPublicEnvelope_keeps {keyId : KeyId} {epoch : Epoch} {group : PublicKeyPackage}
    (hquiet : Quiet env note Final I) (hw : I w) (hfinal : Final (publicPath self.root keyId epoch))
    (hput : ∀ envelope json, PubkeyEnvelope.fromPackage keyId.label epoch.number group = .ok envelope →
      Json.envelopeToVec envelope = .ok json → Installs note I (publicPath self.root keyId epoch) json) :
    (self.putPublicEnvelope keyId epoch group).Keeps (recorded env note) I
      (fun _ w' => ∃ json, w'.1.tree[publicPath self.root keyId epoch]? = some (.file json)) w := by
  refine (Program.keeps_ofExcept (Q := fun envelope _ =>
      PubkeyEnvelope.fromPackage keyId.label epoch.number group = .ok envelope) hw
    (fun _ h => Except.mapError_eq_ok.mp h)).bind (fun envelope w hw henvelope => ?_)
  refine (Program.keeps_ofExcept (Q := fun json _ => Json.envelopeToVec envelope = .ok json) hw
    (fun _ h => Except.mapError_eq_ok.mp h)).bind (fun json w hw hjson => ?_)
  refine (keeps_of_prepares (createDirSecure_uses hfinal (List.dropLast_prefix _)) hquiet hw).bind
    (fun _ w hw _ => ?_)
  exact (writeAtomic_keeps hquiet hw (hput envelope json henvelope hjson)).mono
    (fun _ _ h => ⟨json, h⟩)

/-- What reading a manifest can find. -/
def Finds (root : FilePath) (t : FileTree) (manifest : Manifest) : Prop :=
  manifest = .new ∨ ∃ bytes, t[manifestPath root]? = some (.file bytes) ∧
    Manifest.fromJsonBytes bytes = .ok manifest

/-- What reading a manifest finds: an empty one only if none is there, or if faults
    can make it look so. -/
def Reads (env : SysEnv) (root : FilePath) (t : FileTree) (manifest : Manifest) : Prop :=
  (manifest = .new ∧ ((∃ tick, env.fault tick = some .notFound) ∨ t[manifestPath root]? = none)) ∨
    ∃ bytes, t[manifestPath root]? = some (.file bytes) ∧
      Manifest.fromJsonBytes bytes = .ok manifest

omit [Age] in
theorem Reads.finds {root : FilePath} {t : FileTree} {manifest : Manifest}
    (h : Reads env root t manifest) : Finds root t manifest :=
  h.imp_left And.left

theorem loadManifest_keeps (hquiet : Quiet env note Final I) (hw : I w) :
    self.loadManifest.Keeps (recorded env note) I
      (fun manifest _ => Reads env self.root w.1.tree manifest) w := by
  refine ⟨hw, ?_⟩
  have hw' := hquiet.prepares (.read (manifestPath self.root)) w trivial hw
  cases hread : (recorded env note (.read (manifestPath self.root)) w).1 with
  | ok bytes =>
      refine Program.keeps_ofExcept hw' (fun manifest hmanifest => Or.inr ⟨bytes, ?_, hmanifest⟩)
      exact SysEnv.act_read_ok hread
  | error e =>
      cases e with
      | notFound =>
          refine ⟨hw', Or.inl ⟨rfl, ?_⟩⟩
          by_cases hfault : env.fault w.1.tick = some .notFound
          · exact Or.inl ⟨w.1.tick, hfault⟩
          · exact Or.inr (SysEnv.act_read_notFound hfault hread)
      | alreadyExists => exact hw'
      | other code => exact hw'

/-- Persisting a share keeps what each of its three replacements keeps. `P` is
    what holds of any manifest that is read. -/
theorem putShare_keeps {tag : ShareTag} {keyPackage : KeyPackage} {group : PublicKeyPackage}
    {state : ShareState} {P : Manifest → Prop} (hquiet : Quiet env note Final I) (hw : I w)
    (hpublic : Final (publicPath self.root tag.keyId tag.epoch))
    (hshare : Final (sharePath self.root tag)) (hmanifest : Final (manifestPath self.root))
    (hputPublic : ∀ envelope json,
      PubkeyEnvelope.fromPackage tag.keyId.label tag.epoch.number group = .ok envelope →
        Json.envelopeToVec envelope = .ok json →
          Installs note I (publicPath self.root tag.keyId tag.epoch) json)
    (hputShare : ∀ secret entropy plaintext ciphertext, self.passphrase = .ok secret →
      KeyCodec.serializeKeyPackage keyPackage = .ok plaintext →
        encryptSecret secret entropy plaintext = .ok ciphertext →
          Installs note I (sharePath self.root tag) ciphertext)
    (hread : ∀ manifest w, I w → Reads env self.root w.1.tree manifest → P manifest)
    (hputManifest : ∀ manifest now json, P manifest →
      (manifest.addEntry (.new tag.keyId tag.epoch tag.seat state now)).toJsonBytes = .ok json →
        Installs note I (manifestPath self.root) json) :
    (self.putShare tag keyPackage group state).Keeps (recorded env note) I (fun _ _ => True) w := by
  refine (Program.keeps_ofExcept (Q := fun secret _ => self.passphrase = .ok secret) hw
    (fun _ h => h)).bind (fun secret w hw hsecret => ?_)
  refine (putPublicEnvelope_keeps hquiet hw hpublic hputPublic).bind (fun _ w hw _ => ?_)
  refine (keeps_of_prepares (createDirSecure_uses hshare (List.dropLast_prefix _)) hquiet hw).bind
    (fun _ w hw _ => ?_)
  refine (Program.keeps_ofExcept
    (Q := fun plaintext _ => KeyCodec.serializeKeyPackage keyPackage = .ok plaintext) hw
    (fun _ h => Except.mapError_eq_ok.mp h)).bind (fun plaintext w hw hplaintext => ?_)
  refine (keeps_of_prepares (p := sys .entropy) ⟨trivial, fun _ => trivial⟩ hquiet hw).bind
    (fun entropy w hw _ => ?_)
  refine (Program.keeps_ofExcept
    (Q := fun ciphertext _ => encryptSecret secret entropy plaintext = .ok ciphertext) hw
    (fun _ h => h)).bind (fun ciphertext w hw hciphertext => ?_)
  refine (writeAtomic_keeps hquiet hw
    (hputShare secret entropy plaintext ciphertext hsecret hplaintext hciphertext)).bind
    (fun _ w hw _ => ?_)
  refine (loadManifest_keeps hquiet hw).bind (fun manifest w' hw' hreads => ?_)
  have hP := hread manifest w hw hreads
  refine (keeps_of_prepares (p := sys .unixTime) ⟨trivial, fun _ => trivial⟩ hquiet hw').bind
    (fun now w hw _ => ?_)
  refine (keeps_of_prepares (createDirSecure_uses hmanifest (List.prefix_append _ _)) hquiet hw).bind
    (fun _ w hw _ => ?_)
  refine (Program.keeps_ofExcept (Q := fun json _ =>
      (manifest.addEntry (.new tag.keyId tag.epoch tag.seat state now)).toJsonBytes = .ok json) hw
    (fun _ h => h)).bind (fun json w hw hjson => ?_)
  exact (writeAtomic_keeps hquiet hw (hputManifest manifest now json hP hjson)).mono
    (fun _ _ _ => trivial)

end ParticipantStore

end Store
