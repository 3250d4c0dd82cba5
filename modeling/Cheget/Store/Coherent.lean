-- SUMMARY: Which group key the files of a store carry: that of the last operation to have replaced them, whatever failed or crashed before.
import Cheget.Store.Assumptions
import Cheget.Store.Loads

/-!
# Keys on disk

A record of the replaced files, with the group key that each was written for,
determines the key of every share and every envelope on disk. This holds at
every point of every operation.
-/

namespace Store

open Cli Crypto

/-! ## The record -/

section Record

variable [FrostKeys]

/-- The replaced files, in order, with the group key of the writing operation. -/
abbrev KeyLog := List (FilePath × VerifyingKey)

/-- Record what is replaced on behalf of a group key. -/
def noteKey (key : VerifyingKey) (ev : Event SysOp SysOp.Resp) : Option (FilePath × VerifyingKey) :=
  (replaced ev).map (·, key)

/-- The key that a file was last written for. -/
def lastKey (log : KeyLog) (p : FilePath) : Option VerifyingKey :=
  (BTreeMap.lastUnder (fun entry => some entry.1) p log).map Prod.snd

@[simp] theorem lastKey_concat (log : KeyLog) (f p : FilePath) (key : VerifyingKey) :
    lastKey (log ++ [(f, key)]) p = if f = p then some key else lastKey log p := by
  rw [lastKey, BTreeMap.lastUnder_append_singleton]
  by_cases h : f = p
  · simp [h]
  · simp [h, lastKey]

theorem lastKey_append_of_notMem {key : VerifyingKey} (log : KeyLog) {done : List FilePath}
    {p : FilePath} (h : p ∉ done) : lastKey (log ++ done.map (·, key)) p = lastKey log p := by
  induction done using List.reverseRecOn with
  | nil => simp
  | append_singleton done f ih =>
      rw [List.mem_append, not_or, List.mem_singleton] at h
      rw [List.map_append, ← List.append_assoc]
      exact (lastKey_concat _ _ _ _).trans ((if_neg (Ne.symm h.2)).trans (ih h.1))

theorem lastKey_append_of_mem {key : VerifyingKey} (log : KeyLog) {done : List FilePath}
    {p : FilePath} (h : p ∈ done) : lastKey (log ++ done.map (·, key)) p = some key := by
  induction done using List.reverseRecOn with
  | nil => cases h
  | append_singleton done f ih =>
      rw [List.map_append, ← List.append_assoc]
      refine (lastKey_concat _ _ _ _).trans ?_
      split
      · rfl
      · next hne =>
          have hmem := (List.mem_append.mp h).resolve_right
            (fun hlast => hne (List.mem_singleton.mp hlast).symm)
          exact ih hmem

end Record

variable [KeyCodec] [Json] [Age]

/-! ## Sound files -/

/-- An entry that indexes a tag. -/
def ShareEntry.Indexes (e : ShareEntry) (tag : ShareTag) : Prop :=
  e.keyId = tag.keyId.label ∧ e.epoch = tag.epoch.number ∧ e.seat = seatHex tag.seat

omit [KeyCodec] [Json] [Age] in
/-- An entry indexes one tag. -/
theorem ShareEntry.Indexes.unique {e : ShareEntry} {tag tag' : ShareTag} (h : e.Indexes tag)
    (h' : e.Indexes tag') : tag = tag' := by
  have hkey : tag.keyId = tag'.keyId := KeyId.label_injective (h.1.symm.trans h'.1)
  have hepoch : tag.epoch = tag'.epoch :=
    Epoch.ext_toNat (congrArg UInt64.toNat (h.2.1.symm.trans h'.2.1))
  have hseat : tag.seat = tag'.seat := seatHex_injective (h.2.2.symm.trans h'.2.2)
  cases tag
  cases tag'
  simp only [ShareTag.mk.injEq]
  exact ⟨hkey, hepoch, hseat⟩

/-- The final files of the stores and tags in use. -/
def FinalOf (Allowed : FilePath → ShareTag → Prop) (f : FilePath) : Prop :=
  ∃ root tag, Allowed root tag ∧
    (f = manifestPath root ∨ f = sharePath root tag ∨ f = publicPath root tag.keyId tag.epoch)

/-- What the content of a final file is, if it was last written for `key`. -/
structure Sound (Allowed : FilePath → ShareTag → Prop) (p : FilePath) (bytes : Bytes)
    (key : Option VerifyingKey) : Prop where
  manifest : ∀ root tag, Allowed root tag → p = manifestPath root → ∀ manifest,
    Manifest.fromJsonBytes bytes = .ok manifest →
      ∀ e ∈ manifest.shares, ∃ tag', Allowed root tag' ∧ e.Indexes tag'
  share : ∀ root tag, Allowed root tag → p = sharePath root tag → ∀ secret plaintext kp,
    decryptSecret secret bytes = .ok plaintext →
      KeyCodec.deserializeKeyPackage plaintext = .ok kp → key = some (FrostKeys.seatKey kp)
  envelope : ∀ root tag, Allowed root tag → p = publicPath root tag.keyId tag.epoch →
    ∀ envelope group, Json.envelopeFromSlice bytes = .ok envelope →
      envelope.decodePackage = .ok group → key = some (FrostKeys.groupKey group)

/-- Every file is what the record says. -/
def Coherent (Allowed : FilePath → ShareTag → Prop)
    (w : Disk × List (FilePath × VerifyingKey)) : Prop :=
  ∀ p bytes, w.1.tree[p]? = some (.file bytes) → Sound Allowed p bytes (lastKey w.2 p)

variable {Allowed : FilePath → ShareTag → Prop} {env : SysEnv} {key : VerifyingKey}

/-- Temporary files may hold anything. -/
theorem Sound.of_temp {p : FilePath} (h : Temp p) (bytes : Bytes) (key : Option VerifyingKey) :
    Sound Allowed p bytes key where
  manifest root _ _ hp := absurd (hp ▸ h) (not_temp_manifestPath root)
  share root tag _ hp := absurd (hp ▸ h) (not_temp_sharePath root tag)
  envelope root _ _ hp := absurd (hp ▸ h) (not_temp_publicPath root _ _)

omit [KeyCodec] [Json] [Age] in
/-- Preparing a replacement leaves no record. -/
theorem log_of_prepares [FrostKeys] {key : VerifyingKey} {Final : FilePath → Prop} {op : SysOp}
    (hop : Prepares Final op) (w : Disk × KeyLog) : (recorded env (noteKey key) op w).2.2 = w.2 := by
  simp [recorded, Program.record, noteKey, hop.replaced_eq_none]

omit [KeyCodec] [Json] [Age] in
/-- A replacement that fails changes nothing. -/
theorem rename_error [FrostKeys] {key : VerifyingKey} {src dst : FilePath} {w : Disk × KeyLog}
    {e : IoError} (h : (recorded env (noteKey key) (.rename src dst) w).1 = .error e) :
    (recorded env (noteKey key) (.rename src dst) w).2.2 = w.2 ∧
      (recorded env (noteKey key) (.rename src dst) w).2.1.tree = w.1.tree := by
  have hresp : (env.world (.rename src dst) w.1).1 = .error e := h
  refine ⟨?_, SysEnv.act_rename_error h⟩
  simp [recorded, Program.record, noteKey, hresp, replaced]

theorem quiet_coherent : Quiet env (noteKey key) (FinalOf Allowed) (Coherent Allowed) where
  prepares := by
    intro op w hop hw p bytes hp
    rw [log_of_prepares hop]
    rcases hop.act_cases env w.1.tick w.1.tree p with hsame | htemp | ⟨-, hdir, -⟩
    · exact hw p bytes (hsame.symm.trans hp)
    · exact .of_temp htemp _ _
    · cases hdir.symm.trans hp
  failed := by
    intro src dst w e herror hw p bytes hp
    obtain ⟨hlog, htree⟩ := rename_error herror
    rw [hlog]
    exact hw p bytes (htree ▸ hp)

/-- A sound file may take its place. -/
theorem installs_coherent {f : FilePath} {bytes : Bytes} (h : Sound Allowed f bytes (some key)) :
    Installs (noteKey key) (Coherent Allowed) f bytes := by
  intro tmp w htmp hcontent hw p content hp
  have hlog : (replaceWith (noteKey key) tmp f bytes w).2 = w.2 ++ [(f, key)] := rfl
  rw [hlog, lastKey_concat]
  simp only [replaceWith, BTreeMap.getElem?_insert, BTreeMap.getElem?_erase] at hp
  by_cases hfp : f = p
  · rw [if_pos hfp] at hp ⊢
    cases hp
    exact hfp ▸ h
  · rw [if_neg hfp] at hp ⊢
    split at hp
    · cases hp
    · exact hw p content hp

/-! ## What is put -/

theorem sound_envelope (hlaws : RoundTrips) {root : FilePath} {keyId : KeyId} {epoch : Epoch}
    {group : PublicKeyPackage} {envelope : PubkeyEnvelope} {json : Bytes}
    (hkey : FrostKeys.groupKey group = key)
    (henvelope : PubkeyEnvelope.fromPackage keyId.label epoch.number group = .ok envelope)
    (hjson : Json.envelopeToVec envelope = .ok json) :
    Sound Allowed (publicPath root keyId epoch) json (some key) where
  manifest root' _ _ hp := absurd hp (publicPath_ne_manifestPath root root' keyId epoch)
  share root' tag _ hp := absurd hp.symm (sharePath_ne_publicPath root' root tag keyId epoch)
  envelope := by
    intro _ _ _ _ envelope' group' hparse hdecode
    cases (hlaws.envelope envelope json hjson).symm.trans hparse
    cases (decodePackage_fromPackage hlaws henvelope).symm.trans hdecode
    rw [hkey]

theorem sound_share (hlaws : RoundTrips) {root : FilePath} {tag : ShareTag} {kp : KeyPackage}
    {secret : Passphrase} {entropy plaintext ciphertext : Bytes} (hkey : FrostKeys.seatKey kp = key)
    (hplaintext : KeyCodec.serializeKeyPackage kp = .ok plaintext)
    (hciphertext : encryptSecret secret entropy plaintext = .ok ciphertext) :
    Sound Allowed (sharePath root tag) ciphertext (some key) where
  manifest root' _ _ hp := absurd hp (sharePath_ne_manifestPath root root' tag)
  share := by
    intro _ _ _ _ secret' plaintext' kp' hdecrypt hdeserialize
    have hsame := hlaws.decrypt _ _ _ _ _ _ _ (Except.mapError_eq_ok.mp hciphertext)
      (Except.mapError_eq_ok.mp hdecrypt)
    subst hsame
    cases (hlaws.keyPackage kp plaintext' hplaintext).symm.trans hdeserialize
    rw [hkey]
  envelope root' tag' _ hp := absurd hp (sharePath_ne_publicPath root root' tag tag'.keyId tag'.epoch)

theorem sound_manifest (hlaws : RoundTrips) {root : FilePath} {manifest : Manifest} {json : Bytes}
    (hshares : ∀ e ∈ manifest.shares, ∃ tag, Allowed root tag ∧ e.Indexes tag)
    (hjson : manifest.toJsonBytes = .ok json) :
    Sound Allowed (manifestPath root) json (some key) where
  manifest := by
    intro root' _ _ hp manifest' hparse
    cases manifestPath_inj hp
    rw [fromJsonBytes_eq hlaws hjson hparse]
    exact hshares
  share root' tag _ hp := absurd hp.symm (sharePath_ne_manifestPath root' root tag)
  envelope root' tag _ hp := absurd hp.symm (publicPath_ne_manifestPath root' root tag.keyId tag.epoch)

/-! ## The operations -/

omit [KeyCodec] [Json] [Age] in
theorem mem_insertEntry {entry e : ShareEntry} {es : List ShareEntry}
    (h : e ∈ Manifest.insertEntry entry es) : e = entry ∨ e ∈ es := by
  induction es with
  | nil => exact Or.inl (List.mem_singleton.mp h)
  | cons a es ih =>
      unfold Manifest.insertEntry at h
      split at h
      · exact (List.mem_cons.mp h).imp_right (List.mem_cons_of_mem a)
      · rcases List.mem_cons.mp h with rfl | hmem
        · exact Or.inr List.mem_cons_self
        · exact (ih hmem).imp_right (List.mem_cons_of_mem a)

/-- Persisting a share of the key keeps the record true. -/
theorem putShare_coherent (hlaws : RoundTrips) {self : ParticipantStore} {tag : ShareTag}
    {kp : KeyPackage} {group : PublicKeyPackage} {state : ShareState}
    {w : Disk × List (FilePath × VerifyingKey)} (hallowed : Allowed self.root tag)
    (hseat : FrostKeys.seatKey kp = key) (hgroup : FrostKeys.groupKey group = key)
    (hw : Coherent Allowed w) :
    (self.putShare tag kp group state).Keeps (recorded env (noteKey key)) (Coherent Allowed)
      (fun _ _ => True) w := by
  refine ParticipantStore.putShare_keeps
    (P := fun manifest => ∀ e ∈ manifest.shares, ∃ tag, Allowed self.root tag ∧ e.Indexes tag)
    quiet_coherent hw ⟨self.root, tag, hallowed, Or.inr (Or.inr rfl)⟩
    ⟨self.root, tag, hallowed, Or.inr (Or.inl rfl)⟩ ⟨self.root, tag, hallowed, Or.inl rfl⟩ ?_ ?_ ?_ ?_
  · intro envelope json henvelope hjson
    exact installs_coherent (sound_envelope hlaws hgroup henvelope hjson)
  · intro secret entropy plaintext ciphertext _ hplaintext hciphertext
    exact installs_coherent (sound_share hlaws hseat hplaintext hciphertext)
  · intro manifest w hw hreads
    rcases hreads.finds with rfl | ⟨bytes, hfile, hparse⟩
    · exact fun e he => nomatch he
    · exact (hw _ _ hfile).manifest self.root tag hallowed rfl manifest hparse
  · intro manifest now json hP hjson
    refine installs_coherent (sound_manifest hlaws (fun e he => ?_) hjson)
    rcases mem_insertEntry he with rfl | hold
    · exact ⟨tag, hallowed, rfl, rfl, rfl⟩
    · exact hP e hold

/-! ## What is loaded -/

variable {self : ParticipantStore} {d : Disk} {log : KeyLog} (hw : Coherent Allowed (d, log))

include hw

/-- A share that is loaded is of the key that its file was last written for. -/
theorem Coherent.loadShare {tag : ShareTag} {kp : KeyPackage} (hallowed : Allowed self.root tag)
    (h : ((self.loadShare tag).run env.world d).result = .ok kp) :
    lastKey log (sharePath self.root tag) = some (FrostKeys.seatKey kp) := by
  obtain ⟨secret, ciphertext, plaintext, -, hfile, hdecrypt, hdeserialize⟩ :=
    ParticipantStore.loadShare_ok h
  exact (hw _ _ hfile).share self.root tag hallowed rfl secret plaintext kp hdecrypt hdeserialize

theorem Coherent.loadPublicEnvelope {tag : ShareTag} {envelope : PubkeyEnvelope}
    {group : PublicKeyPackage} (hallowed : Allowed self.root tag)
    (h : ((self.loadPublicEnvelope tag.keyId tag.epoch).run env.world d).result = .ok envelope)
    (hdecode : envelope.decodePackage = .ok group) :
    lastKey log (publicPath self.root tag.keyId tag.epoch) = some (FrostKeys.groupKey group) := by
  obtain ⟨json, hfile, hparse⟩ := ParticipantStore.loadPublicEnvelope_ok h
  exact (hw _ _ hfile).envelope self.root tag hallowed rfl envelope group hparse hdecode

/-- The active share is stored under a tag in use. -/
theorem Coherent.loadOnlyActive {root : FilePath} {tag₀ : ShareTag} {seat : SeatId} {kp : KeyPackage}
    (hroot : self.root = root) (hallowed : Allowed root tag₀)
    (h : (self.loadOnlyActive.run env.world d).result = .ok (seat, kp)) :
    ∃ tag, Allowed root tag ∧ tag.seat = seat ∧
      lastKey log (sharePath root tag) = some (FrostKeys.seatKey kp) := by
  subst hroot
  obtain ⟨manifest, entry, keyId, hfinds, hentry, hkeyId, hseat, tick, hshare⟩ :=
    ParticipantStore.loadOnlyActive_ok h
  have hmem := List.mem_of_find?_eq_some hentry
  obtain ⟨tag, htag, hindexes⟩ : ∃ tag, Allowed self.root tag ∧ entry.Indexes tag := by
    rcases hfinds with rfl | ⟨bytes, hfile, hparse⟩
    · cases hmem
    · exact (hw _ _ hfile).manifest self.root tag₀ hallowed rfl manifest hparse entry hmem
  obtain ⟨hkey, hepoch, hspelling⟩ := hindexes
  rw [hspelling, seatFromHex_seatHex] at hseat
  cases hseat
  have hsame : (⟨keyId, ⟨entry.epoch⟩, tag.seat⟩ : ShareTag) = tag := by
    rw [KeyId.label_injective (hkeyId.symm.trans hkey), hepoch]
  rw [hsame] at hshare
  exact ⟨tag, htag, rfl, Coherent.loadShare (d := ⟨d.tree, tick⟩) hw htag hshare⟩

end Store
