-- SUMMARY: What an operation of a store has left on disk: the files that it has replaced, what it has put there, and all else as it was.
import Cheget.Store.Assumptions
import Cheget.Store.Loads

/-!
# Writes

An operation is described by the files it replaces and by what their content
is. Every other path is as it was, up to temporary files and to directories
above the replaced files. An operation that returns has replaced all its files;
one that fails has replaced the first of them.
-/

namespace Store

open Cli Crypto

/-- Since the tree `t₀` the files of the record were replaced, each by something
    good. What else is not temporary is as it was, or is a new directory above a
    final file. -/
structure Wrote (Final : FilePath → Prop) (Good : FilePath → Bytes → Prop) (t₀ : FileTree)
    (w : Disk × List FilePath) : Prop where
  final : ∀ f ∈ w.2, ¬ Temp f
  written : ∀ f ∈ w.2, ∃ bytes, w.1.tree[f]? = some (.file bytes) ∧ Good f bytes
  kept : ∀ q, q ∉ w.2 → ¬ Temp q → w.1.tree[q]? = t₀[q]? ∨
    (t₀[q]? = none ∧ w.1.tree[q]? = some .dir ∧ ∃ f, Final f ∧ q <+: f)

variable {Final : FilePath → Prop} {Good : FilePath → Bytes → Prop} {t₀ : FileTree}
  {w : Disk × List FilePath} {env : SysEnv}

theorem wrote_nil (d : Disk) : Wrote Final Good d.tree (d, []) where
  final := fun _ hf => nomatch hf
  written := fun _ hf => nomatch hf
  kept := fun _ _ _ => Or.inl rfl

/-- The record only grows by what is replaced. -/
theorem record_of_prepares {op : SysOp} (hop : Prepares Final op) (w : Disk × List FilePath) :
    (recorded env replaced op w).2.2 = w.2 := by
  simp [recorded, Program.record, hop.replaced_eq_none]

theorem Wrote.prepares {op : SysOp} (hop : Prepares Final op) (h : Wrote Final Good t₀ w) :
    Wrote Final Good t₀ (recorded env replaced op w).2 := by
  have hlog : (recorded env replaced op w).2.2 = w.2 := record_of_prepares hop w
  refine ⟨by rw [hlog]; exact h.final, ?_, ?_⟩
  · intro f hf
    rw [hlog] at hf
    obtain ⟨bytes, hfile, hgood⟩ := h.written f hf
    exact ⟨bytes, (hop.file_iff env w.1.tick (h.final f hf)).mpr hfile, hgood⟩
  · intro q hq htemp
    rw [hlog] at hq
    rcases hop.act_cases env w.1.tick w.1.tree q with hsame | htemp' | ⟨hnone, hdir, hfinal⟩
    · rcases h.kept q hq htemp with hkept | ⟨hfree, hdir, hfinal⟩
      · exact Or.inl (hsame.trans hkept)
      · exact Or.inr ⟨hfree, hsame.trans hdir, hfinal⟩
    · exact absurd htemp' htemp
    · rcases h.kept q hq htemp with hkept | ⟨-, hdir', -⟩
      · exact Or.inr ⟨hkept.symm.trans hnone, hdir, hfinal⟩
      · cases hdir'.symm.trans hnone

theorem quiet_wrote : Quiet env replaced Final (Wrote Final Good t₀) where
  prepares op w hop hw := hw.prepares hop
  failed := by
    intro src dst w e herror hw
    have hresp : (env.world (.rename src dst) w.1).1 = .error e := herror
    have hlog : (recorded env replaced (.rename src dst) w).2.2 = w.2 := by
      simp [recorded, Program.record, hresp, replaced]
    have htree : (recorded env replaced (.rename src dst) w).2.1.tree = w.1.tree :=
      SysEnv.act_rename_error hresp
    exact ⟨by rw [hlog]; exact hw.final, by rw [hlog, htree]; exact hw.written,
      by rw [hlog, htree]; exact hw.kept⟩

/-- A good file may be put in place. -/
theorem installs_wrote {f : FilePath} {bytes : Bytes} (hf : ¬ Temp f) (hgood : Good f bytes) :
    Installs replaced (Wrote Final Good t₀) f bytes := by
  intro tmp w htmp _ hw
  have hlog : (replaceWith replaced tmp f bytes w).2 = w.2 ++ [f] := rfl
  have hlookup : ∀ q, ¬ Temp q → q ≠ f →
      (replaceWith replaced tmp f bytes w).1.tree[q]? = w.1.tree[q]? := by
    intro q hq hne
    have hne' : tmp ≠ q := fun h => hq (h ▸ htmp)
    simp [replaceWith, Ne.symm hne, hne']
  have hself : (replaceWith replaced tmp f bytes w).1.tree[f]? = some (.file bytes) := by
    simp [replaceWith]
  refine ⟨?_, ?_, ?_⟩
  · intro g hg
    rw [hlog, List.mem_append, List.mem_singleton] at hg
    rcases hg with hg | rfl
    · exact hw.final g hg
    · exact hf
  · intro g hg
    by_cases hgf : g = f
    · subst hgf
      exact ⟨bytes, hself, hgood⟩
    · rw [hlog, List.mem_append, List.mem_singleton] at hg
      have hold := hg.resolve_right hgf
      rw [hlookup g (hw.final g hold) hgf]
      exact hw.written g hold
  · intro q hq htemp
    rw [hlog, List.mem_append, List.mem_singleton, not_or] at hq
    rw [hlookup q htemp hq.2]
    exact hw.kept q hq.1 htemp

/-- What a run has left: the files that it has replaced are the record. -/
theorem wrote_run {ε α : Type} {p : SysM ε α} {Q : α → Disk × List FilePath → Prop} {d : Disk}
    (h : p.Keeps (recorded env replaced) (Wrote Final Good d.tree) Q (d, [])) :
    Wrote Final Good d.tree ((p.run env.world d).state, (p.run env.world d).trace.filterMap replaced) := by
  have hstate := h.state
  have hdisk : (p.run (recorded env replaced) (d, [])).state.1 = (p.run env.world d).state :=
    (Program.run_record p (d, [])).2.2
  have hlog : (p.run (recorded env replaced) (d, [])).state.2 =
      (p.run env.world d).trace.filterMap replaced := Program.run_record_log p (d, [])
  have heq : (p.run (recorded env replaced) (d, [])).state =
      ((p.run env.world d).state, (p.run env.world d).trace.filterMap replaced) :=
    Prod.ext hdisk hlog
  rwa [heq] at hstate

/-- A run that returns has replaced all its files. -/
theorem wrote_ok {ε α : Type} {p : SysM ε α} {Q : α → Disk × List FilePath → Prop} {d : Disk}
    (h : p.Keeps (recorded env replaced) (Wrote Final Good d.tree) Q (d, [])) {files : List FilePath}
    (hemits : p.Emits replaced files) {a : α} (hok : (p.run env.world d).result = .ok a) :
    Wrote Final Good d.tree ((p.run env.world d).state, files) := by
  have hwrote := wrote_run h
  rwa [(hemits.trace env.world d).2 a hok] at hwrote

/-- A path that is not replaced, temporary, or above a final file is as it was. -/
theorem Wrote.unchanged (h : Wrote Final Good t₀ w) {q : FilePath} (hq : q ∉ w.2) (htemp : ¬ Temp q)
    (hfinal : ∀ f, Final f → ¬ q <+: f) : w.1.tree[q]? = t₀[q]? :=
  (h.kept q hq htemp).resolve_right (fun ⟨_, _, f, hf, hpre⟩ => hfinal f hf hpre)

/-- No directory and no file is removed but temporary files. -/
theorem Wrote.file_iff (h : Wrote Final Good t₀ w) {q : FilePath} (hq : q ∉ w.2) (htemp : ¬ Temp q)
    {bytes : Bytes} : w.1.tree[q]? = some (.file bytes) ↔ t₀[q]? = some (.file bytes) := by
  rcases h.kept q hq htemp with hsame | ⟨hnone, hdir, -⟩
  · rw [hsame]
  · rw [hnone, hdir]
    simp

/-! ## Persisting a share -/

variable [KeyCodec] [Json] [Age]

/-- The encoding of an envelope that carries the group. -/
def HoldsGroup (group : PublicKeyPackage) (json : Bytes) : Prop :=
  ∃ envelope, Json.envelopeFromSlice json = .ok envelope ∧ envelope.decodePackage = .ok group

/-- An encryption of the plaintext. -/
def Seals (passphrase : Except StoreError Passphrase) (plaintext ciphertext : Bytes) : Prop :=
  ∃ secret entropy, passphrase = .ok secret ∧ encryptSecret secret entropy plaintext = .ok ciphertext

/-- An encryption of the key package. -/
def HoldsShare (passphrase : Except StoreError Passphrase) (kp : KeyPackage) (ciphertext : Bytes) : Prop :=
  ∃ plaintext, KeyCodec.serializeKeyPackage kp = .ok plaintext ∧ Seals passphrase plaintext ciphertext

omit [Age] in
theorem ParticipantStore.Finds.known {root : FilePath} {t : FileTree} {manifest : Manifest}
    (h : ParticipantStore.Finds root t manifest) : manifest.Known := by
  rcases h with rfl | ⟨bytes, -, hparse⟩
  · exact known_new
  · exact known_of_fromJsonBytes hparse

namespace Put

variable (call : Put) (root : FilePath)

/-- The files that the call replaces, in order. -/
def files : List FilePath :=
  [publicPath root call.tag.keyId call.tag.epoch, sharePath root call.tag, manifestPath root]

/-- The entry that the call lists its share with. -/
def entry (now : UInt64) : ShareEntry :=
  .new call.tag.keyId call.tag.epoch call.tag.seat call.state now

/-- What the call puts into each of its files, if the manifest it finds is as `P`
    says. -/
structure Writes (P : Manifest → Prop) (f : FilePath) (bytes : Bytes) : Prop where
  envelope : f = publicPath root call.tag.keyId call.tag.epoch → HoldsGroup call.group bytes
  share : f = sharePath root call.tag → HoldsShare call.passphrase call.keyPackage bytes
  manifest : f = manifestPath root →
    ∃ m now, P m ∧ Manifest.fromJsonBytes bytes = .ok (m.addEntry (call.entry now))

variable {call root} {P : Manifest → Prop}

theorem writes_envelope (hlaws : RoundTrips) {envelope : PubkeyEnvelope} {json : Bytes}
    (henvelope : PubkeyEnvelope.fromPackage call.tag.keyId.label call.tag.epoch.number call.group =
      .ok envelope) (hjson : Json.envelopeToVec envelope = .ok json) :
    call.Writes root P (publicPath root call.tag.keyId call.tag.epoch) json where
  envelope _ := ⟨envelope, hlaws.envelope envelope json hjson, decodePackage_fromPackage hlaws henvelope⟩
  share h := absurd h.symm (sharePath_ne_publicPath _ _ _ _ _)
  manifest h := absurd h (publicPath_ne_manifestPath _ _ _ _)

theorem writes_share {ciphertext : Bytes} (h : HoldsShare call.passphrase call.keyPackage ciphertext) :
    call.Writes root P (sharePath root call.tag) ciphertext where
  envelope hpath := absurd hpath (sharePath_ne_publicPath _ _ _ _ _)
  share _ := h
  manifest hpath := absurd hpath (sharePath_ne_manifestPath _ _ _)

theorem writes_manifest {m : Manifest} {now : UInt64} {json : Bytes} (hm : P m)
    (hparse : Manifest.fromJsonBytes json = .ok (m.addEntry (call.entry now))) :
    call.Writes root P (manifestPath root) json where
  envelope hpath := absurd hpath.symm (publicPath_ne_manifestPath _ _ _ _)
  share hpath := absurd hpath.symm (sharePath_ne_manifestPath _ _ _)
  manifest _ := ⟨m, now, hm, hparse⟩

/-- At every point of a call, it has replaced its files with what it should. -/
theorem keeps_wrote (hlaws : RoundTrips) {d : Disk} (hknown : ∀ m, P m → m.Known)
    (hfound : ∀ m, ParticipantStore.Reads env root d.tree m → P m)
    (hadd : ∀ m now, P m → P (m.addEntry (call.entry now))) :
    (call.program root).Keeps (recorded env replaced)
      (Wrote (· ∈ call.files root) (call.Writes root P) d.tree) (fun _ _ => True) (d, []) := by
  refine ParticipantStore.putShare_keeps (P := P) quiet_wrote (wrote_nil d) (by simp [files])
    (by simp [files]) (by simp [files]) ?_ ?_ ?_ ?_
  · intro envelope json henvelope hjson
    exact installs_wrote (not_temp_publicPath _ _ _) (writes_envelope hlaws henvelope hjson)
  · intro secret entropy plaintext ciphertext hsecret hplaintext hciphertext
    exact installs_wrote (not_temp_sharePath _ _)
      (writes_share ⟨plaintext, hplaintext, secret, entropy, hsecret, hciphertext⟩)
  · intro manifest w hw hreads
    have hback := hw.kept (manifestPath root)
    rcases hreads with ⟨rfl, hmissing⟩ | ⟨bytes, hfile, hparse⟩
    · refine hfound _ (Or.inl ⟨rfl, hmissing.imp_right (fun hnone => ?_)⟩)
      by_cases hmem : manifestPath root ∈ w.2
      · obtain ⟨bytes', hfile', -⟩ := hw.written _ hmem
        cases hnone.symm.trans hfile'
      · rcases hback hmem (not_temp_manifestPath root) with hsame | ⟨-, hdir, -⟩
        · exact hsame.symm.trans hnone
        · cases hnone.symm.trans hdir
    · by_cases hmem : manifestPath root ∈ w.2
      · obtain ⟨bytes', hfile', hwrites⟩ := hw.written _ hmem
        cases hfile.symm.trans hfile'
        obtain ⟨m, now, hm, hparse'⟩ := hwrites.manifest rfl
        obtain rfl : manifest = m.addEntry (call.entry now) := Except.ok.inj (hparse.symm.trans hparse')
        exact hadd m now hm
      · exact hfound _ (Or.inr ⟨bytes, (hw.file_iff hmem (not_temp_manifestPath root)).mp hfile, hparse⟩)
  · intro manifest now json hP hjson
    exact installs_wrote (not_temp_manifestPath _)
      (writes_manifest hP (fromJsonBytes_addEntry hlaws (hknown manifest hP) hjson))

theorem emits_files : (call.program root).Emits replaced (call.files root) :=
  ParticipantStore.putShare_emits _ _ _ _ _

end Put

end Store
