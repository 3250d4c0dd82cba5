-- SUMMARY: Which files the store's operations touch, and the replacement that every returning write has made.
import Cheget.Store.Paths

/-!
# Effects of the store

A store operation creates directories, works on temporary files, and renames a
temporary file over a final one. It changes no final file in any other way.
-/

namespace Store

open Cli Crypto

/-! ## Temporary files -/

/-- The path of a temporary file. -/
def Temp (p : FilePath) : Prop := ∃ dir suffix, p = tempPath dir suffix

theorem temp_tempPath (dir : FilePath) (suffix : String) : Temp (tempPath dir suffix) :=
  ⟨dir, suffix, rfl⟩

theorem tempPath_inj {dir dir' : FilePath} {s s' : String} (h : tempPath dir s = tempPath dir' s') :
    s = s' := by
  unfold tempPath at h
  obtain ⟨-, hname⟩ := List.append_inj' h rfl
  exact String.append_right_injective _ (String.append_left_injective _ (List.cons.inj hname).1)

theorem toList_uniqueSuffix (pid nanos n : Nat) : (uniqueSuffix pid nanos n).toList =
    Nat.toDigits 10 pid ++ '-' :: (Nat.toDigits 10 nanos ++ '-' :: Nat.toDigits 10 n) := by
  simp [uniqueSuffix, String.toList_append, Nat.toString_eq_repr, Nat.toList_repr]

/-- A suffix is given once, whatever the time. -/
theorem uniqueSuffix_inj {pid pid' nanos nanos' n n' : Nat}
    (h : uniqueSuffix pid nanos n = uniqueSuffix pid' nanos' n') : pid = pid' ∧ n = n' := by
  have hlist := congrArg String.toList h
  rw [toList_uniqueSuffix, toList_uniqueSuffix, ← List.cons_append, ← List.append_assoc,
    ← List.cons_append, ← List.append_assoc] at hlist
  obtain ⟨hfront, hn⟩ := List.append_separator_inj (Nat.notMem_toDigits n (by decide))
    (Nat.notMem_toDigits n' (by decide)) hlist
  obtain ⟨hpid, -, -⟩ := (List.append_cons_inj_of_notMem (Nat.notMem_toDigits pid (by decide))
    (Nat.notMem_toDigits nanos (by decide))).mp hfront
  exact ⟨Nat.toDigits_injective hpid, Nat.toDigits_injective hn⟩

/-- A temporary file is told by the dot its name starts with. -/
theorem not_temp_concat {dir : FilePath} {name : String} (h : name.toList.head? ≠ some '.') :
    ¬ Temp (dir ++ [name]) := by
  rintro ⟨dir', suffix, heq⟩
  obtain ⟨-, hname⟩ := List.append_inj' heq rfl
  cases hname
  apply h
  simp [String.toList_append]

theorem not_temp_manifestPath (root : FilePath) : ¬ Temp (manifestPath root) :=
  not_temp_concat (by decide)

theorem not_temp_sharePath (root : FilePath) (tag : ShareTag) : ¬ Temp (sharePath root tag) := by
  rw [sharePath_eq_concat]
  exact not_temp_concat (by simp [String.toList_append])

theorem not_temp_publicPath (root : FilePath) (keyId : KeyId) (epoch : Epoch) :
    ¬ Temp (publicPath root keyId epoch) := by
  rw [publicPath_eq_concat]
  exact not_temp_concat (by simp [String.toList_append])

/-! ## Calls of a store -/

/-- The calls that prepare the replacement of a final file. -/
def Prepares (Final : FilePath → Prop) : SysOp → Prop
  | .createDirAll p => ∃ f, Final f ∧ p <+: f
  | .createNew p => Temp p
  | .createTruncate _ => False
  | .writeAll p _ => Temp p
  | .rename _ _ => False
  | .removeFile p => Temp p
  | .removeDirAll _ => False
  | _ => True

/-- The calls that prepare it or carry it out. -/
def Replaces (Final : FilePath → Prop) (op : SysOp) : Prop :=
  Prepares Final op ∨ ∃ src dst, op = .rename src dst ∧ Temp src ∧ Final dst

variable {Final : FilePath → Prop}

/-- What is neither temporary nor above a final file is not touched. -/
theorem Replaces.not_touches {op : SysOp} (h : Replaces Final op) {q : FilePath} (htemp : ¬ Temp q)
    (hfinal : ∀ f, Final f → ¬ q <+: f) : ¬ op.Touches q := by
  intro htouch
  rcases h with hprep | ⟨src, dst, rfl, hsrc, hdst⟩
  · cases op with
    | createDirAll p =>
        obtain ⟨f, hf, hpre⟩ := hprep
        exact hfinal f hf ((FileTree.mem_ancestors.mp htouch).2.trans hpre)
    | createNew p => exact htemp (htouch ▸ hprep)
    | createTruncate p => exact hprep
    | writeAll p bytes => exact htemp (htouch ▸ hprep)
    | rename src dst => exact hprep
    | removeFile p => exact htemp (htouch ▸ hprep)
    | removeDirAll p => exact hprep
    | isDir p => exact htouch
    | syncAll p => exact htouch
    | read p => exact htouch
    | readDir p => exact htouch
    | uniqueSuffix => exact htouch
    | unixTime => exact htouch
    | entropy => exact htouch
  · rcases htouch with rfl | rfl
    · exact htemp hsrc
    · exact hfinal q hdst List.prefix_rfl

/-- What a preparing call can do at a path: nothing, unless the path is temporary,
    or is free and becomes a directory above a final file. -/
theorem Prepares.act_cases {op : SysOp} (h : Prepares Final op) (env : SysEnv) (tick : Nat)
    (t : FileTree) (q : FilePath) :
    (env.act tick t op).2[q]? = t[q]? ∨ Temp q ∨
      (t[q]? = none ∧ (env.act tick t op).2[q]? = some .dir ∧ ∃ f, Final f ∧ q <+: f) := by
  by_cases htouch : op.Touches q
  · cases op with
    | createDirAll p =>
        obtain ⟨f, hf, hpre⟩ := h
        have hmkdirs : ∀ ps, (t.mkdirs ps).2[q]? = t[q]? ∨
            (t[q]? = none ∧ (t.mkdirs ps).2[q]? = some .dir) :=
          fun ps => (t.getElem?_mkdirs ps q).imp_right (fun h => ⟨h.1, h.2.1⟩)
        have hdir : (env.act tick t (.createDirAll p)).2[q]? = t[q]? ∨
            (t[q]? = none ∧ (env.act tick t (.createDirAll p)).2[q]? = some .dir) := by
          simp only [SysEnv.act]
          split
          · exact hmkdirs _
          · exact hmkdirs _
        exact hdir.imp_right (fun hdir =>
          Or.inr ⟨hdir.1, hdir.2, f, hf, (FileTree.mem_ancestors.mp htouch).2.trans hpre⟩)
    | createNew p => exact Or.inr (Or.inl (htouch ▸ h))
    | createTruncate p => exact h.elim
    | writeAll p bytes => exact Or.inr (Or.inl (htouch ▸ h))
    | rename src dst => exact h.elim
    | removeFile p => exact Or.inr (Or.inl (htouch ▸ h))
    | removeDirAll p => exact h.elim
    | isDir p => exact htouch.elim
    | syncAll p => exact htouch.elim
    | read p => exact htouch.elim
    | readDir p => exact htouch.elim
    | uniqueSuffix => exact htouch.elim
    | unixTime => exact htouch.elim
    | entropy => exact htouch.elim
  · exact Or.inl (SysEnv.act_frame htouch)

/-- The file that a call works on by name, other than by renaming it. -/
def worksOn : SysOp → Option FilePath
  | .createNew p => some p
  | .createTruncate p => some p
  | .writeAll p _ => some p
  | .removeFile p => some p
  | _ => none

/-- A preparing call leaves every file as it was but the one it works on. -/
theorem Prepares.keeps_file {op : SysOp} (h : Prepares Final op) (env : SysEnv) (tick : Nat)
    {t : FileTree} {q : FilePath} {bytes : Bytes} (hq : t[q]? = some (.file bytes))
    (hne : worksOn op ≠ some q) : (env.act tick t op).2[q]? = some (.file bytes) := by
  by_cases htouch : op.Touches q
  · cases op with
    | createDirAll p =>
        have hmkdirs : ∀ ps, (t.mkdirs ps).2[q]? = some (.file bytes) := by
          intro ps
          rcases t.getElem?_mkdirs ps q with hsame | ⟨hnone, -⟩
          · exact hsame.trans hq
          · cases hq.symm.trans hnone
        simp only [SysEnv.act]
        split
        · exact hmkdirs _
        · exact hmkdirs _
    | createNew p => exact absurd (congrArg some (Eq.symm htouch)) hne
    | createTruncate p => exact h.elim
    | writeAll p content => exact absurd (congrArg some (Eq.symm htouch)) hne
    | rename src dst => exact h.elim
    | removeFile p => exact absurd (congrArg some (Eq.symm htouch)) hne
    | removeDirAll p => exact h.elim
    | isDir p => exact htouch.elim
    | syncAll p => exact htouch.elim
    | read p => exact htouch.elim
    | readDir p => exact htouch.elim
    | uniqueSuffix => exact htouch.elim
    | unixTime => exact htouch.elim
    | entropy => exact htouch.elim
  · exact (SysEnv.act_frame htouch).trans hq

/-- The file that a preparing call works on is temporary. -/
theorem Prepares.temp_of_worksOn {op : SysOp} (h : Prepares Final op) {p : FilePath}
    (hp : worksOn op = some p) : Temp p := by
  cases op with
  | createNew q => exact Option.some.inj hp ▸ h
  | createTruncate q => exact h.elim
  | writeAll q bytes => exact Option.some.inj hp ▸ h
  | removeFile q => exact Option.some.inj hp ▸ h
  | _ => cases hp

/-- A preparing call neither makes, changes nor removes a file that is not
    temporary. -/
theorem Prepares.file_iff {op : SysOp} (h : Prepares Final op) (env : SysEnv) (tick : Nat)
    {t : FileTree} {q : FilePath} {bytes : Bytes} (hq : ¬ Temp q) :
    (env.act tick t op).2[q]? = some (.file bytes) ↔ t[q]? = some (.file bytes) := by
  constructor
  · intro hfile
    rcases h.act_cases env tick t q with hsame | htemp | ⟨-, hdir, -⟩
    · exact hsame.symm.trans hfile
    · exact absurd htemp hq
    · cases hdir.symm.trans hfile
  · exact fun hfile => h.keeps_file env tick hfile (fun hp => hq (h.temp_of_worksOn hp))

theorem Prepares.replaced_eq_none {op : SysOp} (h : Prepares Final op) (r : op.Resp) :
    replaced ⟨op, r⟩ = none := by
  cases op with
  | rename src dst => exact h.elim
  | _ => rfl

variable [KeyCodec] [Json]

theorem uses_io {P : SysOp → Prop} {α : Type} {call : SysM StoreError (Except IoError α)}
    (h : call.Uses P) : (io call).Uses P :=
  h.bind (fun _ => Program.uses_ofExcept _ _)

theorem createDirSecure_uses {path f : FilePath} (hf : Final f) (hpath : path <+: f) :
    (createDirSecure path).Uses (Prepares Final) := by
  refine Program.Uses.bind (p := sys (.isDir path)) ⟨trivial, fun _ => trivial⟩ (fun isDir => ?_)
  cases isDir with
  | true => trivial
  | false => exact uses_io ⟨⟨f, hf, hpath⟩, fun _ => trivial⟩

theorem cleanUp_uses {tmp : FilePath} (htmp : Temp tmp) (e : IoError) :
    (cleanUp tmp e).Uses (Prepares Final) :=
  ⟨htmp, fun _ => trivial⟩

omit [KeyCodec] [Json] in
theorem writeTemp_uses {tmp : FilePath} (htmp : Temp tmp) (bytes : Bytes) :
    (writeTemp tmp bytes).Uses (Prepares Final) := by
  refine ⟨htmp, fun created => (Program.uses_ofExcept _ created).bind (fun _ => ?_)⟩
  refine ⟨htmp, fun written => (Program.uses_ofExcept _ written).bind (fun _ => ?_)⟩
  exact ⟨trivial, fun synced => Program.uses_ofExcept _ synced⟩

theorem writeAtomic_uses {f : FilePath} (hf : Final f) (bytes : Bytes) :
    (writeAtomic f bytes).Uses (Replaces Final) := by
  unfold writeAtomic
  split
  · trivial
  · refine ⟨Or.inl trivial, fun suffix => ?_⟩
    have htmp := temp_tempPath f.dropLast suffix
    refine ((writeTemp_uses htmp bytes).mono (fun _ => Or.inl)).attempt.bind (fun written => ?_)
    cases written with
    | error e => exact (cleanUp_uses htmp e).mono (fun _ => Or.inl)
    | ok out =>
        refine ⟨Or.inr ⟨_, _, rfl, htmp, hf⟩, fun renamed => ?_⟩
        cases renamed with
        | error e => exact (cleanUp_uses htmp e).mono (fun _ => Or.inl)
        | ok out => exact uses_io ⟨Or.inl trivial, fun _ => trivial⟩

omit [KeyCodec] [Json] in
/-- A call that replaces nothing. -/
theorem emits_sys {ε : Type} {op : SysOp} (h : ∀ r, replaced ⟨op, r⟩ = none) :
    (sys op : SysM ε _).Emits replaced [] := by
  intro r
  rw [h r]
  rfl

theorem emits_io {α : Type} {call : SysM StoreError (Except IoError α)}
    (h : call.Emits replaced []) : (io call).Emits replaced [] :=
  h.bind (fun _ => Program.emits_ofExcept _)

theorem createDirSecure_emits (path : FilePath) : (createDirSecure path).Emits replaced [] := by
  refine Program.Emits.bind (p := sys (.isDir path)) (emits_sys (fun _ => rfl)) (fun isDir => ?_)
  cases isDir with
  | true => rfl
  | false => exact emits_io (emits_sys (fun _ => rfl))

omit [KeyCodec] [Json] in
theorem writeTemp_emits (tmp : FilePath) (bytes : Bytes) :
    (writeTemp tmp bytes).Emits replaced [] := by
  refine fun created => (Program.emits_ofExcept created).bind (fun _ => ?_)
  refine fun written => (Program.emits_ofExcept written).bind (fun _ => ?_)
  exact fun synced => Program.emits_ofExcept synced

/-- A write replaces its file, and nothing else. -/
theorem writeAtomic_emits (f : FilePath) (bytes : Bytes) :
    (writeAtomic f bytes).Emits replaced [f] := by
  unfold writeAtomic
  split
  · trivial
  · refine Program.Emits.bind (p := sys .uniqueSuffix) (emits_sys (fun _ => rfl)) (fun suffix => ?_)
    refine (writeTemp_emits _ bytes).attempt.bind (fun written => ?_)
    cases written with
    | error e => exact fun _ => trivial
    | ok out =>
        intro renamed
        cases renamed with
        | error e => exact fun _ => trivial
        | ok out => exact ⟨[], rfl, emits_io (emits_sys (fun _ => rfl))⟩

namespace ParticipantStore

variable [Age] {self : ParticipantStore}

theorem putPublicEnvelope_uses {keyId : KeyId} {epoch : Epoch}
    (hf : Final (publicPath self.root keyId epoch)) (group : PublicKeyPackage) :
    (self.putPublicEnvelope keyId epoch group).Uses (Replaces Final) := by
  refine (Program.uses_ofExcept _ _).bind (fun envelope => ?_)
  refine (Program.uses_ofExcept _ _).bind (fun json => ?_)
  refine ((createDirSecure_uses hf (List.dropLast_prefix _)).mono (fun _ => Or.inl)).bind
    (fun _ => ?_)
  exact writeAtomic_uses hf json

theorem loadManifest_uses : self.loadManifest.Uses (Prepares Final) := by
  refine ⟨trivial, fun content => ?_⟩
  cases content with
  | ok bytes => exact Program.uses_ofExcept _ _
  | error e => cases e <;> trivial

theorem putShare_uses {tag : ShareTag} (hpublic : Final (publicPath self.root tag.keyId tag.epoch))
    (hshare : Final (sharePath self.root tag)) (hmanifest : Final (manifestPath self.root))
    (keyPackage : KeyPackage) (group : PublicKeyPackage) (state : ShareState) :
    (self.putShare tag keyPackage group state).Uses (Replaces Final) := by
  refine (Program.uses_ofExcept _ _).bind (fun passphrase => ?_)
  refine (putPublicEnvelope_uses hpublic group).bind (fun _ => ?_)
  refine ((createDirSecure_uses hshare (List.dropLast_prefix _)).mono (fun _ => Or.inl)).bind
    (fun _ => ?_)
  refine (Program.uses_ofExcept _ _).bind (fun plaintext => ?_)
  refine ⟨Or.inl trivial, fun entropy => ?_⟩
  refine (Program.uses_ofExcept _ _).bind (fun ciphertext => ?_)
  refine (writeAtomic_uses hshare ciphertext).bind (fun _ => ?_)
  refine (loadManifest_uses.mono (fun _ => Or.inl)).bind (fun manifest => ?_)
  refine ⟨Or.inl trivial, fun now => ?_⟩
  refine ((createDirSecure_uses hmanifest (List.prefix_append _ _)).mono (fun _ => Or.inl)).bind
    (fun _ => ?_)
  refine (Program.uses_ofExcept _ _).bind (fun json => ?_)
  exact writeAtomic_uses hmanifest json

theorem putPublicEnvelope_emits (self : ParticipantStore) (keyId : KeyId) (epoch : Epoch)
    (group : PublicKeyPackage) :
    (self.putPublicEnvelope keyId epoch group).Emits replaced [publicPath self.root keyId epoch] := by
  refine (Program.emits_ofExcept _).bind (fun envelope => ?_)
  refine (Program.emits_ofExcept _).bind (fun json => ?_)
  exact (createDirSecure_emits _).bind (fun _ => writeAtomic_emits _ json)

theorem loadManifest_emits (self : ParticipantStore) : self.loadManifest.Emits replaced [] := by
  intro content
  cases content with
  | ok bytes => exact Program.emits_ofExcept _
  | error e => cases e <;> trivial

/-- Persisting a share replaces the envelope, the share and the manifest, in
    this order. -/
theorem putShare_emits (self : ParticipantStore) (tag : ShareTag) (keyPackage : KeyPackage)
    (group : PublicKeyPackage) (state : ShareState) :
    (self.putShare tag keyPackage group state).Emits replaced
      [publicPath self.root tag.keyId tag.epoch, sharePath self.root tag, manifestPath self.root] := by
  refine (Program.emits_ofExcept _).bind (fun passphrase => ?_)
  refine (putPublicEnvelope_emits self tag.keyId tag.epoch group).bind (fun _ => ?_)
  refine (createDirSecure_emits _).bind (fun _ => ?_)
  refine (Program.emits_ofExcept _).bind (fun plaintext => ?_)
  refine Program.Emits.bind (p := sys .entropy) (emits_sys (fun _ => rfl)) (fun entropy => ?_)
  refine (Program.emits_ofExcept _).bind (fun ciphertext => ?_)
  refine (writeAtomic_emits _ ciphertext).bind (fun _ => ?_)
  refine (loadManifest_emits self).bind (fun manifest => ?_)
  refine Program.Emits.bind (p := sys .unixTime) (emits_sys (fun _ => rfl)) (fun now => ?_)
  refine (createDirSecure_emits _).bind (fun _ => ?_)
  refine (Program.emits_ofExcept _).bind (fun json => ?_)
  exact writeAtomic_emits _ json

end ParticipantStore

variable [Age]

/-! ## Calls -/

/-- The arguments of a call that persists a share, and where its passphrase comes
    from. -/
structure Put where
  passphrase : Except StoreError Passphrase
  tag : ShareTag
  keyPackage : KeyPackage
  group : PublicKeyPackage
  state : ShareState

def Put.program (self : Put) (root : FilePath) : StoreM Unit :=
  ParticipantStore.putShare ⟨root, self.passphrase⟩ self.tag self.keyPackage self.group self.state

omit [KeyCodec] [Json] [Age] in
/-- Nothing is below the root. -/
def EmptyRoot (t : FileTree) (root : FilePath) : Prop := ∀ name rest, t[root ++ name :: rest]? = none

omit [KeyCodec] [Json] [Age] in
/-- Why a path below it leads nowhere depends on the root. -/
theorem EmptyRoot.missing {t : FileTree} {root : FilePath} (h : EmptyRoot t root) (name : String)
    (rest : FilePath) : t.missing (root ++ name :: rest) = t.missing root := by
  have hiff : t.missing (root ++ name :: rest) = .notFound ↔ t.missing root = .notFound := by
    rw [FileTree.missing_eq_notFound, FileTree.missing_eq_notFound]
    constructor
    · exact fun hall q hne hq => hall q hne (hq.trans (List.prefix_append _ _))
    · intro hall q hne hq
      rcases List.prefix_or_prefix_of_prefix hq (List.prefix_append root (name :: rest)) with hroot | hbelow
      · exact hall q hne hroot
      · obtain ⟨names, rfl⟩ := hbelow
        cases names with
        | nil => exact hall _ hne (by simp)
        | cons name' names => rw [FileTree.hasFile, h name' names]
  unfold FileTree.missing at hiff ⊢
  split <;> split <;> simp_all

omit [KeyCodec] [Json] [Age] in
theorem emptyRoot_empty (root : FilePath) : EmptyRoot ∅ root := fun name rest => by simp

/-! ## Loads -/

namespace ParticipantStore

/-- What loading a share makes of the answer to its only call. -/
def openShare (self : ParticipantStore) (content : Except IoError Bytes) :
    Except StoreError KeyPackage := do
  let passphrase ← self.passphrase
  let ciphertext ← content.mapError .io
  let plaintext ← decryptSecret passphrase ciphertext
  (KeyCodec.deserializeKeyPackage plaintext).mapError .frost

theorem openShare_eq_ok {self : ParticipantStore} {content : Except IoError Bytes} {kp : KeyPackage} :
    self.openShare content = .ok kp ↔ ∃ bytes, content = .ok bytes ∧ self.openShare (.ok bytes) = .ok kp := by
  cases content with
  | ok bytes => simp
  | error e =>
      unfold openShare
      cases self.passphrase <;> simp [Except.mapError]

theorem run_loadShare (self : ParticipantStore) (tag : ShareTag) (env : SysEnv) (d : Disk) :
    ((self.loadShare tag).run env.world d).result =
      self.openShare (env.act d.tick d.tree (.read (sharePath self.root tag))).1 := by
  unfold loadShare openShare
  cases self.passphrase with
  | error e => rfl
  | ok secret =>
      simp only [Program.ofExcept_ok, Program.done_bind, io, sys, Program.perform,
        Program.exec_bind, Program.run_exec, Except.ok_bind, SysEnv.world]
      cases (env.act d.tick d.tree (.read (sharePath self.root tag))).1 with
      | error e => rfl
      | ok bytes =>
          simp only [Except.mapError_ok, Program.ofExcept_ok, Program.done_bind, Except.ok_bind]
          cases decryptSecret secret bytes with
          | error e => rfl
          | ok plaintext => simp only [Program.ofExcept_ok, Program.done_bind, Program.run_ofExcept,
              Except.ok_bind]

theorem run_loadPublicEnvelope (self : ParticipantStore) (keyId : KeyId) (epoch : Epoch)
    (env : SysEnv) (d : Disk) :
    ((self.loadPublicEnvelope keyId epoch).run env.world d).result =
      ((env.act d.tick d.tree (.read (publicPath self.root keyId epoch))).1.mapError .io >>=
        fun bytes => (Json.envelopeFromSlice bytes).mapError .json) := by
  simp only [loadPublicEnvelope, io, sys, Program.perform, Program.exec_bind, Program.run_exec,
    Program.done_bind, SysEnv.world]
  cases (env.act d.tick d.tree (.read (publicPath self.root keyId epoch))).1 with
  | error e => rfl
  | ok bytes => simp only [Except.mapError_ok, Program.ofExcept_ok, Program.done_bind,
      Program.run_ofExcept, Except.ok_bind]

end ParticipantStore

end Store
