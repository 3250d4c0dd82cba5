-- SUMMARY: Calls that work on one store side by side: what each relies on, what it guarantees, and the invariants that survive every interleaving.
import Cheget.Base.RelyGuarantee
import Cheget.Store.Effects

/-!
# A shared store

Several calls take turns on one file system. Each works on temporary files that
only it has been given the names of, and puts complete files in place. So a call
can rely on its own temporary files, and on every final file staying there once
it has appeared.
-/

namespace Store

open Cli Crypto

/-- The disk, and who has made which call, in order. -/
abbrev Turns (ι : Type) := Disk × List (ι × Event SysOp SysOp.Resp)

/-- The file system, as it answers `k` and keeps the record. -/
abbrev turn {ι : Type} (env : SysEnv) (k : ι) : Handler SysOp SysOp.Resp (Turns ι) :=
  Program.record env.world (fun ev => some (k, ev))

def IsFile (t : FileTree) (p : FilePath) : Prop := ∃ bytes, t[p]? = some (.file bytes)

section Terms

variable {ι : Type}

/-! ## Terms -/

/-- The record is as long as the count of the calls. -/
def Ticks (w : Turns ι) : Prop := w.2.length = w.1.tick

/-- A temporary file whose name `k` has been given. -/
def Owns (env : SysEnv) (k : ι) (w : Turns ι) (p : FilePath) : Prop :=
  ∃ dir tick ev, p = tempPath dir (env.suffix tick) ∧ w.2[tick]? = some (k, ev)

/-- The record grows, and a final file that has appeared stays there. -/
structure Extends (Final : FilePath → Prop) (w w' : Turns ι) : Prop where
  log : w.2 <+: w'.2
  files : ∀ f, Final f → IsFile w.1.tree f → IsFile w'.1.tree f

/-- What `k` relies on. -/
structure Rely (env : SysEnv) (Final : FilePath → Prop) (k : ι) (w w' : Turns ι) : Prop
    extends Extends Final w w' where
  temps : ∀ p bytes, Owns env k w p → w.1.tree[p]? = some (.file bytes) →
    w'.1.tree[p]? = some (.file bytes)

/-- What `k` guarantees. -/
structure Guar (env : SysEnv) (Final : FilePath → Prop) (k : ι) (w w' : Turns ι) : Prop
    extends Extends Final w w' where
  others : ∀ j, j ≠ k → Rely env Final j w w'

variable {env : SysEnv} {Final : FilePath → Prop} {k : ι} {w w' w'' : Turns ι}

theorem Extends.refl (w : Turns ι) : Extends Final w w := ⟨List.prefix_rfl, fun _ _ h => h⟩

theorem Extends.trans (h : Extends Final w w') (h' : Extends Final w' w'') : Extends Final w w'' :=
  ⟨h.log.trans h'.log, fun f hf hfile => h'.files f hf (h.files f hf hfile)⟩

theorem Owns.mono {p : FilePath} (h : Owns env k w p) (hlog : w.2 <+: w'.2) : Owns env k w' p := by
  obtain ⟨dir, tick, ev, hp, hget⟩ := h
  obtain ⟨rest, hrest⟩ := hlog
  obtain ⟨hlt, -⟩ := List.getElem?_eq_some_iff.mp hget
  exact ⟨dir, tick, ev, hp, by rw [← hrest, List.getElem?_append_left hlt, hget]⟩

theorem Owns.temp {p : FilePath} (h : Owns env k w p) : Temp p := by
  obtain ⟨dir, tick, ev, hp, -⟩ := h
  exact ⟨dir, env.suffix tick, hp⟩

/-- A temporary file has one owner, if no name is given twice. -/
theorem Owns.unique (hsuffix : Function.Injective env.suffix) {j : ι} {p : FilePath}
    (h : Owns env k w p) (h' : Owns env j w p) : k = j := by
  obtain ⟨dir, tick, ev, hp, hget⟩ := h
  obtain ⟨dir', tick', ev', hp', hget'⟩ := h'
  cases hsuffix (tempPath_inj (hp.symm.trans hp'))
  exact congrArg Prod.fst (Option.some.inj (hget.symm.trans hget'))

theorem terms [DecidableEq ι] (env : SysEnv) (Final : FilePath → Prop) :
    Program.Crew.Terms (Rely (ι := ι) env Final) (Guar env Final) where
  refl _ w := ⟨Extends.refl w, fun _ _ _ h => h⟩
  trans _ _ _ _ h h' := ⟨h.toExtends.trans h'.toExtends, fun p bytes hown hfile =>
    h'.temps p bytes (hown.mono h.log) (h.temps p bytes hown hfile)⟩
  others _ k _ _ hne h := h.others k (Ne.symm hne)

/-! ## Own steps -/

theorem Ticks.turn (h : Ticks w) (k : ι) (op : SysOp) : Ticks (turn env k op w).2 := by
  simp only [Ticks, Store.turn, Program.record, SysEnv.world, List.length_append,
    Option.toList_some, List.length_cons, List.length_nil] at h ⊢
  rw [h]

theorem log_turn (k : ι) (op : SysOp) (w : Turns ι) :
    (turn env k op w).2.2 = w.2 ++ [(k, ⟨op, (turn env k op w).1⟩)] := rfl

/-- A preparing call that works on own files is within the guarantee. -/
theorem guar_of_prepares (hsuffix : Function.Injective env.suffix)
    (hfinal : ∀ f, Final f → ¬ Temp f) {op : SysOp} (hop : Prepares Final op)
    (hown : ∀ p, worksOn op = some p → Owns env k w p) : Guar env Final k w (turn env k op w).2 := by
  have hkeeps {q : FilePath} {bytes : Bytes} (hq : w.1.tree[q]? = some (.file bytes))
      (hne : worksOn op ≠ some q) : (turn env k op w).2.1.tree[q]? = some (.file bytes) :=
    hop.keeps_file env w.1.tick hq hne
  have hextends : Extends Final w (turn env k op w).2 := by
    refine ⟨List.prefix_append _ _, fun f hf hfile => ?_⟩
    obtain ⟨bytes, hbytes⟩ := hfile
    exact ⟨bytes, hkeeps hbytes (fun hp => hfinal f hf (hop.temp_of_worksOn hp))⟩
  refine ⟨hextends, fun j hj => ⟨hextends, fun p bytes hown' hfile => ?_⟩⟩
  exact hkeeps hfile (fun hp => hj ((hown p hp).unique hsuffix hown').symm)

theorem tree_rename_ok {tmp f : FilePath} {bytes : Bytes}
    (hcontent : w.1.tree[tmp]? = some (.file bytes)) (hok : (turn env k (.rename tmp f) w).1 = .ok ()) :
    (turn env k (.rename tmp f) w).2.1.tree = (w.1.tree.erase tmp).insert f (.file bytes) := by
  obtain ⟨content, hsrc, htree⟩ := SysEnv.act_rename_ok hok
  cases hcontent.symm.trans hsrc
  exact htree

/-- So is putting an own file in the place of a final one. -/
theorem guar_of_rename (hsuffix : Function.Injective env.suffix) (hfinal : ∀ f, Final f → ¬ Temp f)
    {tmp f : FilePath} {bytes : Bytes} (hf : Final f) (hown : Owns env k w tmp)
    (hcontent : w.1.tree[tmp]? = some (.file bytes)) :
    Guar env Final k w (turn env k (.rename tmp f) w).2 := by
  have hkeeps {q : FilePath} {content : Bytes} (hq : w.1.tree[q]? = some (.file content))
      (htmp : tmp ≠ q) (hne : f ≠ q) :
      (turn env k (.rename tmp f) w).2.1.tree[q]? = some (.file content) := by
    have htouch : ¬ (SysOp.rename tmp f).Touches q := not_or.mpr ⟨Ne.symm htmp, Ne.symm hne⟩
    exact (SysEnv.act_frame htouch).trans hq
  have hextends : Extends Final w (turn env k (.rename tmp f) w).2 := by
    refine ⟨List.prefix_append _ _, fun f' hf' hfile => ?_⟩
    obtain ⟨content, hbytes⟩ := hfile
    by_cases hsame : f = f'
    · subst hsame
      cases hresp : (turn env k (.rename tmp f) w).1 with
      | error e =>
          have htree : (turn env k (.rename tmp f) w).2.1.tree = w.1.tree :=
            SysEnv.act_rename_error hresp
          exact ⟨content, htree ▸ hbytes⟩
      | ok out =>
          exact ⟨bytes, by rw [tree_rename_ok hcontent hresp, BTreeMap.getElem?_insert, if_pos rfl]⟩
    · exact ⟨content, hkeeps hbytes (fun h => hfinal f' hf' (h ▸ hown.temp)) hsame⟩
  refine ⟨hextends, fun j hj => ⟨hextends, fun p content hown' hfile => ?_⟩⟩
  refine hkeeps hfile (fun h => ?_) (fun h => hfinal f hf (h ▸ hown'.temp))
  subst h
  exact hj (hown.unique hsuffix hown').symm

end Terms

/-! ## Invariants -/

section Invariants

variable {ι : Type}

/-- The invariant, and that the record is complete. -/
def Kept (I : Turns ι → Prop) (w : Turns ι) : Prop := Ticks w ∧ I w

/-- Neither the calls that prepare a replacement nor a replacement that fails
    disturb the invariant, whoever makes them. -/
structure Steady (env : SysEnv) (Final : FilePath → Prop) (I : Turns ι → Prop) : Prop where
  prepares : ∀ k op w, Prepares Final op → Kept I w → I (turn env k op w).2
  failed : ∀ k src dst w e, (turn env k (.rename src dst) w).1 = .error e → Kept I w →
    I (turn env k (.rename src dst) w).2

/-- At any later point, a complete temporary file may take the place of `f`. -/
def Places (env : SysEnv) (Final : FilePath → Prop) (I : Turns ι → Prop) (k : ι) (f : FilePath)
    (bytes : Bytes) (w : Turns ι) : Prop :=
  ∀ tmp w', Extends Final w w' → Kept I w' → Temp tmp → w'.1.tree[tmp]? = some (.file bytes) →
    (turn env k (.rename tmp f) w').1 = .ok () → I (turn env k (.rename tmp f) w').2

variable {env : SysEnv} {Final : FilePath → Prop} {I : Turns ι → Prop} {k : ι} {w : Turns ι}

/-- `k` behaves under the terms and the invariant. -/
abbrev Behaves (env : SysEnv) (Final : FilePath → Prop) (I : Turns ι → Prop) (k : ι) {ε α : Type}
    (Q : α → Turns ι → Prop) (p : SysM ε α) (w : Turns ι) : Prop :=
  p.Respects (turn env k) (Kept I) (Rely env Final k) (Guar env Final k) Q w

/-- What is assumed of the names that are given, and of the final files. -/
structure Named (env : SysEnv) (Final : FilePath → Prop) : Prop where
  suffix : Function.Injective env.suffix
  final : ∀ f, Final f → ¬ Temp f

variable (hnamed : Named env Final) (hsteady : Steady env Final I)

include hnamed hsteady

/-- A preparing call. -/
theorem behaves_sys {ε : Type} {op : SysOp} {Q : op.Resp → Turns ι → Prop} (hop : Prepares Final op)
    (hown : ∀ p, worksOn op = some p → Owns env k w p)
    (hQ : ∀ w', Rely env Final k w w' → Kept I w' → Q (turn env k op w').1 (turn env k op w').2) :
    Behaves env Final I k Q (sys op : SysM ε _) w := by
  intro w' hw' hrely
  refine ⟨⟨hw'.1.turn k op, hsteady.prepares k op w' hop hw'⟩, ?_, hQ w' hrely hw'⟩
  exact guar_of_prepares hnamed.suffix hnamed.final hop (fun p hp => (hown p hp).mono hrely.log)

/-- Calls that work on no file but create directories and read. -/
theorem behaves_of_prepares {ε α : Type} {p : SysM ε α}
    (hp : p.Uses (fun op => Prepares Final op ∧ worksOn op = none)) :
    Behaves env Final I k (fun _ _ => True) p w := by
  refine hp.respects (F := fun _ => True) (fun op w' hop hw' _ => ?_) (fun _ _ _ _ => trivial) trivial
  refine ⟨⟨hw'.1.turn k op, hsteady.prepares k op w' hop.1 hw'⟩, ?_, trivial⟩
  exact guar_of_prepares hnamed.suffix hnamed.final hop.1 (fun q hq => by cases hop.2.symm.trans hq)

/-- Removing an own file. -/
theorem cleanUp_behaves [KeyCodec] [Json] {tmp : FilePath} (hown : Owns env k w tmp) (e : IoError)
    {Q : Unit → Turns ι → Prop} : Behaves env Final I k Q (cleanUp tmp e) w := by
  refine Program.Respects.bind (Q := fun _ _ => True)
    (behaves_sys hnamed hsteady hown.temp (fun p hp => Option.some.inj hp ▸ hown)
      (fun _ _ _ => trivial)) (fun _ _ _ => trivial)

/-- The own file is complete. -/
theorem writeTemp_behaves {tmp : FilePath} (hown : Owns env k w tmp) (bytes : Bytes) :
    Behaves env Final I k (fun _ w' => w'.1.tree[tmp]? = some (.file bytes)) (writeTemp tmp bytes) w := by
  have htemp := hown.temp
  refine Program.Respects.bind (Q := fun created w₁ => Owns env k w₁ tmp ∧
      (created = .ok () → w₁.1.tree[tmp]? = some (.file [])))
    (behaves_sys hnamed hsteady htemp (fun p hp => Option.some.inj hp ▸ hown) ?_) ?_
  · intro w' hrely hw'
    refine ⟨(hown.mono hrely.log).mono (List.prefix_append _ _), fun hok => ?_⟩
    have htree : (turn env k (.createNew tmp) w').2.1.tree = w'.1.tree.insert tmp (.file []) :=
      SysEnv.act_createNew_ok hok
    rw [htree, BTreeMap.getElem?_insert, if_pos rfl]
  rintro created w₁ ⟨hown₁, hempty⟩
  refine Program.Respects.bind (Q := fun _ w₁ => Owns env k w₁ tmp ∧ w₁.1.tree[tmp]? = some (.file []))
    (Program.respects_ofExcept (fun _ hok => ⟨hown₁, hempty hok⟩)) ?_
  rintro - w₁ ⟨hown₁, hempty⟩
  refine Program.Respects.bind (Q := fun written w₂ => Owns env k w₂ tmp ∧
      (written = .ok () → w₂.1.tree[tmp]? = some (.file bytes)))
    (behaves_sys hnamed hsteady htemp (fun p hp => Option.some.inj hp ▸ hown₁) ?_) ?_
  · intro w' hrely hw'
    refine ⟨(hown₁.mono hrely.log).mono (List.prefix_append _ _), fun hok => ?_⟩
    have htree : (turn env k (.writeAll tmp bytes) w').2.1.tree =
        w'.1.tree.insert tmp (.file ([] ++ bytes)) :=
      SysEnv.act_writeAll_ok (hrely.temps tmp [] hown₁ hempty) hok
    rw [htree, BTreeMap.getElem?_insert, if_pos rfl, List.nil_append]
  rintro written w₂ ⟨hown₂, hfull⟩
  refine Program.Respects.bind
    (Q := fun _ w₂ => Owns env k w₂ tmp ∧ w₂.1.tree[tmp]? = some (.file bytes))
    (Program.respects_ofExcept (fun _ hok => ⟨hown₂, hfull hok⟩)) ?_
  rintro - w₂ ⟨hown₂, hfull⟩
  refine Program.Respects.bind (Q := fun _ w₃ => w₃.1.tree[tmp]? = some (.file bytes))
    (behaves_sys hnamed hsteady trivial (fun p hp => nomatch hp) ?_)
    (fun synced w₃ hfull => Program.respects_ofExcept (fun _ _ => hfull))
  intro w' hrely hw'
  have hframe : (turn env k (.syncAll tmp) w').2.1.tree[tmp]? = w'.1.tree[tmp]? :=
    SysEnv.act_frame (fun h => h)
  exact hframe.trans (hrely.temps tmp bytes hown₂ hfull)

omit hnamed hsteady in
/-- Where a part of a call ends, what had appeared before it is still there. -/
theorem behaves_extends {ε α : Type} {Q : α → Turns ι → Prop} {p : SysM ε α}
    (hp : Behaves env Final I k Q p w) :
    Behaves env Final I k (fun a w' => Extends Final w w' ∧ Q a w') p w :=
  Program.Respects.extends Extends.refl (fun _ _ _ => Extends.trans) (fun _ _ h => h.toExtends)
    (fun _ _ h => h.toExtends) hp

/-- `k` has put a file in the place of `f`. -/
def HasReplaced (k : ι) (f : FilePath) (w : Turns ι) : Prop :=
  ∃ tmp, (k, ⟨.rename tmp f, .ok ()⟩) ∈ w.2

/-- A write that returns has put a complete file in place. -/
theorem writeAtomic_behaves [KeyCodec] [Json] {f : FilePath} {bytes : Bytes} (hf : Final f)
    (hput : Places env Final I k f bytes w) :
    Behaves env Final I k (fun _ w' => HasReplaced k f w' ∧ IsFile w'.1.tree f) (writeAtomic f bytes)
      w := by
  unfold writeAtomic
  split
  · trivial
  refine Program.Respects.bind (Q := fun suffix w₁ => Extends Final w w₁ ∧
      Owns env k w₁ (tempPath f.dropLast suffix))
    (behaves_extends (behaves_sys hnamed hsteady trivial (fun p hp => nomatch hp) ?_)) ?_
  · intro w' _ hw'
    refine ⟨f.dropLast, w'.1.tick, ⟨.uniqueSuffix, (turn env k .uniqueSuffix w').1⟩, rfl, ?_⟩
    rw [log_turn, ← hw'.1, List.getElem?_append_right (Nat.le_refl _), Nat.sub_self]
    rfl
  rintro suffix w₁ ⟨hext₁, hown₁⟩
  have hwrite : Behaves env Final I k _ ((writeTemp _ bytes).attempt : StoreM (Except IoError Unit)) w₁ :=
    (writeTemp_behaves hnamed hsteady hown₁ bytes).attempt
  refine Program.Respects.bind (behaves_extends hwrite) ?_
  rintro written w₂ ⟨hext₂, hfull⟩
  have hown₂ := hown₁.mono hext₂.log
  cases written with
  | error e => exact cleanUp_behaves hnamed hsteady hown₂ e
  | ok out =>
      intro w' hw' hrely
      have hcontent := hrely.temps _ bytes hown₂ (hfull () rfl)
      have hown' := hown₂.mono hrely.log
      have hguar := guar_of_rename (k := k) hnamed.suffix hnamed.final hf hown' hcontent
      refine ⟨⟨hw'.1.turn k _, ?_⟩, hguar, ?_⟩
      · cases hresp : (turn env k (.rename (tempPath f.dropLast suffix) f) w').1 with
        | error e => exact hsteady.failed k _ _ w' e hresp hw'
        | ok out =>
            exact hput _ w' (hext₁.trans (hext₂.trans hrely.toExtends)) hw' hown'.temp hcontent hresp
      · cases hresp : (turn env k (.rename (tempPath f.dropLast suffix) f) w').1 with
        | error e => exact cleanUp_behaves hnamed hsteady (hown'.mono hguar.log) e
        | ok out =>
            have hreplaced : HasReplaced k f (turn env k (.rename (tempPath f.dropLast suffix) f) w').2 := by
              refine ⟨tempPath f.dropLast suffix, ?_⟩
              rw [log_turn, hresp]
              simp
            have hfile : IsFile (turn env k (.rename (tempPath f.dropLast suffix) f) w').2.1.tree f := by
              refine ⟨bytes, ?_⟩
              rw [tree_rename_ok hcontent hresp, BTreeMap.getElem?_insert, if_pos rfl]
            have hsync : Behaves env Final I k (fun _ _ => True)
                (sys (.syncAll f.dropLast) : SysM StoreError _)
                (turn env k (.rename (tempPath f.dropLast suffix) f) w').2 :=
              behaves_sys hnamed hsteady trivial (fun p hp => nomatch hp) (fun _ _ _ => trivial)
            have hrest : Behaves env Final I k (fun _ w' => HasReplaced k f w' ∧ IsFile w'.1.tree f)
                (io (sys (.syncAll f.dropLast)))
                (turn env k (.rename (tempPath f.dropLast suffix) f) w').2 := by
              refine (behaves_extends hsync).bind ?_
              rintro synced w₃ ⟨hext₃, -⟩
              refine Program.respects_ofExcept (fun _ _ => ⟨?_, hext₃.files f hf hfile⟩)
              obtain ⟨tmp, hmem⟩ := hreplaced
              exact ⟨tmp, hext₃.log.subset hmem⟩
            exact hrest

theorem createDirSecure_behaves [KeyCodec] [Json] {path f : FilePath} (hf : Final f)
    (hpath : path <+: f) :
    Behaves env Final I k (fun _ w' => Extends Final w w') (createDirSecure path) w := by
  have huses : (createDirSecure path).Uses (fun op => Prepares Final op ∧ worksOn op = none) := by
    refine Program.Uses.bind (p := sys (.isDir path)) ⟨⟨trivial, rfl⟩, fun _ => trivial⟩
      (fun isDir => ?_)
    cases isDir with
    | true => trivial
    | false => exact uses_io ⟨⟨⟨f, hf, hpath⟩, rfl⟩, fun _ => trivial⟩
  exact (behaves_extends (behaves_of_prepares hnamed hsteady huses)).mono (fun _ _ h => h.1)

/-! ## Calls -/

/-- What the answer to the reading of a manifest means. -/
def Answers [KeyCodec] [Json] (content : Except IoError Bytes) (manifest : Manifest) : Prop :=
  (∃ bytes, content = .ok bytes ∧ Manifest.fromJsonBytes bytes = .ok manifest) ∨
    (content = .error .notFound ∧ manifest = .new)

variable [KeyCodec] [Json] [Age]

theorem loadManifest_behaves {self : ParticipantStore} {P : Manifest → Turns ι → Prop}
    (hread : ∀ w manifest, Kept I w → Answers (turn env k (.read (manifestPath self.root)) w).1 manifest →
      P manifest (turn env k (.read (manifestPath self.root)) w).2) :
    Behaves env Final I k P self.loadManifest w := by
  unfold ParticipantStore.loadManifest
  refine Program.Respects.bind
    (Q := fun content w₁ => ∀ manifest, Answers content manifest → P manifest w₁)
    (behaves_sys hnamed hsteady trivial (fun p hp => nomatch hp)
      (fun w' _ hw' manifest h => hread w' manifest hw' h)) ?_
  intro content w₁ hanswers
  cases content with
  | ok bytes =>
      exact Program.respects_ofExcept (fun manifest h => hanswers manifest (Or.inl ⟨bytes, rfl, h⟩))
  | error e =>
      cases e with
      | notFound => exact hanswers .new (Or.inr ⟨rfl, rfl⟩)
      | alreadyExists => trivial
      | other code => trivial

/-- Persisting a share side by side with others. `P` is what holds of a manifest
    from when it is read. -/
theorem put_behaves {self : Put} {root : FilePath} {P : Manifest → Turns ι → Prop}
    (hpublic : Final (publicPath root self.tag.keyId self.tag.epoch))
    (hshare : Final (sharePath root self.tag)) (hmanifest : Final (manifestPath root))
    (hputPublic : ∀ json w,
      Places env Final I k (publicPath root self.tag.keyId self.tag.epoch) json w)
    (hputShare : ∀ secret entropy plaintext ciphertext w, self.passphrase = .ok secret →
      KeyCodec.serializeKeyPackage self.keyPackage = .ok plaintext →
        encryptSecret secret entropy plaintext = .ok ciphertext →
          Places env Final I k (sharePath root self.tag) ciphertext w)
    (hread : ∀ w manifest, Kept I w → Answers (turn env k (.read (manifestPath root)) w).1 manifest →
      P manifest (turn env k (.read (manifestPath root)) w).2)
    (hmono : ∀ manifest w w', Extends Final w w' → P manifest w → P manifest w')
    (hputManifest : ∀ manifest now json w, P manifest w → IsFile w.1.tree (sharePath root self.tag) →
      (manifest.addEntry (.new self.tag.keyId self.tag.epoch self.tag.seat self.state now)).toJsonBytes =
          .ok json →
        Places env Final I k (manifestPath root) json w) :
    Behaves env Final I k (fun _ w' => HasReplaced k (manifestPath root) w') (self.program root) w := by
  unfold Put.program ParticipantStore.putShare
  refine Program.Respects.bind (Q := fun secret _ => self.passphrase = .ok secret)
    (Program.respects_ofExcept (fun _ h => h)) (fun secret w hsecret => ?_)
  refine Program.Respects.bind (Q := fun _ _ => True) ?_ (fun _ w _ => ?_)
  · unfold ParticipantStore.putPublicEnvelope
    refine Program.Respects.bind (Q := fun _ _ => True)
      (Program.respects_ofExcept (fun _ _ => trivial)) (fun envelope w _ => ?_)
    refine Program.Respects.bind (Q := fun _ _ => True)
      (Program.respects_ofExcept (fun _ _ => trivial)) (fun json w _ => ?_)
    refine (createDirSecure_behaves hnamed hsteady hpublic (List.dropLast_prefix _)).bind
      (fun _ w _ => ?_)
    exact (writeAtomic_behaves hnamed hsteady hpublic (hputPublic json w)).mono (fun _ _ _ => trivial)
  refine (createDirSecure_behaves hnamed hsteady hshare (List.dropLast_prefix _)).bind
    (fun _ w _ => ?_)
  refine Program.Respects.bind
    (Q := fun plaintext _ => KeyCodec.serializeKeyPackage self.keyPackage = .ok plaintext)
    (Program.respects_ofExcept (fun _ h => Except.mapError_eq_ok.mp h)) (fun plaintext w hplaintext => ?_)
  refine Program.Respects.bind (Q := fun _ _ => True)
    (behaves_sys hnamed hsteady trivial (fun p hp => nomatch hp) (fun _ _ _ => trivial))
    (fun entropy w _ => ?_)
  refine Program.Respects.bind
    (Q := fun ciphertext _ => encryptSecret secret entropy plaintext = .ok ciphertext)
    (Program.respects_ofExcept (fun _ h => h)) (fun ciphertext w hciphertext => ?_)
  refine (writeAtomic_behaves hnamed hsteady hshare
    (hputShare secret entropy plaintext ciphertext w hsecret hplaintext hciphertext)).bind ?_
  rintro - w ⟨-, hfile⟩
  refine (behaves_extends (loadManifest_behaves hnamed hsteady hread)).bind ?_
  rintro manifest w ⟨hext, hP⟩
  have hfile := hext.files _ hshare hfile
  have hnow : Behaves env Final I k (fun _ _ => True) (sys .unixTime : SysM StoreError _) w :=
    behaves_sys hnamed hsteady trivial (fun p hp => nomatch hp) (fun _ _ _ => trivial)
  refine (behaves_extends hnow).bind ?_
  rintro now w ⟨hext, -⟩
  have hfile := hext.files _ hshare hfile
  have hP := hmono manifest _ _ hext hP
  refine (createDirSecure_behaves hnamed hsteady hmanifest (List.prefix_append _ _)).bind
    (fun _ w hext => ?_)
  have hfile := hext.files _ hshare hfile
  have hP := hmono manifest _ _ hext hP
  refine Program.Respects.bind (Q := fun json w₁ => w₁ = w ∧ (manifest.addEntry
      (.new self.tag.keyId self.tag.epoch self.tag.seat self.state now)).toJsonBytes = .ok json)
    (Program.respects_ofExcept (fun _ h => ⟨rfl, h⟩)) ?_
  rintro json w₁ ⟨rfl, hjson⟩
  exact (writeAtomic_behaves hnamed hsteady hmanifest
    (hputManifest manifest now json _ hP hfile hjson)).mono (fun _ _ h => h.1)

/-! ## Schedules -/

/-- Calls that have not made a step yet. -/
def crewOf {σ : Type} (root : FilePath) (calls : ι → Put) (s : σ) :
    Program.Crew ι SysOp SysOp.Resp σ StoreError Unit :=
  ⟨fun k => (calls k).program root, s⟩

omit hnamed hsteady in
/-- Over every schedule of calls that behave, the invariant holds, and the calls
    that have returned have put a manifest in place. -/
theorem crew_kept [DecidableEq ι] {root : FilePath} {calls : ι → Put}
    (hbehaves : ∀ k w, Behaves env Final I k (fun _ w' => HasReplaced k (manifestPath root) w')
      ((calls k).program root) w)
    {t₀ : FileTree} (hstart : I (⟨t₀, 0⟩, [])) (schedule : List ι) :
    let crew := (crewOf root calls ((⟨t₀, 0⟩, []) : Turns ι)).after (turn env) schedule
    I crew.state ∧
      ∀ k, (crew.programs k).returned = some () → HasReplaced k (manifestPath root) crew.state := by
  have hcrew : (crewOf root calls ((⟨t₀, 0⟩, []) : Turns ι)).Respectful (turn env) (Kept I)
      (Rely env Final) (Guar env Final) (fun k _ w => HasReplaced k (manifestPath root) w) :=
    ⟨⟨rfl, hstart⟩, fun k => ⟨_, (terms env Final).refl k _, hbehaves k _⟩⟩
  obtain ⟨hkept, hprograms⟩ := hcrew.after (terms env Final) schedule
  refine ⟨hkept.2, fun k hdone => ?_⟩
  obtain ⟨w, hrely, hown⟩ := hprograms k
  rw [Program.returned_eq_some.mp hdone] at hown
  obtain ⟨tmp, hmem⟩ := hown
  exact ⟨tmp, hrely.log.subset hmem⟩

omit hnamed hsteady in
/-- The record that the turns keep changes nothing else. -/
theorem after_turn [DecidableEq ι] (env : SysEnv) (root : FilePath) (calls : ι → Put) (d : Disk)
    (log : List (ι × Event SysOp SysOp.Resp)) (schedule : List ι) :
    ((crewOf root calls ((d, log) : Turns ι)).after (turn env) schedule).state.1 =
      ((crewOf root calls d).after (fun _ => env.world) schedule).state :=
  (Program.Crew.after_record (fun k => (calls k).program root) (d, log) schedule).2

end Invariants

end Store
