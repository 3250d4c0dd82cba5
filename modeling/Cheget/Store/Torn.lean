-- SUMMARY: A sequence of interrupted writes to the root of one seat, and when the share and the envelope of every listed tag stay of one key.
import Cheget.Store.Coherent
import Cheget.Store.Plain

/-!
# Interrupted overwrites

Persisting a share under a tag that is in use replaces its envelope before its
share. Between the two, the manifest lists a tag whose files are of two keys.
-/

namespace Store

open Cli Crypto

section Puts

variable [KeyCodec] [Json] [Age]

/-! ## Listed tags -/

/-- The manifest on disk has an entry of the tag. -/
def Listed (t : FileTree) (root : FilePath) (tag : ShareTag) : Prop :=
  ∃ bytes manifest, t[manifestPath root]? = some (.file bytes) ∧
    Manifest.fromJsonBytes bytes = .ok manifest ∧ ∃ e ∈ manifest.shares, e.Indexes tag

omit [Age] in
theorem listed_congr {t t' : FileTree} {root : FilePath}
    (h : t'[manifestPath root]? = t[manifestPath root]?) {tag : ShareTag} :
    Listed t' root tag ↔ Listed t root tag := by
  rw [Listed, h, Listed]

/-- The share and the envelope of every listed tag are of one key, as far as
    they can be loaded. -/
def KeysAgree (t : FileTree) (root : FilePath) : Prop :=
  ∀ tag, Listed t root tag → ∀ (env : SysEnv) (tick tick' : Nat)
    (passphrase : Except StoreError Passphrase) (kp : KeyPackage) (envelope : PubkeyEnvelope)
    (group : PublicKeyPackage),
    ((ParticipantStore.loadShare ⟨root, passphrase⟩ tag).run env.world ⟨t, tick⟩).result = .ok kp →
      ((ParticipantStore.loadPublicEnvelope ⟨root, passphrase⟩ tag.keyId tag.epoch).run env.world
          ⟨t, tick'⟩).result = .ok envelope →
        envelope.decodePackage = .ok group → FrostKeys.seatKey kp = FrostKeys.groupKey group

/-- Loads of a listed tag that return different keys. -/
theorem not_keysAgree {t : FileTree} {root : FilePath} {env : SysEnv} {tick : Nat}
    {passphrase : Except StoreError Passphrase} {tag : ShareTag} {manifest : Manifest} {e : ShareEntry}
    {kp : KeyPackage} {envelope : PubkeyEnvelope} {group : PublicKeyPackage}
    (hmanifest : ((ParticipantStore.loadManifest ⟨root, passphrase⟩).run env.world ⟨t, tick⟩).result =
      .ok manifest)
    (he : e ∈ manifest.shares) (hindexes : e.Indexes tag)
    (hshare : ((ParticipantStore.loadShare ⟨root, passphrase⟩ tag).run env.world ⟨t, tick⟩).result =
      .ok kp)
    (henvelope : ((ParticipantStore.loadPublicEnvelope ⟨root, passphrase⟩ tag.keyId tag.epoch).run
      env.world ⟨t, tick⟩).result = .ok envelope)
    (hdecode : envelope.decodePackage = .ok group)
    (hne : FrostKeys.seatKey kp ≠ FrostKeys.groupKey group) : ¬ KeysAgree t root := by
  intro hagree
  have hlisted : Listed t root tag := by
    rcases ParticipantStore.loadManifest_ok hmanifest with rfl | ⟨bytes, hfile, hparse⟩
    · cases he
    · exact ⟨bytes, manifest, hfile, hparse, e, he, hindexes⟩
  exact hne (hagree tag hlisted env tick tick passphrase kp envelope group hshare henvelope hdecode)

/-! ## Calls -/

/-- One call, and the number of system calls after which it stops. -/
structure PutCall extends Put where
  steps : Nat

namespace PutCall

/-- The key that the call writes for. -/
def key (self : PutCall) : VerifyingKey := FrostKeys.groupKey self.group

/-- What the call does until it stops. -/
def trace (self : PutCall) (env : SysEnv) (root : FilePath) (w : Disk × KeyLog) :
    List (Event SysOp SysOp.Resp) :=
  ((self.program root).run (recorded env (noteKey self.key)) w).trace.take self.steps

/-- What the call leaves behind. -/
def perform (env : SysEnv) (root : FilePath) (w : Disk × KeyLog) (self : PutCall) : Disk × KeyLog :=
  Program.replay (recorded env (noteKey self.key)) w (self.trace env root w)

/-- The call stops after it has replaced the envelope of a listed tag, and before
    it has replaced the tag's share, which is of another key. -/
def Tears (self : PutCall) (env : SysEnv) (root : FilePath) (w : Disk × KeyLog) : Prop :=
  (self.trace env root w).filterMap replaced = [publicPath root self.tag.keyId self.tag.epoch] ∧
    Listed w.1.tree root self.tag ∧ lastKey w.2 (sharePath root self.tag) ≠ some self.key

end PutCall

/-! ## What one call can list -/

variable {env : SysEnv} {root : FilePath}

/-- Since `w₀` the call has replaced `done`, and it lists a new tag only once it
    has replaced the manifest. -/
def ListsOnly (self : PutCall) (root : FilePath) (w₀ w : Disk × KeyLog) : Prop :=
  ∃ done : List FilePath, w.2 = w₀.2 ++ done.map (·, self.key) ∧ ∀ tag, Listed w.1.tree root tag →
    Listed w₀.1.tree root tag ∨ (tag = self.tag ∧ manifestPath root ∈ done)

variable {self : PutCall} {w₀ : Disk × KeyLog}

theorem quiet_listsOnly {Final : FilePath → Prop} :
    Quiet env (noteKey self.key) Final (ListsOnly self root w₀) where
  prepares := by
    rintro op w hop ⟨done, hlog, hlisted⟩
    refine ⟨done, (log_of_prepares hop w).trans hlog, fun tag htag => ?_⟩
    rcases hop.act_cases env w.1.tick w.1.tree (manifestPath root) with hsame | htemp | ⟨-, hdir, -⟩
    · exact hlisted tag ((listed_congr hsame).mp htag)
    · exact absurd htemp (not_temp_manifestPath root)
    · obtain ⟨bytes, manifest, hfile, -⟩ := htag
      cases hdir.symm.trans hfile
  failed := by
    rintro src dst w e herror ⟨done, hlog, hlisted⟩
    obtain ⟨hlog', htree⟩ := rename_error herror
    exact ⟨done, hlog'.trans hlog, fun tag htag => hlisted tag (htree ▸ htag)⟩

omit [Json] [Age] in
theorem log_replaceWith {key : VerifyingKey} (tmp f : FilePath) (bytes : Bytes) (w : Disk × KeyLog) :
    (replaceWith (noteKey key) tmp f bytes w).2 = w.2 ++ [(f, key)] := rfl

/-- Another file than the manifest lists nothing. -/
theorem installs_listsOnly {f : FilePath} (hf : f ≠ manifestPath root) (bytes : Bytes) :
    Installs (noteKey self.key) (ListsOnly self root w₀) f bytes := by
  rintro tmp w htmp - ⟨done, hlog, hlisted⟩
  refine ⟨done ++ [f], by simp [log_replaceWith, hlog], fun tag htag => ?_⟩
  have htmp' : tmp ≠ manifestPath root := fun h => not_temp_manifestPath root (h ▸ htmp)
  have hsame : (replaceWith (noteKey self.key) tmp f bytes w).1.tree[manifestPath root]? =
      w.1.tree[manifestPath root]? := by simp [replaceWith, hf, htmp']
  exact (hlisted tag ((listed_congr hsame).mp htag)).imp_right (fun h => ⟨h.1, List.mem_append_left _ h.2⟩)

/-- The manifest lists what it is made of. -/
theorem installs_manifest_listsOnly (hlaws : RoundTrips) {manifest : Manifest} {json : Bytes}
    (hshares : ∀ e ∈ manifest.shares, ∀ tag, e.Indexes tag →
      Listed w₀.1.tree root tag ∨ tag = self.tag)
    (hjson : manifest.toJsonBytes = .ok json) :
    Installs (noteKey self.key) (ListsOnly self root w₀) (manifestPath root) json := by
  rintro tmp w - - ⟨done, hlog, -⟩
  refine ⟨done ++ [manifestPath root], by simp [log_replaceWith, hlog], fun tag htag => ?_⟩
  obtain ⟨bytes, manifest', hfile, hparse, e, he, hindexes⟩ := htag
  rw [replaceWith, BTreeMap.getElem?_insert, if_pos rfl] at hfile
  cases hfile
  rw [fromJsonBytes_eq hlaws hjson hparse] at he
  exact (hshares e he tag hindexes).imp_right (fun h => ⟨h, by simp⟩)

theorem putShare_listsOnly (hlaws : RoundTrips) :
    (self.program root).Keeps (recorded env (noteKey self.key)) (ListsOnly self root w₀)
      (fun _ _ => True) w₀ := by
  have hquiet : Quiet env (noteKey self.key) (fun _ => True) (ListsOnly self root w₀) := quiet_listsOnly
  refine ParticipantStore.putShare_keeps
    (P := fun manifest => ∀ e ∈ manifest.shares, ∀ tag, e.Indexes tag →
      Listed w₀.1.tree root tag ∨ tag = self.tag)
    hquiet ⟨[], by simp, fun tag => Or.inl⟩ trivial trivial trivial ?_ ?_ ?_ ?_
  · exact fun _ json _ _ => installs_listsOnly (publicPath_ne_manifestPath _ _ _ _) json
  · exact fun _ _ _ ciphertext _ _ _ => installs_listsOnly (sharePath_ne_manifestPath _ _ _) ciphertext
  · rintro manifest w ⟨done, -, hlisted⟩ hreads e he tag hindexes
    rcases hreads.finds with rfl | ⟨bytes, hfile, hparse⟩
    · cases he
    · exact (hlisted tag ⟨bytes, manifest, hfile, hparse, e, he, hindexes⟩).imp_right And.left
  · intro manifest now json hP hjson
    refine installs_manifest_listsOnly hlaws (fun e he tag hindexes => ?_) hjson
    rcases mem_insertEntry he with rfl | hold
    · exact Or.inr (hindexes.unique ⟨rfl, rfl, rfl⟩)
    · exact hP e hold tag hindexes

namespace PutCall

/-! ## What one call leaves -/

/-- A call that stops has replaced the first of its three files. -/
theorem trace_prefix (self : PutCall) (env : SysEnv) (root : FilePath) (w : Disk × KeyLog) :
    (self.trace env root w).filterMap replaced <+:
      [publicPath root self.tag.keyId self.tag.epoch, sharePath root self.tag, manifestPath root] := by
  have hemits : (self.program root).Emits replaced _ := ParticipantStore.putShare_emits _ _ _ _ _
  exact ((List.take_prefix _ _).filterMap replaced).trans (hemits.trace _ w).1

theorem perform_log (self : PutCall) (env : SysEnv) (root : FilePath) (w : Disk × KeyLog) :
    (perform env root w self).2 =
      w.2 ++ ((self.trace env root w).filterMap replaced).map (·, self.key) := by
  rw [perform, trace, Program.replay_record_log, List.map_filterMap]
  rfl

theorem perform_listed (hlaws : RoundTrips) {w : Disk × KeyLog} {tag : ShareTag}
    (h : Listed (perform env root w self).1.tree root tag) : Listed w.1.tree root tag ∨
      (tag = self.tag ∧ manifestPath root ∈ (self.trace env root w).filterMap replaced) := by
  have hkeeps : ListsOnly self root w (perform env root w self) :=
    Program.Keeps.interrupt (putShare_listsOnly hlaws) self.steps
  obtain ⟨done, hlog, hlisted⟩ := hkeeps
  have hdone : done = (self.trace env root w).filterMap replaced := by
    rw [perform_log] at hlog
    have hpair : Function.Injective (fun f : FilePath => (f, self.key)) :=
      fun a b hab => congrArg Prod.fst hab
    exact (hpair.list_map (List.append_cancel_left hlog)).symm
  exact hdone ▸ hlisted tag h

end PutCall

/-! ## Runs -/

/-- The root after a sequence of calls, and the record of what they have replaced. -/
def puts (env : SysEnv) (root : FilePath) (t₀ : FileTree) (calls : List PutCall) : Disk × KeyLog :=
  calls.foldl (PutCall.perform env root) (⟨t₀, 0⟩, [])

/-- The tags of a root that is used for one seat. -/
def OneSeat (root : FilePath) (seat : SeatId) (root' : FilePath) (tag : ShareTag) : Prop :=
  root' = root ∧ tag.seat = seat

/-- The record has the share and the envelope of every listed tag under one key. -/
structure Untorn (root : FilePath) (seat : SeatId) (w : Disk × KeyLog) : Prop where
  coherent : Coherent (OneSeat root seat) w
  keys : ∀ tag, Listed w.1.tree root tag →
    lastKey w.2 (sharePath root tag) = lastKey w.2 (publicPath root tag.keyId tag.epoch)

variable {seat : SeatId} {w : Disk × KeyLog}

/-- Only tags of the seat are listed. -/
theorem seat_of_listed (h : Coherent (OneSeat root seat) w) {tag : ShareTag}
    (hlisted : Listed w.1.tree root tag) : tag.seat = seat := by
  obtain ⟨bytes, manifest, hfile, hparse, e, he, hindexes⟩ := hlisted
  have hallowed : OneSeat root seat root ⟨.active, .genesis, seat⟩ := ⟨rfl, rfl⟩
  obtain ⟨tag', ⟨-, hseat⟩, hindexes'⟩ :=
    (h _ bytes hfile).manifest root _ hallowed rfl manifest hparse e he
  rw [hindexes.unique hindexes', hseat]

theorem Untorn.keysAgree (h : Untorn root seat w) : KeysAgree w.1.tree root := by
  intro tag hlisted env tick tick' passphrase kp envelope group hshare henvelope hdecode
  have hallowed : OneSeat root seat (⟨root, passphrase⟩ : ParticipantStore).root tag :=
    ⟨rfl, seat_of_listed h.coherent hlisted⟩
  have hkey := Coherent.loadShare (d := ⟨w.1.tree, tick⟩) h.coherent hallowed hshare
  have hgroup := Coherent.loadPublicEnvelope (d := ⟨w.1.tree, tick'⟩) h.coherent hallowed henvelope hdecode
  exact Option.some.inj (hkey.symm.trans ((h.keys tag hlisted).trans hgroup))

omit [KeyCodec] [Json] [Age] in
/-- On the root of one seat, an envelope belongs to one tag. -/
theorem eq_of_publicPath_eq {tag tag' : ShareTag} (hseat : tag.seat = tag'.seat)
    (h : publicPath root tag.keyId tag.epoch = publicPath root tag'.keyId tag'.epoch) : tag = tag' := by
  obtain ⟨-, hkeyId, hepoch⟩ := publicPath_inj h
  cases tag
  cases tag'
  simp only [ShareTag.mk.injEq]
  exact ⟨hkeyId, hepoch, hseat⟩

/-- A call leaves alone the files of every other tag of the seat. -/
theorem PutCall.lastKey_of_ne {tag : ShareTag} (hseat : tag.seat = self.tag.seat) (hne : tag ≠ self.tag) :
    lastKey (self.perform env root w).2 (sharePath root tag) = lastKey w.2 (sharePath root tag) ∧
      lastKey (self.perform env root w).2 (publicPath root tag.keyId tag.epoch) =
        lastKey w.2 (publicPath root tag.keyId tag.epoch) := by
  have hfiles := (self.trace_prefix env root w).subset
  rw [perform_log]
  constructor
  · apply lastKey_append_of_notMem
    intro hmem
    have hcases := hfiles hmem
    simp only [List.mem_cons, List.not_mem_nil, or_false] at hcases
    rcases hcases with h | h | h
    · exact sharePath_ne_publicPath _ _ _ _ _ h
    · exact hne (sharePath_inj h).2
    · exact sharePath_ne_manifestPath _ _ _ h
  · apply lastKey_append_of_notMem
    intro hmem
    have hcases := hfiles hmem
    simp only [List.mem_cons, List.not_mem_nil, or_false] at hcases
    rcases hcases with h | h | h
    · exact hne (eq_of_publicPath_eq hseat h)
    · exact sharePath_ne_publicPath _ _ _ _ _ h.symm
    · exact publicPath_ne_manifestPath _ _ _ _ h

/-- After a call that does not tear its tag, the files of the tag are of one key
    if it is listed. -/
theorem PutCall.lastKey_self (hlaws : RoundTrips) (h : Untorn root seat w)
    (htears : ¬ self.Tears env root w) (hlisted : Listed (self.perform env root w).1.tree root self.tag) :
    lastKey (self.perform env root w).2 (sharePath root self.tag) =
      lastKey (self.perform env root w).2 (publicPath root self.tag.keyId self.tag.epoch) := by
  have hbefore := perform_listed hlaws hlisted
  have hprefix := self.trace_prefix env root w
  rw [perform_log]
  rw [Tears] at htears
  generalize (self.trace env root w).filterMap replaced = done at hbefore hprefix htears ⊢
  by_cases hshare : sharePath root self.tag ∈ done
  · have hpublic : publicPath root self.tag.keyId self.tag.epoch ∈ done := by
      obtain ⟨rest, hrest⟩ := hprefix
      cases done with
      | nil => cases hshare
      | cons f done =>
          rw [← (List.cons.inj hrest).1]
          exact List.mem_cons_self
    rw [lastKey_append_of_mem _ hshare, lastKey_append_of_mem _ hpublic]
  · -- the call has stopped before its share, and so before the manifest
    have hcases : done = [] ∨ done = [publicPath root self.tag.keyId self.tag.epoch] := by
      obtain ⟨rest, hrest⟩ := hprefix
      rcases done with _ | ⟨f, _ | ⟨g, done⟩⟩
      · exact Or.inl rfl
      · exact Or.inr (congrArg (fun f => [f]) (List.cons.inj hrest).1)
      · have hsecond := (List.cons.inj (List.cons.inj hrest).2).1
        exact absurd (by simp [hsecond]) hshare
    rcases hcases with rfl | rfl
    · have hlisted := hbefore.resolve_right (fun h => by cases h.2)
      simpa using h.keys self.tag hlisted
    · have hlisted := hbefore.resolve_right
        (fun h => publicPath_ne_manifestPath _ _ _ _ (List.mem_singleton.mp h.2).symm)
      have hkey : lastKey w.2 (sharePath root self.tag) = some self.key := by
        by_contra hother
        exact htears ⟨rfl, hlisted, hother⟩
      rw [lastKey_append_of_notMem _ hshare, hkey, lastKey_append_of_mem _ (List.mem_singleton.mpr rfl)]

/-- A call that does not tear its tag keeps the root untorn. -/
theorem Untorn.perform (hlaws : RoundTrips) (h : Untorn root seat w)
    (hseat : self.tag.seat = seat) (hkey : FrostKeys.seatKey self.keyPackage = self.key)
    (htears : ¬ self.Tears env root w) : Untorn root seat (self.perform env root w) := by
  have hallowed : OneSeat root seat (⟨root, self.passphrase⟩ : ParticipantStore).root self.tag :=
    ⟨rfl, hseat⟩
  have hcoherent : Coherent (OneSeat root seat) (self.perform env root w) :=
    Program.Keeps.interrupt (putShare_coherent hlaws hallowed hkey rfl h.coherent) self.steps
  refine ⟨hcoherent, fun tag hlisted => ?_⟩
  by_cases htag : tag = self.tag
  · subst htag
    exact PutCall.lastKey_self hlaws h htears hlisted
  · have hsame : tag.seat = self.tag.seat := (seat_of_listed hcoherent hlisted).trans hseat.symm
    have hbefore := (PutCall.perform_listed hlaws hlisted).resolve_right (fun hself => htag hself.1)
    obtain ⟨hshare, hpublic⟩ := PutCall.lastKey_of_ne hsame htag
    rw [hshare, hpublic]
    exact h.keys tag hbefore

theorem untorn_empty {t₀ : FileTree} (h : EmptyRoot t₀ root) : Untorn root seat (⟨t₀, 0⟩, []) where
  coherent := by
    intro p bytes hp
    have hne : ∀ name rest, p ≠ root ++ name :: rest := by
      rintro name rest rfl
      cases (h name rest).symm.trans hp
    constructor
    · rintro root' tag ⟨rfl, -⟩ hpath
      exact absurd hpath (hne _ _)
    · rintro root' tag ⟨rfl, -⟩ hpath
      exact absurd hpath (hne _ _)
    · rintro root' tag ⟨rfl, -⟩ hpath
      exact absurd hpath (hne _ _)
  keys := by
    rintro tag ⟨bytes, manifest, hfile, -⟩
    cases (h _ _).symm.trans hfile

/-- As long as no call tears its tag, the share and the envelope of every listed
    tag are of one key. -/
theorem puts_keysAgree (hlaws : RoundTrips) {env : SysEnv} {root : FilePath} {seat : SeatId}
    {t₀ : FileTree} (hempty : EmptyRoot t₀ root) {calls : List PutCall}
    (hseat : ∀ call ∈ calls, call.tag.seat = seat)
    (hkey : ∀ call ∈ calls, FrostKeys.seatKey call.keyPackage = call.key)
    (htears : ∀ before call after, calls = before ++ call :: after →
      ¬ call.Tears env root (puts env root t₀ before)) :
    KeysAgree (puts env root t₀ calls).1.tree root := by
  suffices huntorn : Untorn root seat (puts env root t₀ calls) from huntorn.keysAgree
  induction calls using List.reverseRecOn with
  | nil => exact untorn_empty hempty
  | append_singleton calls call ih =>
      have hbefore := ih (fun c hc => hseat c (List.mem_append_left _ hc))
        (fun c hc => hkey c (List.mem_append_left _ hc))
        (fun before c after hcalls => htears before c (after ++ [call]) (by simp [hcalls]))
      rw [puts, List.foldl_append]
      exact hbefore.perform hlaws (hseat call (by simp)) (hkey call (by simp))
        (htears calls call [] rfl)

end Puts

/-! ## Two calls under one tag -/

open Store.Plain

/-- A call for the first seat, with the share of a key. -/
def putKey (key : UInt8) (steps : Nat) : PutCall :=
  ⟨⟨.ok secret, firstTag, ((1, key) : UInt8 × UInt8), key, .active⟩, steps⟩

/-- A share, and another one for its tag by a call that stops after some steps. -/
def twoPuts (steps : Nat) : List PutCall := [putKey 7 100, putKey 8 steps]

/-- What these leave below an empty root. -/
def overwrite (steps : Nat) : Disk × KeyLog := puts SysEnv.calm ["r"] ∅ (twoPuts steps)

/-- Each of them is given the share of its key. -/
theorem belongs_twoPuts (steps : Nat) :
    ∀ call ∈ twoPuts steps, FrostKeys.seatKey call.keyPackage = call.key := by
  intro call hcall
  rcases List.mem_cons.mp hcall with rfl | hcall
  · rfl
  · rw [List.mem_singleton.mp hcall]
    rfl

theorem length_replaced_overwrite :
    (((putKey 7 100).trace SysEnv.calm ["r"] (puts SysEnv.calm ["r"] ∅ [])).filterMap replaced).length = 3 ∧
    (((putKey 8 14).trace SysEnv.calm ["r"] (puts SysEnv.calm ["r"] ∅ [putKey 7 100])).filterMap
      replaced).length = 2 := by
  decide +kernel

/-- A call that gets as far as its share tears nothing. -/
theorem puts_keysAgree_overwrite : KeysAgree (overwrite 14).1.tree ["r"] := by
  have hseat : ∀ call ∈ twoPuts 14, call.tag.seat = firstTag.seat := by simp [twoPuts, putKey]
  have htears : ∀ before call after, twoPuts 14 = before ++ call :: after →
      ¬ call.Tears SysEnv.calm ["r"] (puts SysEnv.calm ["r"] ∅ before) := by
    obtain ⟨hfirst, hsecond⟩ := length_replaced_overwrite
    intro before call after hcalls htears
    have hlength := congrArg List.length htears.1
    rcases before with _ | ⟨first, _ | ⟨second, before⟩⟩
    · rw [← (List.cons.inj hcalls).1, hfirst] at hlength
      cases hlength
    · obtain ⟨hone, hrest⟩ := List.cons.inj hcalls
      rw [← hone, ← (List.cons.inj hrest).1, hsecond] at hlength
      cases hlength
    · obtain ⟨-, hrest⟩ := List.cons.inj hcalls
      have hnil := congrArg List.length (List.cons.inj hrest).2
      simp at hnil
  rw [overwrite]
  exact puts_keysAgree roundTrips (emptyRoot_empty ["r"]) hseat (belongs_twoPuts 14) htears

/-- What is read after a call that stops between its envelope and its share. -/
theorem loads_overwrite :
    let t := (overwrite 6).1.tree
    let self : ParticipantStore := ⟨["r"], .ok secret⟩
    (self.loadManifest.run SysEnv.calm.world ⟨t, 0⟩).result.toOption.any (fun manifest =>
        manifest.shares.any (fun e => decide (e.keyId = "active" ∧ e.epoch = 0 ∧
          e.seat = seatHex firstTag.seat))) = true ∧
      ((self.loadShare firstTag).run SysEnv.calm.world ⟨t, 0⟩).result.toOption =
        some ((1, 7) : UInt8 × UInt8) ∧
      ((self.loadPublicEnvelope .active .genesis).run SysEnv.calm.world ⟨t, 0⟩).result.toOption.bind
        (fun envelope => envelope.decodePackage.toOption) = some (8 : UInt8) := by
  decide +kernel

/-- The second call stops after it has replaced the envelope of a listed tag. -/
theorem interrupted_overwrite_tears :
    (∀ call ∈ twoPuts 6, FrostKeys.seatKey call.keyPackage = call.key) ∧
      ¬ KeysAgree (puts SysEnv.calm ["r"] ∅ (twoPuts 6)).1.tree ["r"] := by
  refine ⟨belongs_twoPuts 6, ?_⟩
  rw [← overwrite]
  obtain ⟨hmanifest, hshare, henvelope⟩ := loads_overwrite
  obtain ⟨manifest, hload, hlists⟩ := (Option.any_eq_true _ _).mp hmanifest
  obtain ⟨e, he, hentry⟩ := List.any_eq_true.mp hlists
  obtain ⟨hkeyId, hepoch, hseat⟩ := of_decide_eq_true hentry
  obtain ⟨envelope, henvelope, hdecode⟩ := Option.bind_eq_some_iff.mp henvelope
  have hindexes : e.Indexes firstTag := ⟨hkeyId, hepoch, hseat⟩
  have hne : (7 : UInt8) ≠ 8 := by decide
  exact not_keysAgree (Except.toOption_eq_some.mp hload) he hindexes
    (Except.toOption_eq_some.mp hshare) (Except.toOption_eq_some.mp henvelope)
    (Except.toOption_eq_some.mp hdecode) hne

end Store
