-- SUMMARY: The roots that puts have built, or copies of them, and what they hold in terms of the puts.
import Cheget.Base.BTreeMap
import Cheget.Store.Index
import Cheget.Store.Writes

/-!
# Roots that were built

A root is built by puts that succeed, whatever happens elsewhere in the meantime,
and by copying one that was built. Its manifest then lists the tags of the puts
in the order in which they were first put, each with its last state, and its
files hold what was put last for them.
-/

namespace Store

open Cli Crypto

section Built

variable [KeyCodec] [Json] [Age]

/-- A root that these puts have built. -/
inductive Built : FilePath → List Put → FileTree → Prop where
  | empty {root : FilePath} {t : FileTree} : EmptyRoot t root → Built root [] t
  | put {root : FilePath} {calls : List Put} {call : Put} {env : SysEnv} {d : Disk} :
      Built root calls d.tree → (∀ tick, env.fault tick ≠ some .notFound) →
        ((call.program root).run env.world d).result = .ok () →
          Built root (calls ++ [call]) ((call.program root).run env.world d).state.tree
  | copy {root root' : FilePath} {calls : List Put} {t t' : FileTree} : Built root calls t →
      (∀ name rest, t'[root' ++ name :: rest]? = t[root ++ name :: rest]?) → Built root' calls t'

/-! ## The puts of a root -/

/-- The tags that were put, in the order of their first puts, with their last
    states. -/
def index (calls : List Put) : List (ShareTag × ShareState) :=
  calls.foldl (fun ix call => Keyed.put Prod.fst (call.tag, call.state) ix) []

/-- The last of the calls that `p` selects. -/
def latest (p : Put → Bool) (calls : List Put) : Option Put := (calls.filter p).getLast?

/-- The first tag whose last state is active. -/
def activeTag (calls : List Put) : Option ShareTag :=
  ((index calls).find? (fun x => x.2 == .active)).map Prod.fst

theorem index_append (calls : List Put) (call : Put) :
    index (calls ++ [call]) = Keyed.put Prod.fst (call.tag, call.state) (index calls) := by
  rw [index, List.foldl_append]
  rfl

theorem latest_append (p : Put → Bool) (calls : List Put) (call : Put) :
    latest p (calls ++ [call]) = if p call = true then some call else latest p calls := by
  unfold latest
  rw [List.filter_append]
  by_cases h : p call = true <;> simp [h]

/-- What is listed was put. -/
theorem latest_of_mem_index {calls : List Put} {x : ShareTag × ShareState} (h : x ∈ index calls) :
    ∃ call, latest (fun call => call.tag = x.1) calls = some call := by
  induction calls using List.reverseRecOn with
  | nil => cases h
  | append_singleton calls call ih =>
      rw [latest_append]
      by_cases htag : call.tag = x.1
      · exact ⟨call, if_pos (decide_eq_true htag)⟩
      · rw [if_neg (by simpa using htag)]
        rw [index_append] at h
        rcases Keyed.mem_put h with rfl | hmem
        · exact absurd rfl htag
        · exact ih hmem

theorem mem_of_latest {p : Put → Bool} {calls : List Put} {call : Put}
    (h : latest p calls = some call) : call ∈ calls ∧ p call = true :=
  List.mem_filter.mp (List.mem_of_getLast? h)

/-! ## What a root holds -/

/-- The entries list the tags of an index. -/
def Mirrors (ix : List (ShareTag × ShareState)) (es : List ShareEntry) : Prop :=
  es.map (fun e => (e.key, e.state)) = ix.map (fun x => (x.1.key, x.2))

structure Holds (root : FilePath) (calls : List Put) (t : FileTree) : Prop where
  manifest : (calls = [] ∧ t[manifestPath root]? = none) ∨
    ∃ bytes m, t[manifestPath root]? = some (.file bytes) ∧
      Manifest.fromJsonBytes bytes = .ok m ∧ Mirrors (index calls) m.shares
  share : ∀ tag call, latest (fun call => call.tag = tag) calls = some call →
    ∃ bytes, t[sharePath root tag]? = some (.file bytes) ∧
      HoldsShare call.passphrase call.keyPackage bytes
  group : ∀ keyId epoch call,
    latest (fun call => call.tag.keyId = keyId ∧ call.tag.epoch = epoch) calls = some call →
      ∃ bytes, t[publicPath root keyId epoch]? = some (.file bytes) ∧ HoldsGroup call.group bytes
  envelope : ∀ keyId epoch bytes, t[publicPath root keyId epoch]? = some (.file bytes) →
    ∃ call, latest (fun call => call.tag.keyId = keyId ∧ call.tag.epoch = epoch) calls = some call

variable {root : FilePath} {calls : List Put} {call : Put} {t : FileTree} {env : SysEnv} {d : Disk}
  {ix : List (ShareTag × ShareState)}

theorem Mirrors.add {m : Manifest} (h : Mirrors ix m.shares) (call : Put) (now : UInt64) :
    Mirrors (Keyed.put Prod.fst (call.tag, call.state) ix) (m.addEntry (call.entry now)).shares := by
  have hshares : (m.addEntry (call.entry now)).shares =
      Keyed.put ShareEntry.key (call.entry now) m.shares := Manifest.insertEntry_eq _ _
  unfold Mirrors at h ⊢
  rw [hshares, Keyed.map_put Prod.fst Function.injective_id (fun _ => rfl), h,
    Keyed.map_put Prod.fst ShareTag.key_injective (fun _ => rfl)]
  rfl

theorem Holds.empty (h : ∀ name rest, ¬ Temp (root ++ name :: rest) → t[root ++ name :: rest]? = none) :
    Holds root [] t where
  manifest := Or.inl ⟨rfl, h _ _ (not_temp_manifestPath root)⟩
  share _ _ hcall := nomatch hcall
  group _ _ _ hcall := nomatch hcall
  envelope _ _ _ hfile := nomatch (h _ _ (not_temp_publicPath root _ _)).symm.trans hfile

theorem Holds.copy {root' : FilePath} {t' : FileTree} (h : Holds root calls t)
    (hcopy : ∀ name rest, ¬ Temp (root ++ name :: rest) →
      t'[root' ++ name :: rest]? = t[root ++ name :: rest]?) :
    Holds root' calls t' where
  manifest := by
    have hsame : t'[manifestPath root']? = t[manifestPath root]? :=
      hcopy _ _ (not_temp_manifestPath root)
    rw [hsame]
    exact h.manifest
  share tag call hcall := by
    have hsame : t'[sharePath root' tag]? = t[sharePath root tag]? :=
      hcopy _ _ (not_temp_sharePath root tag)
    rw [hsame]
    exact h.share tag call hcall
  group keyId epoch call hcall := by
    have hsame : t'[publicPath root' keyId epoch]? = t[publicPath root keyId epoch]? :=
      hcopy _ _ (not_temp_publicPath root keyId epoch)
    rw [hsame]
    exact h.group keyId epoch call hcall
  envelope keyId epoch bytes hfile := by
    have hsame : t'[publicPath root' keyId epoch]? = t[publicPath root keyId epoch]? :=
      hcopy _ _ (not_temp_publicPath root keyId epoch)
    rw [hsame] at hfile
    exact h.envelope keyId epoch bytes hfile

/-- A manifest that the next put may find or leave. -/
def Expects (calls : List Put) (call : Put) (m : Manifest) : Prop :=
  m.Known ∧ (Mirrors (index calls) m.shares ∨ Mirrors (index (calls ++ [call])) m.shares)

theorem Expects.add {m : Manifest} (h : Expects calls call m) (now : UInt64) :
    m.Known ∧ Mirrors (index (calls ++ [call])) (m.addEntry (call.entry now)).shares := by
  refine ⟨h.1, ?_⟩
  rcases h.2 with hold | hnew
  · rw [index_append]
    exact hold.add call now
  · have hagain := hnew.add call now
    rwa [index_append, Keyed.put_put rfl, ← index_append] at hagain

theorem Holds.expects (h : Holds root calls t) (hfault : ∀ tick, env.fault tick ≠ some .notFound)
    {m : Manifest} (hreads : ParticipantStore.Reads env root t m) : Expects calls call m := by
  refine ⟨hreads.finds.known, Or.inl ?_⟩
  rcases h.manifest with ⟨rfl, hnone⟩ | ⟨bytes, m', hfile, hparse, hmirrors⟩
  · rcases hreads with ⟨rfl, -⟩ | ⟨bytes, hfile, -⟩
    · rfl
    · cases hnone.symm.trans hfile
  · rcases hreads with ⟨-, ⟨tick, htick⟩ | hnone⟩ | ⟨bytes', hfile', hparse'⟩
    · exact absurd htick (hfault tick)
    · cases hnone.symm.trans hfile
    · cases hfile.symm.trans hfile'
      cases hparse.symm.trans hparse'
      exact hmirrors

/-- Where nothing was put, no manifest is found, whatever fails. -/
theorem Holds.expects_first (h : Holds root [] t) {m : Manifest}
    (hreads : ParticipantStore.Reads env root t m) : Expects [] call m := by
  refine ⟨hreads.finds.known, Or.inl ?_⟩
  rcases hreads with ⟨rfl, -⟩ | ⟨bytes, hfile, hparse⟩
  · rfl
  · rcases h.manifest with ⟨-, hnone⟩ | ⟨bytes', m', hfile', hparse', hmirrors⟩
    · cases hnone.symm.trans hfile
    · cases hfile.symm.trans hfile'
      cases hparse.symm.trans hparse'
      exact hmirrors

/-- A put adds its share, its group and its entry to what the root holds. -/
theorem Holds.put (hlaws : RoundTrips) (h : Holds root calls d.tree)
    (hexpects : ∀ m, ParticipantStore.Reads env root d.tree m → Expects calls call m)
    (hok : ((call.program root).run env.world d).result = .ok ()) :
    Holds root (calls ++ [call]) ((call.program root).run env.world d).state.tree := by
  have hwrote := wrote_ok (call.keeps_wrote (P := Expects calls call) hlaws (fun m hm => hm.1)
    hexpects (fun m now hm => ⟨(hm.add now).1, Or.inr (hm.add now).2⟩))
    call.emits_files hok
  generalize ((call.program root).run env.world d).state = d' at hwrote
  have hother : ∀ keyId epoch, ¬ (call.tag.keyId = keyId ∧ call.tag.epoch = epoch) →
      publicPath root keyId epoch ∉ call.files root := by
    intro keyId epoch hgroup hmem
    simp only [Put.files, List.mem_cons, List.not_mem_nil, or_false] at hmem
    rcases hmem with hpath | hpath | hpath
    · obtain ⟨-, hkey, hepoch⟩ := publicPath_inj hpath
      exact hgroup ⟨hkey.symm, hepoch.symm⟩
    · exact sharePath_ne_publicPath _ _ _ _ _ hpath.symm
    · exact publicPath_ne_manifestPath _ _ _ _ hpath
  constructor
  · obtain ⟨bytes, hfile, hwrites⟩ := hwrote.written (manifestPath root) (by simp [Put.files])
    obtain ⟨m, now, hm, hparse⟩ := hwrites.manifest rfl
    exact Or.inr ⟨bytes, _, hfile, hparse, (hm.add now).2⟩
  · intro tag last hlast
    rw [latest_append] at hlast
    by_cases htag : call.tag = tag
    · rw [if_pos (decide_eq_true htag)] at hlast
      cases hlast
      subst htag
      obtain ⟨bytes, hfile, hwrites⟩ := hwrote.written (sharePath root call.tag) (by simp [Put.files])
      exact ⟨bytes, hfile, hwrites.share rfl⟩
    · rw [if_neg (by simpa using htag)] at hlast
      obtain ⟨bytes, hfile, hholds⟩ := h.share tag last hlast
      refine ⟨bytes, (hwrote.file_iff (fun hmem => ?_) (not_temp_sharePath _ _)).mpr hfile, hholds⟩
      simp only [Put.files, List.mem_cons, List.not_mem_nil, or_false] at hmem
      rcases hmem with hpath | hpath | hpath
      · exact sharePath_ne_publicPath _ _ _ _ _ hpath
      · exact htag (sharePath_inj hpath).2.symm
      · exact sharePath_ne_manifestPath _ _ _ hpath
  · intro keyId epoch last hlast
    rw [latest_append] at hlast
    by_cases hgroup : call.tag.keyId = keyId ∧ call.tag.epoch = epoch
    · rw [if_pos (decide_eq_true hgroup)] at hlast
      cases hlast
      obtain ⟨rfl, rfl⟩ := hgroup
      obtain ⟨bytes, hfile, hwrites⟩ :=
        hwrote.written (publicPath root call.tag.keyId call.tag.epoch) (by simp [Put.files])
      exact ⟨bytes, hfile, hwrites.envelope rfl⟩
    · rw [if_neg (by simpa using hgroup)] at hlast
      obtain ⟨bytes, hfile, hholds⟩ := h.group keyId epoch last hlast
      exact ⟨bytes, (hwrote.file_iff (hother keyId epoch hgroup) (not_temp_publicPath _ _ _)).mpr hfile,
        hholds⟩
  · intro keyId epoch bytes hfile
    rw [latest_append]
    by_cases hgroup : call.tag.keyId = keyId ∧ call.tag.epoch = epoch
    · exact ⟨call, if_pos (decide_eq_true hgroup)⟩
    · rw [if_neg (by simpa using hgroup)]
      exact h.envelope keyId epoch bytes
        ((hwrote.file_iff (hother keyId epoch hgroup) (not_temp_publicPath _ _ _)).mp hfile)

/-- What a root holds after it was built. -/
theorem Built.holds (hlaws : RoundTrips) (h : Built root calls t) : Holds root calls t := by
  induction h with
  | empty hempty => exact .empty (fun name rest _ => hempty name rest)
  | put _ hfault hok ih => exact ih.put hlaws (fun m hm => ih.expects hfault hm) hok
  | copy _ hcopy ih => exact ih.copy (fun name rest _ => hcopy name rest)

/-! ## What is loaded from a root -/

variable {es : List ShareEntry} {passphrase : Except StoreError Passphrase} {tick : Nat}

omit [KeyCodec] [Json] [Age] in
/-- The first active entry is that of the first active tag. -/
theorem Mirrors.find? (h : Mirrors ix es) :
    (es.find? (fun e => e.state == .active)).map (fun e => (e.key, e.state)) =
      (ix.find? (fun x => x.2 == .active)).map (fun x => (x.1.key, x.2)) := by
  have hes : (es.map (fun e => (e.key, e.state))).find? (fun x => x.2 == .active) =
      (es.find? (fun e => e.state == .active)).map (fun e => (e.key, e.state)) := List.find?_map
  have hix : (ix.map (fun x => (x.1.key, x.2))).find? (fun x => x.2 == .active) =
      (ix.find? (fun x => x.2 == .active)).map (fun x => (x.1.key, x.2)) := List.find?_map
  rw [← hes, ← hix, h]

omit [KeyCodec] [Json] [Age] in
theorem Mirrors.filter (h : Mirrors ix es) :
    (es.filter (fun e => e.state == .active)).map (fun e => (e.key, e.state)) =
      (ix.filter (fun x => x.2 == .active)).map (fun x => (x.1.key, x.2)) := by
  have hes : (es.map (fun e => (e.key, e.state))).filter (fun x => x.2 == .active) =
      (es.filter (fun e => e.state == .active)).map (fun e => (e.key, e.state)) := List.filter_map
  have hix : (ix.map (fun x => (x.1.key, x.2))).filter (fun x => x.2 == .active) =
      (ix.filter (fun x => x.2 == .active)).map (fun x => (x.1.key, x.2)) := List.filter_map
  rw [← hes, ← hix, h]

theorem mem_index_of_activeTag {tag : ShareTag} (h : activeTag calls = some tag) :
    (tag, ShareState.active) ∈ index calls := by
  obtain ⟨⟨tag', state⟩, hfind, rfl⟩ := Option.map_eq_some_iff.mp h
  have hstate : state = .active := by simpa using List.find?_some hfind
  subst hstate
  exact List.mem_of_find?_eq_some hfind

/-- A share that is loaded was put last under its tag. -/
theorem Holds.loadShare (hlaws : RoundTrips) (h : Holds root calls t) {tag : ShareTag}
    {kp : KeyPackage} {last : Put} (hlast : latest (fun call => call.tag = tag) calls = some last)
    (hload : ((ParticipantStore.loadShare ⟨root, passphrase⟩ tag).run env.world ⟨t, tick⟩).result =
      .ok kp) : kp = last.keyPackage := by
  obtain ⟨secret, ciphertext, plaintext, -, hfile, hdecrypt, hdeserialize⟩ :=
    ParticipantStore.loadShare_ok hload
  obtain ⟨bytes, hfile', plaintext', hplaintext', secret', entropy, -, hencrypt⟩ :=
    h.share tag last hlast
  cases hfile.symm.trans hfile'
  obtain rfl := hlaws.decrypt _ _ _ _ _ _ _ (Except.mapError_eq_ok.mp hencrypt)
    (Except.mapError_eq_ok.mp hdecrypt)
  rw [hlaws.keyPackage _ _ hplaintext'] at hdeserialize
  exact (Except.ok.inj hdeserialize).symm

/-- A group that is loaded was put last under its label and epoch. -/
theorem Holds.loadPublicEnvelope (h : Holds root calls t) {keyId : KeyId} {epoch : Epoch}
    {envelope : PubkeyEnvelope} {group : PublicKeyPackage}
    (hload : ((ParticipantStore.loadPublicEnvelope ⟨root, passphrase⟩ keyId epoch).run env.world
      ⟨t, tick⟩).result = .ok envelope) (hdecode : envelope.decodePackage = .ok group) :
    ∃ last, latest (fun call => call.tag.keyId = keyId ∧ call.tag.epoch = epoch) calls = some last ∧
      last.group = group := by
  obtain ⟨json, hfile, hparse⟩ := ParticipantStore.loadPublicEnvelope_ok hload
  obtain ⟨last, hlast⟩ := h.envelope keyId epoch json hfile
  obtain ⟨json', hfile', envelope', hparse', hdecode'⟩ := h.group keyId epoch last hlast
  cases hfile.symm.trans hfile'
  cases hparse.symm.trans hparse'
  exact ⟨last, hlast, Except.ok.inj (hdecode'.symm.trans hdecode)⟩

/-- The active share of a root is what was put last under its first active tag. -/
theorem Holds.loadOnlyActive (hlaws : RoundTrips) (h : Holds root calls t) {seat : SeatId}
    {kp : KeyPackage}
    (hload : ((ParticipantStore.loadOnlyActive ⟨root, passphrase⟩).run env.world ⟨t, tick⟩).result =
      .ok (seat, kp)) :
    ∃ tag last, activeTag calls = some tag ∧ tag.seat = seat ∧
      latest (fun call => call.tag = tag) calls = some last ∧ last.keyPackage = kp := by
  obtain ⟨m, entry, keyId, hfinds, hentry, hkeyId, hseat, tick', hshare⟩ :=
    ParticipantStore.loadOnlyActive_ok hload
  have hmirrors : Mirrors (index calls) m.shares := by
    rcases hfinds with rfl | ⟨bytes, hfile, hparse⟩
    · cases hentry
    · rcases h.manifest with ⟨-, hnone⟩ | ⟨bytes', m', hfile', hparse', hmirrors⟩
      · cases hnone.symm.trans hfile
      · cases hfile.symm.trans hfile'
        cases hparse.symm.trans hparse'
        exact hmirrors
  have hfind := hmirrors.find?
  rw [hentry, Option.map_some] at hfind
  obtain ⟨⟨tag, state⟩, hactive, hkey⟩ := Option.map_eq_some_iff.mp hfind.symm
  obtain ⟨hlabel, hrest⟩ := Prod.mk.inj (Prod.mk.inj hkey).1
  obtain ⟨hepoch, hspelling⟩ := Prod.mk.inj hrest
  have htag : activeTag calls = some tag := by rw [activeTag, hactive, Option.map_some]
  have hseat' : seat = tag.seat := by
    rw [← hspelling, seatFromHex_seatHex] at hseat
    exact (Except.ok.inj hseat).symm
  subst hseat'
  have hsame : (⟨keyId, ⟨entry.epoch⟩, tag.seat⟩ : ShareTag) = tag := by
    rw [KeyId.label_injective (hkeyId.symm.trans hlabel.symm), ← hepoch]
  rw [hsame] at hshare
  obtain ⟨last, hlast⟩ := latest_of_mem_index (mem_index_of_activeTag htag)
  exact ⟨tag, last, htag, rfl, hlast, (h.loadShare hlaws hlast hshare).symm⟩

/-- The entry of a tag is the only active one in the manifest of a root. -/
def OnlyActive (t : FileTree) (root : FilePath) (tag : ShareTag) : Prop :=
  ∃ bytes m e, t[manifestPath root]? = some (.file bytes) ∧ Manifest.fromJsonBytes bytes = .ok m ∧
    m.shares.filter (fun e => e.state == .active) = [e] ∧ e.key = tag.key

theorem Holds.onlyActive_iff (h : Holds root calls t) {tag : ShareTag} :
    OnlyActive t root tag ↔ (index calls).filter (fun x => x.2 == .active) = [(tag, .active)] := by
  rcases h.manifest with ⟨rfl, hnone⟩ | ⟨bytes, m, hfile, hparse, hmirrors⟩
  · constructor
    · rintro ⟨bytes, m, e, hfile, -⟩
      cases hnone.symm.trans hfile
    · exact fun hfilter => nomatch hfilter
  · have hfilter := hmirrors.filter
    constructor
    · rintro ⟨bytes', m', e, hfile', hparse', hactive, hkey⟩
      cases hfile.symm.trans hfile'
      cases hparse.symm.trans hparse'
      rw [hactive] at hfilter
      obtain ⟨⟨tag', state⟩, hsingle, heq⟩ := List.map_eq_singleton_iff.mp hfilter.symm
      have hkey' : tag'.key = tag.key := (Prod.mk.inj heq).1.trans hkey
      have hmem : (tag', state) ∈ (index calls).filter (fun x => x.2 == .active) := by simp [hsingle]
      have hstate : state = .active := by simpa using (List.mem_filter.mp hmem).2
      rw [hsingle, ShareTag.key_injective hkey', hstate]
    · intro hindex
      rw [hindex] at hfilter
      obtain ⟨e, hactive, heq⟩ := List.map_eq_singleton_iff.mp hfilter
      exact ⟨bytes, m, e, hfile, hparse, hactive, (Prod.mk.inj heq).1⟩

/-! ## Loads that succeed -/

variable (hcalm : ∀ tick, env.fault tick = none)

include hcalm

theorem Holds.run_loadManifest (h : Holds root calls t) (hne : calls ≠ [])
    (passphrase : Except StoreError Passphrase) (tick : Nat) :
    ∃ m, Mirrors (index calls) m.shares ∧
      ((ParticipantStore.loadManifest ⟨root, passphrase⟩).run env.world ⟨t, tick⟩).result = .ok m := by
  rcases h.manifest with ⟨hnil, -⟩ | ⟨bytes, m, hfile, hparse, hmirrors⟩
  · exact absurd hnil hne
  · refine ⟨m, hmirrors, ?_⟩
    have hread : (env.act tick t (.read (manifestPath root))).1 = .ok bytes := by
      rw [SysEnv.act_read (hcalm tick)]
      exact FileTree.read_eq_ok.mpr hfile
    simp only [ParticipantStore.loadManifest, sys, Program.perform, Program.exec_bind, Program.run_exec,
      Program.done_bind, SysEnv.world, hread]
    rw [Program.run_ofExcept]
    exact hparse

theorem Holds.run_loadShare (hlaws : RoundTrips) (hdecrypts : Decrypts) (h : Holds root calls t)
    {tag : ShareTag} {last : Put} {secret : Passphrase}
    (hlast : latest (fun call => call.tag = tag) calls = some last)
    (hpass : last.passphrase = .ok secret) (tick : Nat) :
    ((ParticipantStore.loadShare ⟨root, .ok secret⟩ tag).run env.world ⟨t, tick⟩).result =
      .ok last.keyPackage := by
  obtain ⟨bytes, hfile, plaintext, hplaintext, secret', entropy, hsecret, hencrypt⟩ :=
    h.share tag last hlast
  cases hpass.symm.trans hsecret
  have hread : t.read (sharePath root tag) = .ok bytes := FileTree.read_eq_ok.mpr hfile
  rw [ParticipantStore.run_loadShare, SysEnv.act_read (hcalm tick), hread, ParticipantStore.openShare]
  simp only [Except.mapError_ok, Except.ok_bind]
  rw [hdecrypts.decryptSecret hencrypt, Except.ok_bind, hlaws.keyPackage _ _ hplaintext]
  rfl

/-- The active share of a root loads. -/
theorem Holds.run_loadOnlyActive (hlaws : RoundTrips) (hdecrypts : Decrypts) (h : Holds root calls t)
    {tag : ShareTag} {last : Put} {secret : Passphrase} (htag : activeTag calls = some tag)
    (hlast : latest (fun call => call.tag = tag) calls = some last)
    (hpass : last.passphrase = .ok secret) (tick : Nat) :
    ((ParticipantStore.loadOnlyActive ⟨root, .ok secret⟩).run env.world ⟨t, tick⟩).result =
      .ok (tag.seat, last.keyPackage) := by
  have hne : calls ≠ [] := by
    rintro rfl
    cases htag
  obtain ⟨m, hmirrors, hmanifest⟩ :=
    h.run_loadManifest hcalm hne (.ok secret) tick
  have hquiet : (ParticipantStore.loadManifest ⟨root, .ok secret⟩).Uses ReadOnly :=
    ParticipantStore.loadManifest_readOnly
  have htree := readOnly_tree hquiet env ⟨t, tick⟩
  have hfind := hmirrors.find?
  obtain ⟨⟨tag', state⟩, hactive, rfl⟩ := Option.map_eq_some_iff.mp htag
  rw [hactive, Option.map_some] at hfind
  obtain ⟨entry, hentry, hkey⟩ := Option.map_eq_some_iff.mp hfind
  obtain ⟨hlabel, hrest⟩ := Prod.mk.inj (Prod.mk.inj hkey).1
  obtain ⟨hepoch, hspelling⟩ := Prod.mk.inj hrest
  unfold ParticipantStore.loadOnlyActive
  rw [Program.run_bind_ok hmanifest]
  generalize (Program.run env.world _ _).state = d' at htree ⊢
  obtain ⟨t', tick'⟩ := d'
  obtain rfl : t' = t := htree
  have hkeyId : KeyId.new entry.keyId = .ok tag'.keyId := KeyId.new_eq_ok.mpr hlabel
  have hseat : seatFromHex entry.seat = .ok tag'.seat := by rw [hspelling, seatFromHex_seatHex]
  have hsame : (⟨tag'.keyId, ⟨entry.epoch⟩, tag'.seat⟩ : ShareTag) = tag' := by rw [hepoch]
  simp only [hentry, Option.okOr_some, Except.mapError_ok, Program.ofExcept_ok, Program.done_bind, hkeyId,
    hseat, hsame]
  rw [Program.run_bind_ok (h.run_loadShare hcalm hlaws hdecrypts hlast hpass tick')]
  rfl

/-- The group that was put last loads. -/
theorem Holds.run_loadPublicEnvelope (h : Holds root calls t) {keyId : KeyId} {epoch : Epoch}
    {last : Put}
    (hlast : latest (fun call => call.tag.keyId = keyId ∧ call.tag.epoch = epoch) calls = some last)
    (passphrase : Except StoreError Passphrase) :
    ∃ envelope, envelope.decodePackage = .ok last.group ∧ ∀ tick,
      ((ParticipantStore.loadPublicEnvelope ⟨root, passphrase⟩ keyId epoch).run env.world
        ⟨t, tick⟩).result = .ok envelope := by
  obtain ⟨bytes, hfile, envelope, hparse, hdecode⟩ := h.group keyId epoch last hlast
  refine ⟨envelope, hdecode, fun tick => ?_⟩
  have hread : t.read (publicPath root keyId epoch) = .ok bytes := FileTree.read_eq_ok.mpr hfile
  rw [ParticipantStore.run_loadPublicEnvelope, SysEnv.act_read (hcalm tick), hread, Except.mapError_ok,
    Except.ok_bind, hparse, Except.mapError_ok]

end Built

end Store
