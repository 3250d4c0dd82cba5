-- SUMMARY: Which stored shares outlive a loss of power: those below directories that were durable before the call.
import Cheget.Store.Flushed
import Cheget.Store.Listing
import Cheget.Store.Plain

/-!
# Durable shares

A write syncs the directory that holds the file, and no directory above it. So a
share outlives a loss of power where the directories above it were durable when
its call began; the directories that the call itself creates may be lost, and the
share with them, while the manifest that lists it stays.
-/

namespace Store

open Cli Crypto Sequence

/-! ## Paths -/

/-- The file of the share that an entry lists. -/
def ShareEntry.path (root : FilePath) (e : ShareEntry) : FilePath :=
  root ++ ["shares", e.keyId, "epoch-" ++ toString e.epoch.toNat, "seat-" ++ e.seat ++ ".age"]

theorem ShareEntry.Indexes.path_eq {e : ShareEntry} {tag : ShareTag} (h : e.Indexes tag)
    (root : FilePath) : e.path root = sharePath root tag := by
  obtain ⟨hkey, hepoch, hseat⟩ := h
  rw [ShareEntry.path, sharePath, hkey, hepoch, hseat]

theorem exists_path_eq (root : FilePath) (tag : ShareTag) : ∃ e : ShareEntry, e.path root = sharePath root tag :=
  ⟨.new tag.keyId tag.epoch tag.seat .active 0, rfl⟩

theorem ShareEntry.not_temp_path (root : FilePath) (e : ShareEntry) : ¬ Temp (e.path root) := by
  have hconcat : e.path root = (root ++ ["shares", e.keyId, "epoch-" ++ toString e.epoch.toNat]) ++
      ["seat-" ++ e.seat ++ ".age"] := by
    simp [ShareEntry.path]
  rw [hconcat]
  exact not_temp_concat (by simp [String.toList_append])

/-- The path is no directory above a share. -/
def Apart (root p : FilePath) : Prop := ∀ e : ShareEntry, p ∉ FileTree.ancestors (e.path root).dropLast

theorem dropLast_path (root : FilePath) (e : ShareEntry) :
    (e.path root).dropLast = root ++ ["shares", e.keyId, "epoch-" ++ toString e.epoch.toNat] := by
  simp [ShareEntry.path, List.dropLast_append_of_ne_nil]

theorem dropLast_sharePath (root : FilePath) (tag : ShareTag) : (sharePath root tag).dropLast =
    root ++ ["shares", tag.keyId.label, "epoch-" ++ toString tag.epoch.number.toNat] := by
  rw [sharePath_eq_concat, List.dropLast_concat]

theorem apart_append {root : FilePath} {name : String} {names : List String}
    (h : name ≠ "shares" ∨ 3 ≤ names.length) : Apart root (root ++ name :: names) := by
  intro e hmem
  obtain ⟨-, hpre⟩ := FileTree.mem_ancestors.mp hmem
  rw [dropLast_path, List.prefix_append_right_inj, List.cons_prefix_cons] at hpre
  obtain ⟨hname, hrest⟩ := hpre
  rcases h with h | h
  · exact h hname
  · have hlength := hrest.length_le
    simp only [List.length_cons, List.length_nil] at hlength
    omega

/-- The path is neither a share nor the manifest. -/
def Aside (root p : FilePath) : Prop := p ≠ manifestPath root ∧ ∀ e : ShareEntry, p ≠ e.path root

theorem aside_ancestors {root p : FilePath} {names : List String} (hlength : names.length ≤ 3)
    (hhead : names.head? ≠ some "manifest.json") (hp : p ∈ FileTree.ancestors (root ++ names)) :
    Aside root p := by
  obtain ⟨-, hpre⟩ := FileTree.mem_ancestors.mp hp
  constructor
  · rintro rfl
    rw [manifestPath, List.prefix_append_right_inj] at hpre
    cases names with
    | nil => exact List.cons_ne_nil _ _ (List.prefix_nil.mp hpre)
    | cons name names => exact hhead (congrArg some (List.cons_prefix_cons.mp hpre).1.symm)
  · rintro e rfl
    have hle := hpre.length_le
    simp only [ShareEntry.path, List.length_append, List.length_cons, List.length_nil] at hle
    omega

/-! ## What is on the medium -/

/-- No loss of power takes the entry away. -/
def Present (m : Medium) (p : FilePath) : Prop := m.Founded p ∧ ¬ m.MayHold p none

/-- The shares that the manifest lists are there, and it lists those of the tags. -/
def Accounts (m : Medium) (root : FilePath) (tags : List ShareTag) (manifest : Manifest) : Prop :=
  (∀ e ∈ manifest.shares, Present m (e.path root)) ∧ ∀ tag ∈ tags, ∃ e ∈ manifest.shares, e.Indexes tag

variable {m m' : Medium} {root p q tmp finalPath : FilePath} {bytes : Bytes} {v : Option Entry}
  {tags : List ShareTag} {manifest : Manifest}

/-- A share that is written below durable directories is there to stay. -/
theorem Sealed.present (h : Sealed m p bytes) (hp : m.Founded p) : Present m p := by
  obtain ⟨⟨n, hentry, -⟩, hformer⟩ := h
  refine ⟨hp, fun hnone => ?_⟩
  cases (hnone.eq_entry hformer).trans hentry

/-! ### After a change -/

theorem founded_change (hp : m.Founded p) (h : Change m m' tmp finalPath bytes)
    (htmp : tmp ∉ FileTree.ancestors p.dropLast) (hfinal : finalPath ∉ FileTree.ancestors p.dropLast) :
    m'.Founded p := by
  apply hp.steady
  intro q hq
  exact h.elsewhere q (fun heq => htmp (heq ▸ hq)) (fun heq => hfinal (heq ▸ hq))

theorem Present.change {e : ShareEntry} (hp : Present m (e.path root))
    (h : Change m m' tmp finalPath bytes) (htemp : Temp tmp) (htmp : Apart root tmp)
    (hfinal : Apart root finalPath) : Present m' (e.path root) := by
  refine ⟨founded_change hp.1 h (htmp e) (hfinal e), fun hnone => ?_⟩
  have hne : e.path root ≠ tmp := fun heq => ShareEntry.not_temp_path root e (heq ▸ htemp)
  rcases h.mayHold_cases hne hnone with hnone | ⟨-, n, hn, -⟩
  · exact hp.2 hnone
  · cases hn

theorem Accounts.change (hm : Accounts m root tags manifest) (h : Change m m' tmp finalPath bytes)
    (htemp : Temp tmp) (htmp : Apart root tmp) (hfinal : Apart root finalPath) :
    Accounts m' root tags manifest :=
  ⟨fun e he => (hm.1 e he).change h htemp htmp hfinal, hm.2⟩

/-! ### After the creation of a directory -/

theorem Present.link (hp : Present m p) (hnone : m.entry q = none) (hne : p ≠ q) :
    Present (m.link q (some .dir)) p :=
  ⟨hp.1.link hnone, fun h => hp.2 ((Medium.mayHold_link_of_ne hne).mp h)⟩

theorem Accounts.link (hm : Accounts m root tags manifest) (hnone : m.entry q = none)
    (haside : Aside root q) : Accounts (m.link q (some .dir)) root tags manifest :=
  ⟨fun e he => (hm.1 e he).link hnone (haside.2 e).symm, hm.2⟩

/-! ### After a loss of power -/

section PowerLoss

variable {kept : FilePath → Option Entry} (hkept : ∀ p, m.MayHold p (kept p)) (found : Nat → Bytes)

include hkept

theorem Present.recover (hp : Present m p) : Present (m.recover kept found) p :=
  ⟨hp.1.recover hkept found, fun h => hp.2 (hp.1.mayHold_recover hkept found h)⟩

theorem Accounts.recover (hm : Accounts m root tags manifest) :
    Accounts (m.recover kept found) root tags manifest :=
  ⟨fun e he => (hm.1 e he).recover hkept found, hm.2⟩

end PowerLoss

/-! ### Whatever the store does -/

/-- What neither a writer of the store nor the creation of its directories ends. -/
structure Lasting (root : FilePath) (P : Medium → Prop) : Prop where
  change : ∀ m m' tmp finalPath bytes, P m → Change m m' tmp finalPath bytes → Temp tmp →
    Apart root tmp → Apart root finalPath → P m'
  link : ∀ m q, P m → m.entry q = none → Aside root q → P (m.link q (some .dir))

theorem lasting_founded (root : FilePath) (tag : ShareTag) :
    Lasting root (fun m => m.Founded (sharePath root tag)) where
  change m m' tmp finalPath bytes hp h _ htmp hfinal := by
    obtain ⟨e, he⟩ := exists_path_eq root tag
    rw [← he] at hp ⊢
    exact founded_change hp h (htmp e) (hfinal e)
  link m q hp hnone _ := hp.link hnone

theorem lasting_accounts (root : FilePath) (tags : List ShareTag) (manifest : Manifest) :
    Lasting root (fun m => Accounts m root tags manifest) where
  change _ _ _ _ _ hm h htemp htmp hfinal := hm.change h htemp htmp hfinal
  link _ _ hm hnone haside := hm.link hnone haside

section Calls

variable [KeyCodec] [Json] [Age]

/-! ## The invariant -/

/-- A store whose root is durable. There may be shares in it, and a manifest that
    lists some of them, all durable. -/
structure Ready (root : FilePath) (m : Medium) : Prop where
  numbered : Numbered m
  founded : m.Founded (manifestPath root)
  shares : ∀ e : ShareEntry, m.former (e.path root) = [] ∧
    ∀ v, m.entry (e.path root) = some v → ∃ n, v = .file n ∧ m.clean n = true
  manifest : m.former (manifestPath root) = [] ∧
    ∀ v, m.entry (manifestPath root) = some v → ∃ n manifest, v = .file n ∧ m.clean n = true ∧
      Manifest.fromJsonBytes (m.content n) = .ok manifest ∧ Accounts m root [] manifest

/-- The whole of a share: what the path held at the start, or what a call has
    encrypted for it. -/
def Genuine (m₀ : Medium) (root : FilePath) (begun : List Put) (p : FilePath) (bytes : Bytes) : Prop :=
  m₀.read p = .ok bytes ∨ ∃ k ∈ begun, sharePath root k.tag = p ∧ k.Sealed bytes

/-- Every share is whole or absent, and every manifest that a loss of power may
    leave accounts for the calls that have returned. -/
structure Durable (m₀ : Medium) (root : FilePath) (begun returned : List Put) (m : Medium) : Prop where
  numbered : Numbered m
  founded : m.Founded (manifestPath root)
  shares : ∀ (e : ShareEntry) v, m.MayHold (e.path root) v → v = none ∨
    ∃ n bytes, v = some (.file n) ∧ Complete m n bytes ∧ Genuine m₀ root begun (e.path root) bytes
  manifest : ∀ v, m.MayHold (manifestPath root) v → v = none ∧ returned = [] ∨
    ∃ n bytes manifest, v = some (.file n) ∧ Complete m n bytes ∧
      Manifest.fromJsonBytes bytes = .ok manifest ∧ Accounts m root (returned.map Put.tag) manifest

variable {m₀ : Medium} {begun returned : List Put} {k : Put}

theorem Ready.durable (h : Ready root m) : Durable m root [] [] m where
  numbered := h.numbered
  founded := h.founded
  shares e v hv := by
    obtain ⟨hformer, hfile⟩ := h.shares e
    have hentry := hv.eq_entry hformer
    cases v with
    | none => exact Or.inl rfl
    | some v =>
        obtain ⟨n, rfl, hclean⟩ := hfile v hentry.symm
        exact Or.inr ⟨n, m.content n, rfl, ⟨rfl, hclean⟩, Or.inl (Medium.read_of_entry hentry.symm)⟩
  manifest v hv := by
    obtain ⟨hformer, hfile⟩ := h.manifest
    have hentry := hv.eq_entry hformer
    cases v with
    | none => exact Or.inl ⟨rfl, rfl⟩
    | some v =>
        obtain ⟨n, manifest, rfl, hclean, hparse, haccounts⟩ := hfile v hentry.symm
        exact Or.inr ⟨n, m.content n, manifest, rfl, ⟨rfl, hclean⟩, hparse, haccounts⟩

theorem Durable.begins (h : Durable m₀ root begun returned m) (k : Put) :
    Durable m₀ root (k :: begun) returned m where
  numbered := h.numbered
  founded := h.founded
  shares e v hv := by
    refine (h.shares e v hv).imp_right ?_
    rintro ⟨n, bytes, hn, hcomplete, hgenuine⟩
    refine ⟨n, bytes, hn, hcomplete, hgenuine.imp_right ?_⟩
    exact fun ⟨j, hj, hsealed⟩ => ⟨j, List.mem_cons_of_mem k hj, hsealed⟩
  manifest := h.manifest

/-- A writer keeps the invariant that moves whole shares into place, and manifests
    that account for them. -/
theorem Durable.change (h : Durable m₀ root begun returned m) (hchange : Change m m' tmp finalPath bytes)
    (htemp : Temp tmp) (htmp : Apart root tmp) (hfinal : Apart root finalPath)
    (hshare : ∀ e : ShareEntry, e.path root = finalPath → Genuine m₀ root begun finalPath bytes)
    (hmanifest : finalPath = manifestPath root → ∃ manifest, Manifest.fromJsonBytes bytes = .ok manifest ∧
      Accounts m root (returned.map Put.tag) manifest) : Durable m₀ root begun returned m' where
  numbered := h.numbered.change hchange
  founded := by
    have hsub : ∀ q ∈ FileTree.ancestors (manifestPath root).dropLast, ∀ e : ShareEntry,
        q ∈ FileTree.ancestors (e.path root).dropLast := by
      intro q hq e
      obtain ⟨hne, hpre⟩ := FileTree.mem_ancestors.mp hq
      rw [manifestPath, List.dropLast_concat] at hpre
      rw [dropLast_path]
      exact FileTree.mem_ancestors.mpr ⟨hne, hpre.trans (List.prefix_append _ _)⟩
    have e : ShareEntry := ⟨"", 0, "", .active, 0⟩
    exact founded_change h.founded hchange (fun hq => htmp e (hsub _ hq e)) (fun hq => hfinal e (hsub _ hq e))
  shares e v hv := by
    have hne : e.path root ≠ tmp := fun heq => ShareEntry.not_temp_path root e (heq ▸ htemp)
    rcases hchange.mayHold_cases hne hv with hold | ⟨heq, n, rfl, -, hcomplete⟩
    · refine (h.shares e v hold).imp_right ?_
      rintro ⟨n, bytes, rfl, hcomplete, hgenuine⟩
      exact ⟨n, bytes, rfl, hcomplete.frame hchange hne hold, hgenuine⟩
    · exact Or.inr ⟨n, bytes, rfl, hcomplete, heq ▸ hshare e heq⟩
  manifest v hv := by
    have hne : manifestPath root ≠ tmp := fun heq => not_temp_manifestPath root (heq ▸ htemp)
    rcases hchange.mayHold_cases hne hv with hold | ⟨heq, n, rfl, -, hcomplete⟩
    · refine (h.manifest v hold).imp_right ?_
      rintro ⟨n, bytes, manifest, rfl, hcomplete, hparse, haccounts⟩
      exact ⟨n, bytes, manifest, rfl, hcomplete.frame hchange hne hold, hparse,
        haccounts.change hchange htemp htmp hfinal⟩
    · obtain ⟨manifest, hparse, haccounts⟩ := hmanifest heq.symm
      exact Or.inr ⟨n, bytes, manifest, rfl, hcomplete, hparse, haccounts.change hchange htemp htmp hfinal⟩

theorem Durable.link (h : Durable m₀ root begun returned m) (hnone : m.entry q = none)
    (haside : Aside root q) : Durable m₀ root begun returned (m.link q (some .dir)) where
  numbered p n hv := by
    by_cases hp : p = q
    · subst hp
      rcases Medium.mayHold_link_self.mp hv with hv | hv
      · cases hv
      · exact h.numbered p n hv
    · exact h.numbered p n ((Medium.mayHold_link_of_ne hp).mp hv)
  founded := h.founded.link hnone
  shares e v hv := h.shares e v ((Medium.mayHold_link_of_ne (haside.2 e).symm).mp hv)
  manifest v hv := by
    refine (h.manifest v ((Medium.mayHold_link_of_ne haside.1.symm).mp hv)).imp_right ?_
    rintro ⟨n, bytes, manifest, hn, hcomplete, hparse, haccounts⟩
    exact ⟨n, bytes, manifest, hn, hcomplete, hparse, haccounts.link hnone haside⟩

theorem Durable.recover (h : Durable m₀ root begun returned m) {kept : FilePath → Option Entry}
    (hkept : ∀ p, m.MayHold p (kept p)) (found : Nat → Bytes) :
    Durable m₀ root begun returned (m.recover kept found) where
  numbered p n hv := by
    rcases Medium.mayHold_recover hkept hv with hv | hv
    · cases hv
    · exact h.numbered p n hv
  founded := h.founded.recover hkept found
  shares e v hv := by
    rcases Medium.mayHold_recover hkept hv with rfl | hv
    · exact Or.inl rfl
    · refine (h.shares e v hv).imp_right ?_
      rintro ⟨n, bytes, hn, hcomplete, hgenuine⟩
      exact ⟨n, bytes, hn, hcomplete.recover, hgenuine⟩
  manifest v hv := by
    refine (h.manifest v (h.founded.mayHold_recover hkept found hv)).imp_right ?_
    rintro ⟨n, bytes, manifest, hn, hcomplete, hparse, haccounts⟩
    exact ⟨n, bytes, manifest, hn, hcomplete.recover, hparse, haccounts.recover hkept found⟩

/-- Once the manifest that lists it is durable, a call has returned. -/
theorem Durable.returns (h : Durable m₀ root begun returned m) {json : Bytes}
    (hsealed : Sealed m (manifestPath root) json) (hparse : Manifest.fromJsonBytes json = .ok manifest)
    (haccounts : Accounts m root ((k :: returned).map Put.tag) manifest) :
    Durable m₀ root begun (k :: returned) m where
  numbered := h.numbered
  founded := h.founded
  shares := h.shares
  manifest v hv := by
    obtain ⟨⟨n, hentry, hcomplete⟩, hformer⟩ := hsealed
    have hvalue := (hv.eq_entry hformer).trans hentry
    exact Or.inr ⟨n, json, manifest, hvalue, hcomplete, hparse, haccounts⟩

/-! ## A call -/

variable {P : Medium → Prop} {opened : Option (FilePath × Nat)}

theorem safe_createDir (hP : Lasting root P) {path : FilePath} {names : List String}
    (hpath : path = root ++ names) (hlength : names.length ≤ 3)
    (hhead : names.head? ≠ some "manifest.json") (hdurable : Durable m₀ root begun returned m) (hm : P m) :
    Safe (Durable m₀ root begun returned) (fun _ _ m => P m) (createDirSecure path) opened m := by
  have hsafe : Safe (fun m => Durable m₀ root begun returned m ∧ P m) (fun _ _ _ => True)
      (createDirSecure path) opened m := by
    apply safe_createDirSecure _ ⟨hdurable, hm⟩
    intro q hq m hm hnone
    rw [hpath] at hq
    have haside := aside_ancestors hlength hhead hq
    exact ⟨hm.1.link hnone haside, hP.link m q hm.2 hnone haside⟩
  exact hsafe.mono (fun _ h => h.1) (fun _ _ _ h _ => h.2)

theorem safe_write (hP : Lasting root P) (hfinal : finalPath ≠ []) (htemp : ¬ Temp finalPath)
    (hapart : Apart root finalPath) (htmp : ∀ suffix, Apart root (tempPath finalPath.dropLast suffix))
    (hshare : ∀ e : ShareEntry, e.path root = finalPath → Genuine m₀ root begun finalPath bytes)
    (hmanifest : finalPath = manifestPath root → ∀ m, P m → ∃ manifest,
      Manifest.fromJsonBytes bytes = .ok manifest ∧ Accounts m root (returned.map Put.tag) manifest)
    (hdurable : Durable m₀ root begun returned m) (hm : P m) :
    Safe (Durable m₀ root begun returned) (fun _ _ m => P m ∧ Sealed m finalPath bytes)
      (writeAtomic finalPath bytes) opened m := by
  have hstable : ∀ suffix, Stable (fun m => Durable m₀ root begun returned m ∧ P m)
      (tempPath finalPath.dropLast suffix) finalPath bytes := by
    intro suffix
    have htemp' := temp_tempPath finalPath.dropLast suffix
    constructor
    · intro m m' hm hchange
      refine ⟨hm.1.change hchange htemp' (htmp suffix) hapart hshare (fun h => hmanifest h m hm.2), ?_⟩
      exact hP.change m m' _ _ _ hm.2 hchange htemp' (htmp suffix) hapart
    · exact fun m hm => hm.1.numbered
  have hsafe : Safe (fun m => Durable m₀ root begun returned m ∧ P m) (fun _ _ m => Sealed m finalPath bytes)
      (writeAtomic finalPath bytes) opened m :=
    safe_writeAtomic hstable hfinal htemp ⟨hdurable, hm⟩
  exact hsafe.mono (fun _ h => h.1) (fun _ _ _ h hsealed => ⟨h.2, hsealed⟩)

theorem safe_putPublicEnvelope (hP : Lasting root P) (passphrase : Except StoreError Passphrase)
    (keyId : KeyId) (epoch : Epoch) (group : PublicKeyPackage)
    (hdurable : Durable m₀ root begun returned m) (hm : P m) :
    Safe (Durable m₀ root begun returned) (fun _ _ m => P m)
      (ParticipantStore.putPublicEnvelope ⟨root, passphrase⟩ keyId epoch group) opened m := by
  have hdir : (publicPath root keyId epoch).dropLast = root ++ ["pubkey", keyId.label] := by
    rw [publicPath_eq_concat, List.dropLast_concat]
  unfold ParticipantStore.putPublicEnvelope
  apply Safe.bind (Q := fun _ _ m => P m) (safe_ofExcept hdurable (fun _ _ => hm))
  intro envelope opened m hdurable hm
  apply Safe.bind (Q := fun _ _ m => P m) (safe_ofExcept hdurable (fun _ _ => hm))
  intro json opened m hdurable hm
  apply (safe_createDir hP hdir (by simp) (by simp) hdurable hm).bind
  intro _ opened m hdurable hm
  refine (safe_write hP (by simp [publicPath]) (not_temp_publicPath root keyId epoch) ?_ ?_ ?_ ?_
    hdurable hm).mono (fun _ h => h) (fun _ _ _ _ h => h.1)
  · exact apart_append (Or.inl (by decide))
  · intro suffix
    rw [hdir, tempPath, List.append_assoc]
    exact apart_append (Or.inl (by decide))
  · intro e he
    have hlength := congrArg List.length he
    simp [ShareEntry.path, publicPath] at hlength
  · exact fun h => absurd h (publicPath_ne_manifestPath _ _ _ _)

theorem safe_loadManifest (passphrase : Except StoreError Passphrase)
    (hdurable : Durable m₀ root begun returned m) :
    Safe (Durable m₀ root begun returned)
      (fun manifest _ m' => m' = m ∧ manifest.Known ∧ Accounts m root (returned.map Put.tag) manifest)
      (ParticipantStore.loadManifest ⟨root, passphrase⟩) opened m := by
  have hread : Safe (Durable m₀ root begun returned)
      (fun content _ m' => m' = m ∧ (content = .error .notFound → returned = []) ∧
        ∀ bytes, content = .ok bytes → ∃ manifest, Manifest.fromJsonBytes bytes = .ok manifest ∧
          Accounts m root (returned.map Put.tag) manifest)
      (sys (SysOp.read (manifestPath root)) : StoreM _) opened m := by
    apply safe_call (fun _ _ _ _ => rfl) rfl hdurable
    · intro content opened' m' hact
      cases hact
      refine ⟨hdurable, rfl, ?_⟩
      rcases hdurable.manifest _ (m.mayHold_entry _) with
        ⟨hentry, hnone⟩ | ⟨n, bytes, manifest, hentry, hcomplete, hparse, haccounts⟩
      · exact ⟨fun _ => hnone, fun bytes hbytes => absurd hbytes (Medium.read_ne_ok_of_entry hentry bytes)⟩
      · rw [Medium.read_of_entry hentry, hcomplete.1]
        refine ⟨(fun h => nomatch h), fun bytes' hbytes => ?_⟩
        cases hbytes
        exact ⟨manifest, hparse, haccounts⟩
    · intro e content hrefuse hne
      cases hrefuse
      refine ⟨rfl, (fun h => ?_), fun bytes h => nomatch h⟩
      cases h
      exact absurd rfl (hne _ rfl)
  apply hread.bind
  rintro content opened m hdurable ⟨rfl, hnone, hok⟩
  match content with
  | .ok bytes =>
      obtain ⟨manifest, hparse, haccounts⟩ := hok bytes rfl
      apply safe_ofExcept hdurable
      intro manifest' hparse'
      cases hparse.symm.trans hparse'
      exact ⟨rfl, known_of_fromJsonBytes hparse, haccounts⟩
  | .error .notFound =>
      refine ⟨hdurable, rfl, known_new, (fun e he => nomatch he), ?_⟩
      rw [hnone rfl]
      exact fun tag htag => nomatch htag
  | .error .alreadyExists => exact hdurable
  | .error (.other code) => exact hdurable

/-- The manifest with the entry of a call, whose share is there. -/
theorem Accounts.addEntry (h : Accounts m root (returned.map Put.tag) manifest)
    (hpresent : Present m (sharePath root k.tag)) (state : ShareState) (now : UInt64) :
    Accounts m root ((k :: returned).map Put.tag)
      (manifest.addEntry (.new k.tag.keyId k.tag.epoch k.tag.seat state now)) := by
  have hnew : (ShareEntry.new k.tag.keyId k.tag.epoch k.tag.seat state now).Indexes k.tag := ⟨rfl, rfl, rfl⟩
  constructor
  · intro e he
    rcases mem_insertEntry he with rfl | hold
    · exact hpresent
    · exact h.1 e hold
  · intro tag htag
    rcases List.mem_cons.mp htag with rfl | htag
    · exact ⟨_, self_mem_insertEntry _ _, hnew⟩
    · obtain ⟨e, he, hindexes⟩ := h.2 tag htag
      rcases mem_insertEntry_of_mem he with hstays | hsame
      · exact ⟨e, hstays, hindexes⟩
      · exact ⟨_, self_mem_insertEntry _ _, (indexes_of_sameTag hsame).mp hindexes⟩

/-- Below durable directories, a share that is written is there to stay. -/
theorem safe_writeShare {tag : ShareTag} {ciphertext : Bytes}
    (hgenuine : Genuine m₀ root begun (sharePath root tag) ciphertext)
    (hdurable : Durable m₀ root begun returned m) (hfounded : m.Founded (sharePath root tag)) :
    Safe (Durable m₀ root begun returned) (fun _ _ m => Present m (sharePath root tag))
      (writeAtomic (sharePath root tag) ciphertext) opened m := by
  refine (safe_write (lasting_founded root tag) (by simp [sharePath]) (not_temp_sharePath root tag)
    ?_ ?_ ?_ ?_ hdurable hfounded).mono (fun _ h => h) (fun _ _ m _ h => h.2.present h.1)
  · exact apart_append (Or.inr (by simp))
  · intro suffix
    rw [dropLast_sharePath, tempPath, List.append_assoc]
    exact apart_append (Or.inr (by simp))
  · exact fun _ _ => hgenuine
  · exact fun h => absurd h (sharePath_ne_manifestPath _ _ _)

/-- The write of the manifest is what makes a call return. -/
theorem safe_writeManifest {json : Bytes} (hparse : Manifest.fromJsonBytes json = .ok manifest)
    (hdurable : Durable m₀ root begun returned m)
    (haccounts : Accounts m root ((k :: returned).map Put.tag) manifest) :
    Safe (Durable m₀ root begun returned) (fun _ _ => Durable m₀ root begun (k :: returned))
      (writeAtomic (manifestPath root) json) opened m := by
  refine (safe_write (lasting_accounts root _ manifest) (by simp [manifestPath])
    (not_temp_manifestPath root) ?_ ?_ ?_ ?_ hdurable haccounts).mono (fun _ h => h)
    (fun _ _ m hdurable h => hdurable.returns h.2 hparse h.1)
  · exact apart_append (Or.inl (by decide))
  · intro suffix
    rw [manifestPath, List.dropLast_concat, tempPath]
    apply apart_append
    refine Or.inl (fun h => ?_)
    have hhead := congrArg (fun name => name.toList.head?) h
    simp [String.toList_append] at hhead
  · intro e he
    have hlength := congrArg List.length he
    simp [ShareEntry.path, manifestPath] at hlength
  · intro _ m haccounts
    exact ⟨manifest, hparse, haccounts.1, fun tag htag => haccounts.2 tag (List.mem_cons_of_mem _ htag)⟩

/-- A call that begins with the directories above its share durable keeps the
    invariant, and has returned only where its share and its entry are durable. -/
theorem safe_put (hlaws : RoundTrips) (hbegun : k ∈ begun) (hdurable : Durable m₀ root begun returned m)
    (hfounded : m.Founded (sharePath root k.tag)) :
    Safe (Durable m₀ root begun returned) (fun _ _ => Durable m₀ root begun (k :: returned))
      (k.program root) opened m := by
  unfold Put.program ParticipantStore.putShare
  apply Safe.bind (Q := fun passphrase _ m => m.Founded (sharePath root k.tag) ∧ k.passphrase = .ok passphrase)
    (safe_ofExcept hdurable (fun passphrase h => ⟨hfounded, h⟩))
  rintro passphrase opened m hdurable ⟨hfounded, hpassphrase⟩
  apply (safe_putPublicEnvelope (lasting_founded root k.tag) _ _ _ _ hdurable hfounded).bind
  intro _ opened m hdurable hfounded
  -- the share
  apply (safe_createDir (lasting_founded root k.tag) (dropLast_sharePath root k.tag) (by simp) (by simp)
    hdurable hfounded).bind
  intro _ opened m hdurable hfounded
  apply Safe.bind (Q := fun plaintext _ m => m.Founded (sharePath root k.tag) ∧
    KeyCodec.serializeKeyPackage k.keyPackage = .ok plaintext)
    (safe_ofExcept hdurable (fun plaintext h => ⟨hfounded, Except.mapError_eq_ok.mp h⟩))
  rintro plaintext opened m hdurable ⟨hfounded, hplaintext⟩
  have hentropy : Safe (Durable m₀ root begun returned) (fun _ _ m => m.Founded (sharePath root k.tag))
      (sys SysOp.entropy : StoreM _) opened m := safe_observe trivial hdurable (fun _ => hfounded)
  apply hentropy.bind
  intro entropy opened m hdurable hfounded
  apply Safe.bind (Q := fun ciphertext _ m => m.Founded (sharePath root k.tag) ∧
    encryptSecret passphrase entropy plaintext = .ok ciphertext)
    (safe_ofExcept hdurable (fun ciphertext h => ⟨hfounded, h⟩))
  rintro ciphertext opened m hdurable ⟨hfounded, hciphertext⟩
  have hgenuine : Genuine m₀ root begun (sharePath root k.tag) ciphertext :=
    Or.inr ⟨k, hbegun, rfl, passphrase, entropy, plaintext, hpassphrase, hplaintext, hciphertext⟩
  apply (safe_writeShare hgenuine hdurable hfounded).bind
  intro _ opened m hdurable hpresent
  -- the manifest
  apply (safe_loadManifest k.passphrase hdurable).bind
  rintro manifest opened m hdurable ⟨rfl, hknown, haccounts⟩
  have htime : Safe (Durable m₀ root begun returned)
      (fun now _ m => Accounts m root ((k :: returned).map Put.tag)
        (manifest.addEntry (.new k.tag.keyId k.tag.epoch k.tag.seat k.state now)))
      (sys SysOp.unixTime : StoreM _) opened m :=
    safe_observe trivial hdurable (haccounts.addEntry hpresent k.state)
  apply htime.bind
  intro now opened m hdurable haccounts
  apply (safe_createDir (lasting_accounts root _ _) (List.append_nil root).symm (by simp) (by simp) hdurable
    haccounts).bind
  intro _ opened m hdurable haccounts
  apply Safe.bind (Q := fun json _ m => Accounts m root ((k :: returned).map Put.tag)
    (manifest.addEntry (.new k.tag.keyId k.tag.epoch k.tag.seat k.state now)) ∧
      Manifest.fromJsonBytes json =
        .ok (manifest.addEntry (.new k.tag.keyId k.tag.epoch k.tag.seat k.state now)))
    (safe_ofExcept hdurable (fun json h => ⟨haccounts, fromJsonBytes_addEntry hlaws hknown h⟩))
  rintro json opened m hdurable ⟨haccounts, hparse⟩
  exact safe_writeManifest hparse hdurable haccounts

/-! ## Histories -/

/-- What a restart finds: the shares that the manifest lists, whole, and among
    them those of the calls that have returned. -/
structure Survives (m₀ : Medium) (root : FilePath) (begun returned : List Put) (m : Medium) : Prop where
  returned : ∀ k ∈ returned, ∃ bytes manifest, m.read (manifestPath root) = .ok bytes ∧
    Manifest.fromJsonBytes bytes = .ok manifest ∧ (∃ e ∈ manifest.shares, e.Indexes k.tag) ∧
    ∃ share, m.read (sharePath root k.tag) = .ok share ∧
      Genuine m₀ root begun (sharePath root k.tag) share
  listed : ∀ bytes, m.read (manifestPath root) = .ok bytes → ∃ manifest,
    Manifest.fromJsonBytes bytes = .ok manifest ∧ ∀ e ∈ manifest.shares, ∃ share,
      m.read (e.path root) = .ok share ∧ Genuine m₀ root begun (e.path root) share

theorem Durable.genuine (h : Durable m₀ root begun returned m) {e : ShareEntry}
    (hpresent : Present m (e.path root)) :
    ∃ share, m.read (e.path root) = .ok share ∧ Genuine m₀ root begun (e.path root) share := by
  rcases h.shares e _ (m.mayHold_entry _) with hnone | ⟨n, share, hentry, hcomplete, hgenuine⟩
  · exact absurd (Or.inl hnone.symm) hpresent.2
  · refine ⟨share, ?_, hgenuine⟩
    rw [Medium.read_of_entry hentry, hcomplete.1]

theorem Durable.survives (h : Durable m₀ root begun returned m) : Survives m₀ root begun returned m := by
  rcases h.manifest _ (m.mayHold_entry _) with
    ⟨hentry, hnone⟩ | ⟨n, bytes, manifest, hentry, hcomplete, hparse, haccounts⟩
  · constructor
    · rw [hnone]
      exact fun k hk => nomatch hk
    · exact fun bytes hread => absurd hread (Medium.read_ne_ok_of_entry hentry bytes)
  · have hread : m.read (manifestPath root) = .ok bytes := by
      rw [Medium.read_of_entry hentry, hcomplete.1]
    constructor
    · intro k hk
      obtain ⟨e, he, hindexes⟩ := haccounts.2 k.tag (List.mem_map_of_mem hk)
      have hshare := h.genuine (haccounts.1 e he)
      rw [hindexes.path_eq] at hshare
      exact ⟨bytes, manifest, hread, hparse, ⟨e, he, hindexes⟩, hshare⟩
    · intro bytes' hread'
      cases hread.symm.trans hread'
      exact ⟨manifest, hparse, fun e he => h.genuine (haccounts.1 e he)⟩

/-- In every history of calls that begin with the directories above their shares
    durable, a loss of power at any moment leaves every share whose call has
    returned, and every share that the manifest lists, whole and listed. -/
theorem shares_survive (hlaws : RoundTrips) (hready : Ready root m₀)
    {current : Option (Put × Thread StoreError Unit)}
    (h : History (fun k : Put => k.program root) (fun m k => m.Founded (sharePath root k.tag)) m₀
      begun returned current m) {kept : FilePath → Option Entry} (hkept : ∀ p, m.MayHold p (kept p))
    (found : Nat → Bytes) : Survives m₀ root begun returned (m.recover kept found) := by
  have hdurable : Durable m₀ root begun returned m := by
    apply h.keeps (I := fun begun returned m => Durable m₀ root begun returned m) hready.durable
    · intro begun returned m k hdurable hfounded
      exact safe_put hlaws List.mem_cons_self (hdurable.begins k) hfounded
    · exact fun begun returned m kept found hdurable hkept => hdurable.recover hkept found
  exact (hdurable.recover hkept found).survives

end Calls

/-! ## Two calls -/

namespace Plain

/-- The directories on the way to a path, durable, and nothing else. -/
def dirsTo (path : FilePath) : Medium where
  entry p := if p ∈ FileTree.ancestors path then some .dir else none
  former _ := []
  content _ := []
  clean _ := true
  next := 0

theorem entry_dirsTo {path p : FilePath} {v : Entry} (h : (dirsTo path).entry p = some v) :
    p ∈ FileTree.ancestors path ∧ v = .dir := by
  simp only [dirsTo] at h
  split at h
  · next hmem =>
      cases h
      exact ⟨hmem, rfl⟩
  · cases h

theorem founded_dirsTo {path p : FilePath} (h : p.dropLast <+: path) : (dirsTo path).Founded p := by
  intro q hq
  obtain ⟨hne, hpre⟩ := FileTree.mem_ancestors.mp hq
  exact ⟨if_pos (FileTree.mem_ancestors.mpr ⟨hne, hpre.trans h⟩), rfl⟩

theorem ready_dirsTo {root : FilePath} {names : List String} (hlength : names.length ≤ 3)
    (hhead : names.head? ≠ some "manifest.json") : Ready root (dirsTo (root ++ names)) where
  numbered p n hv := by
    have hentry := hv.resolve_right List.not_mem_nil
    cases (entry_dirsTo hentry.symm).2
  founded := by
    apply founded_dirsTo
    rw [manifestPath, List.dropLast_concat]
    exact List.prefix_append _ _
  shares e := by
    refine ⟨rfl, fun v hv => ?_⟩
    exact absurd rfl ((aside_ancestors hlength hhead (entry_dirsTo hv).1).2 e)
  manifest := by
    refine ⟨rfl, fun v hv => ?_⟩
    exact absurd rfl (aside_ancestors hlength hhead (entry_dirsTo hv).1).1

/-- The call for a seat, from a medium on, for at most `n` steps and with no fault. -/
def putRun (pid n : Nat) (second : Bool) (m : Medium) : Thread StoreError Unit × Medium :=
  proceed (uniqueSuffix pid 0) n ⟨(bothSeats second).program ["r"], none, 0⟩ m

/-- The call for the first seat, below such directories. -/
def firstRun (path : FilePath) : Thread StoreError Unit × Medium := putRun 7 30 false (dirsTo path)

theorem history_firstRun {Allowed : Medium → Put → Prop} {path : FilePath}
    (hallowed : Allowed (dirsTo path) (bothSeats false)) (h : returned (firstRun path).1 = some ()) :
    History (fun k : Put => k.program ["r"]) Allowed (dirsTo path) [bothSeats false] [bothSeats false] none
      (firstRun path).2 :=
  ((History.start.call (bothSeats false) hallowed).proceed (uniqueSuffix 7 0) 30).of_returned h

/-- The directory of the shares of both seats. -/
def sharesDir : FilePath := ["r", "shares", "active", "epoch-0"]

theorem founded_bothSeats {m : Medium} (second : Bool) (h : m.Founded (sharePath ["r"] firstTag)) :
    m.Founded (sharePath ["r"] (bothSeats second).tag) := by
  cases second with
  | false => exact h
  | true =>
      have hdir : (sharePath ["r"] secondTag).dropLast = (sharePath ["r"] firstTag).dropLast := by decide +kernel
      exact fun q hq => h q (hdir ▸ hq)

/-- The call for the second seat, until the power is lost, when its share has its name
    and the directory is not yet synced. -/
def cutRun : Medium := (putRun 8 14 true (firstRun sharesDir).2).2

/-- What is found then, if all the entries are kept. -/
def foundRun : Medium := cutRun.recover cutRun.entry (fun _ => [])

/-- Below directories that are durable, the first share is put, the second is cut
    short, and put again. Both outlive any loss of power. -/
theorem shares_survive_again : ∃ m, History (fun k : Put => k.program ["r"])
      (fun m k => m.Founded (sharePath ["r"] k.tag)) (dirsTo sharesDir)
      [bothSeats true, bothSeats true, bothSeats false] [bothSeats true, bothSeats false] none m ∧
    ∀ kept found, (∀ p, m.MayHold p (kept p)) →
      Survives (dirsTo sharesDir) ["r"] [bothSeats true, bothSeats true, bothSeats false]
        [bothSeats true, bothSeats false] (m.recover kept found) := by
  have hready : Ready ["r"] (dirsTo (["r"] ++ ["shares", "active", "epoch-0"])) := ready_dirsTo (by simp) (by simp)
  have hfirst : (firstRun sharesDir).2.Founded (sharePath ["r"] firstTag) := by
    unfold Medium.Founded
    decide +kernel
  have hcut : cutRun.Founded (sharePath ["r"] firstTag) := by
    unfold Medium.Founded
    decide +kernel
  have hkept : ∀ p, cutRun.MayHold p (cutRun.entry p) := fun p => cutRun.mayHold_entry p
  have hlost : History (fun k : Put => k.program ["r"]) (fun m k => m.Founded (sharePath ["r"] k.tag))
      (dirsTo sharesDir) [bothSeats true, bothSeats false] [bothSeats false] none foundRun := by
    have hreturned : returned (firstRun sharesDir).1 = some () := by decide +kernel
    have hput : History (fun k : Put => k.program ["r"]) (fun m k => m.Founded (sharePath ["r"] k.tag))
        (dirsTo sharesDir) [bothSeats false] [bothSeats false] none (firstRun sharesDir).2 :=
      history_firstRun (founded_dirsTo List.prefix_rfl) hreturned
    exact ((hput.call (bothSeats true) (founded_bothSeats true hfirst)).proceed (uniqueSuffix 8 0) 14).powerLoss
      _ _ hkept
  have hfound := founded_bothSeats true (hcut.recover hkept (fun _ => []))
  have hreturned : returned (putRun 9 30 true foundRun).1 = some () := by decide +kernel
  have hhistory := ((hlost.call (bothSeats true) hfound).proceed (uniqueSuffix 9 0) 30).of_returned hreturned
  exact ⟨_, hhistory, fun kept found hkept => shares_survive roundTrips hready hhistory hkept found⟩

/-- On a durable root with nothing in it, the call returns, and a loss of power takes
    the directory of the key away, with the share in it. -/
theorem fresh_directory_loses_share : Ready ["r"] (dirsTo ["r"]) ∧
    ∃ m kept, History (fun k : Put => k.program ["r"]) (fun _ _ => True) (dirsTo ["r"]) [bothSeats false]
      [bothSeats false] none m ∧ (∀ p, m.MayHold p (kept p)) ∧
    ∀ found, ¬ Survives (dirsTo ["r"]) ["r"] [bothSeats false] [bothSeats false] (m.recover kept found) := by
  have hready : Ready ["r"] (dirsTo (["r"] ++ [])) := ready_dirsTo (by simp) (by simp)
  have hreturned : returned (firstRun ["r"]).1 = some () := by decide +kernel
  have hformer : none ∈ (firstRun ["r"]).2.former ["r", "shares", "active"] := by decide +kernel
  refine ⟨hready, (firstRun ["r"]).2, Function.update (firstRun ["r"]).2.entry ["r", "shares", "active"] none,
    history_firstRun trivial hreturned, fun p => ?_, fun found hsurvives => ?_⟩
  · by_cases hp : p = ["r", "shares", "active"]
    · subst hp
      rw [Function.update_self]
      exact Or.inr hformer
    · rw [Function.update_of_ne hp]
      exact Or.inl rfl
  · obtain ⟨-, -, -, -, -, share, hread, -⟩ := hsurvives.returned (bothSeats false) (List.mem_singleton.mpr rfl)
    apply Medium.read_ne_ok_of_entry _ share hread
    apply Medium.entry_recover_of_lost (q := ["r", "shares", "active"]) (by decide)
    rw [Function.update_self]
    exact fun h => nomatch h

end Plain

end Store
