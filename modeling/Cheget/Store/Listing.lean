-- SUMMARY: Which entries the manifest keeps when calls update it side by side, and the update that an overlap loses.
import Cheget.Store.Backed

/-!
# Concurrent updates of the manifest

A call reads the manifest, adds an entry, and puts the result in its place.
Nothing keeps another call from replacing the manifest in between; its entry is
then lost.
-/

namespace Store

open Cli Crypto

section Listing

variable {ι : Type}

/-! ## Overlaps -/

/-- The call reads the manifest. -/
def readsManifest (root : FilePath) (ev : Event SysOp SysOp.Resp) : Bool :=
  match ev.op with
  | .read p => p == manifestPath root
  | _ => false

/-- Who has replaced the manifest, in order. -/
def replacers (root : FilePath) (log : List (ι × Event SysOp SysOp.Resp)) : List ι :=
  log.filterMap (fun x => if replaced x.2 = some (manifestPath root) then some x.1 else none)

/-- A call that has read the manifest is the next to replace it, if it replaces it. -/
def Undisturbed (root : FilePath) : List (ι × Event SysOp SysOp.Resp) → Prop
  | [] => True
  | x :: rest =>
      (readsManifest root x.2 = true → x.1 ∉ (replacers root rest).tail) ∧ Undisturbed root rest

instance decidableUndisturbed [DecidableEq ι] (root : FilePath) :
    ∀ log : List (ι × Event SysOp SysOp.Resp), Decidable (Undisturbed root log)
  | [] => .isTrue trivial
  | x :: rest =>
      have := decidableUndisturbed root rest
      inferInstanceAs (Decidable ((readsManifest root x.2 = true → x.1 ∉ (replacers root rest).tail) ∧
        Undisturbed root rest))

variable {root : FilePath} {log : List (ι × Event SysOp SysOp.Resp)}

theorem undisturbed_cons (x : ι × Event SysOp SysOp.Resp) (rest : List (ι × Event SysOp SysOp.Resp)) :
    Undisturbed root (x :: rest) ↔
      (readsManifest root x.2 = true → x.1 ∉ (replacers root rest).tail) ∧ Undisturbed root rest :=
  Iff.rfl

theorem replacers_append (log log' : List (ι × Event SysOp SysOp.Resp)) :
    replacers root (log ++ log') = replacers root log ++ replacers root log' :=
  List.filterMap_append

theorem Undisturbed.of_append {log' : List (ι × Event SysOp SysOp.Resp)}
    (h : Undisturbed root (log ++ log')) : Undisturbed root log := by
  induction log with
  | nil => trivial
  | cons x log ih =>
      rw [List.cons_append, undisturbed_cons, replacers_append] at h
      refine ⟨fun hreads hmem => h.1 hreads ?_, ih h.2⟩
      cases hreplacers : replacers root log with
      | nil =>
          rw [hreplacers] at hmem
          cases hmem
      | cons k ks =>
          rw [hreplacers] at hmem
          exact List.mem_append_left _ hmem

/-- Nobody has replaced the manifest since a call read it that replaces it now. -/
theorem Undisturbed.replacers_eq_nil {before after : List (ι × Event SysOp SysOp.Resp)} {k : ι}
    {ev ev' : Event SysOp SysOp.Resp} (hlog : log = before ++ (k, ev) :: after)
    (hreads : readsManifest root ev = true) (hputs : replaced ev' = some (manifestPath root))
    (h : Undisturbed root (log ++ [(k, ev')])) : replacers root after = [] := by
  subst hlog
  induction before with
  | nil =>
      have hlast : replacers root (after ++ [(k, ev')]) = replacers root after ++ [k] := by
        rw [replacers_append]
        simp [replacers, hputs]
      rw [List.nil_append, List.cons_append, undisturbed_cons, hlast] at h
      have hnot := h.1 hreads
      cases hafter : replacers root after with
      | nil => rfl
      | cons j js =>
          rw [hafter] at hnot
          exact absurd (by simp) hnot
  | cons x before ih => exact ih h.2

variable [KeyCodec] [Json] [Age]

/-! ## What is listed -/

/-- The manifest on disk has the entry. -/
def Held (t : FileTree) (root : FilePath) (e : ShareEntry) : Prop :=
  ∃ bytes manifest, t[manifestPath root]? = some (.file bytes) ∧
    Manifest.fromJsonBytes bytes = .ok manifest ∧ e ∈ manifest.shares

/-- What has been read has every entry that is on disk. -/
def Current (t : FileTree) (root : FilePath) (content : Except IoError Bytes) : Prop :=
  ∀ manifest, Answers content manifest → ∀ e, Held t root e → e ∈ manifest.shares

/-- The manifest lists what it did at first and every call that has replaced it;
    it is what any call has read that nobody has replaced it since. -/
structure Lists (root : FilePath) (calls : ι → Put) (t₀ : FileTree) (w : Turns ι) : Prop where
  first : ∀ e, Held t₀ root e → Held w.1.tree root e ∨
    ∃ k, HasReplaced k (manifestPath root) w ∧ e.Indexes (calls k).tag
  own : ∀ k, HasReplaced k (manifestPath root) w →
    ∃ e, Held w.1.tree root e ∧ e.Indexes (calls k).tag
  current : ∀ before after k content,
    w.2 = before ++ (k, ⟨.read (manifestPath root), content⟩) :: after → replacers root after = [] →
      Current w.1.tree root content

/-- As long as no update is disturbed. -/
def ListsIf (root : FilePath) (calls : ι → Put) (t₀ : FileTree) (w : Turns ι) : Prop :=
  Undisturbed root w.2 → Lists root calls t₀ w

omit [Age] in
theorem held_congr {t t' : FileTree} {e : ShareEntry}
    (h : ∀ bytes, t'[manifestPath root]? = some (.file bytes) ↔ t[manifestPath root]? = some (.file bytes)) :
    Held t' root e ↔ Held t root e := by
  simp only [Held, h]

omit [Age] in
theorem held_iff {t : FileTree} {json : Bytes} {manifest : Manifest} {e : ShareEntry}
    (hfile : t[manifestPath root]? = some (.file json))
    (hparse : Manifest.fromJsonBytes json = .ok manifest) : Held t root e ↔ e ∈ manifest.shares := by
  constructor
  · rintro ⟨bytes, manifest', hfile', hparse', he⟩
    cases hfile.symm.trans hfile'
    cases hparse.symm.trans hparse'
    exact he
  · exact fun he => ⟨json, manifest, hfile, hparse, he⟩

variable {calls : ι → Put} {t₀ : FileTree} {w : Turns ι} {env : SysEnv} {k : ι}

omit [KeyCodec] [Json] [Age] in
theorem hasReplaced_turn {op : SysOp} {j : ι} {f : FilePath}
    (hnone : replaced ⟨op, (turn env k op w).1⟩ ≠ some f) :
    HasReplaced j f (turn env k op w).2 ↔ HasReplaced j f w := by
  refine exists_congr (fun tmp => ?_)
  rw [log_turn, List.mem_append, List.mem_singleton]
  constructor
  · rintro (hold | hnew)
    · exact hold
    · have hev : (⟨.rename tmp f, .ok ()⟩ : Event SysOp SysOp.Resp) = ⟨op, (turn env k op w).1⟩ :=
        (Prod.ext_iff.mp hnew).2
      exact absurd (congrArg replaced hev).symm hnone
  · exact Or.inl

omit [Age] in
/-- What is read now is current. -/
theorem current_read (hfault : ∀ tick, env.fault tick ≠ some .notFound) :
    Current w.1.tree root (turn env k (.read (manifestPath root)) w).1 := by
  rintro manifest hanswers e ⟨bytes, manifest', hfile, hparse, he⟩
  rcases hanswers with ⟨bytes', hread, hparse'⟩ | ⟨hread, -⟩
  · cases hfile.symm.trans (SysEnv.act_read_ok hread)
    cases hparse.symm.trans hparse'
    exact he
  · cases hfile.symm.trans (SysEnv.act_read_notFound (hfault _) hread)

/-- A call that does not replace the manifest changes nothing of this. -/
theorem Lists.turn (hfault : ∀ tick, env.fault tick ≠ some .notFound) (h : Lists root calls t₀ w)
    {op : SysOp} (hnone : replaced ⟨op, (turn env k op w).1⟩ ≠ some (manifestPath root))
    (hsame : ∀ bytes, (turn env k op w).2.1.tree[manifestPath root]? = some (.file bytes) ↔
      w.1.tree[manifestPath root]? = some (.file bytes)) :
    Lists root calls t₀ (turn env k op w).2 where
  first := by
    intro e he
    simp only [held_congr hsame, hasReplaced_turn hnone]
    exact h.first e he
  own := by
    intro j hj
    simp only [held_congr hsame]
    exact h.own j ((hasReplaced_turn hnone).mp hj)
  current := by
    intro before after j content hlog hafter manifest hanswers e he
    have hheld := (held_congr hsame).mp he
    rcases List.eq_nil_or_concat after with rfl | ⟨after, x, rfl⟩
    · obtain ⟨-, hlast⟩ := List.append_inj' hlog rfl
      obtain ⟨-, hev⟩ := Prod.ext_iff.mp (List.cons.inj hlast).1
      cases hev
      exact current_read (k := k) hfault manifest hanswers e hheld
    · rw [List.concat_eq_append, replacers_append, List.append_eq_nil_iff] at hafter
      have hbefore : w.2 = before ++ (j, ⟨.read (manifestPath root), content⟩) :: after := by
        rw [List.concat_eq_append, ← List.cons_append, ← List.append_assoc] at hlog
        exact (List.append_inj' hlog rfl).1
      exact h.current before after j content hbefore hafter.1 manifest hanswers e hheld

theorem steady_listsIf (hfault : ∀ tick, env.fault tick ≠ some .notFound) :
    Steady env (FilesOf root) (ListsIf (ι := ι) root calls t₀) where
  prepares := by
    intro k op w hop hw hundisturbed
    refine (hw.2 hundisturbed.of_append).turn hfault ?_ (fun bytes => ?_)
    · rw [hop.replaced_eq_none]
      simp
    · exact hop.file_iff env w.1.tick (not_temp_manifestPath root)
  failed := by
    intro k src dst w e herror hw hundisturbed
    have htree : (turn env k (.rename src dst) w).2.1.tree = w.1.tree := SysEnv.act_rename_error herror
    refine (hw.2 hundisturbed.of_append).turn hfault ?_ (fun bytes => by rw [htree])
    rw [herror]
    simp [replaced]

/-- Another file than the manifest may be put in place. -/
theorem places_other (hfault : ∀ tick, env.fault tick ≠ some .notFound) {f : FilePath}
    (hf : f ≠ manifestPath root) (bytes : Bytes) :
    Places env (FilesOf root) (ListsIf root calls t₀) k f bytes w := by
  intro tmp w' _ hw' htemp hcontent hok hundisturbed
  refine (hw'.2 hundisturbed.of_append).turn hfault ?_ (fun content => ?_)
  · rw [hok]
    simpa [replaced] using hf
  · have htmp : tmp ≠ manifestPath root := fun h => not_temp_manifestPath root (h ▸ htemp)
    rw [tree_rename_ok hcontent hok]
    simp [hf, htmp]

/-! ## Updating the manifest -/

omit [KeyCodec] [Json] [Age] in
theorem indexes_of_sameTag {e entry : ShareEntry} (h : e.sameTag entry = true) {tag : ShareTag} :
    e.Indexes tag ↔ entry.Indexes tag := by
  simp only [ShareEntry.sameTag, Bool.and_eq_true, beq_iff_eq] at h
  obtain ⟨⟨hkeyId, hepoch⟩, hseat⟩ := h
  simp only [ShareEntry.Indexes, hkeyId, hepoch, hseat]

omit [KeyCodec] [Json] [Age] in
theorem self_mem_insertEntry (entry : ShareEntry) (es : List ShareEntry) :
    entry ∈ Manifest.insertEntry entry es := by
  induction es with
  | nil => exact List.mem_singleton.mpr rfl
  | cons a es ih =>
      unfold Manifest.insertEntry
      split
      · exact List.mem_cons_self
      · exact List.mem_cons_of_mem a ih

omit [KeyCodec] [Json] [Age] in
/-- Only an entry of the same tag is replaced. -/
theorem mem_insertEntry_of_mem {entry e : ShareEntry} {es : List ShareEntry} (he : e ∈ es) :
    e ∈ Manifest.insertEntry entry es ∨ e.sameTag entry = true := by
  induction es with
  | nil => cases he
  | cons a es ih =>
      unfold Manifest.insertEntry
      split
      · next hsame =>
          rcases List.mem_cons.mp he with rfl | hmem
          · exact Or.inr hsame
          · exact Or.inl (List.mem_cons_of_mem entry hmem)
      · rcases List.mem_cons.mp he with rfl | hmem
        · exact Or.inl List.mem_cons_self
        · exact (ih hmem).imp_left (List.mem_cons_of_mem a)

omit [Age] in
/-- A manifest that has been read is of a known version. -/
theorem known_of_answers {content : Except IoError Bytes} {manifest : Manifest}
    (h : Answers content manifest) : manifest.Known := by
  rcases h with ⟨bytes, -, hparse⟩ | ⟨-, rfl⟩
  · exact known_of_fromJsonBytes hparse
  · exact known_new

/-- `k` has read this manifest. -/
def HasRead (root : FilePath) (k : ι) (manifest : Manifest) (w : Turns ι) : Prop :=
  ∃ before after content, w.2 = before ++ (k, ⟨.read (manifestPath root), content⟩) :: after ∧
    Answers content manifest

/-- What is listed after an update of what is on disk. -/
theorem Lists.update {entry : ShareEntry} (hentry : entry.Indexes (calls k).tag) {manifest : Manifest}
    (h : Lists root calls t₀ w) (hcurrent : ∀ e, Held w.1.tree root e → e ∈ manifest.shares) {tmp : FilePath}
    (hok : (Store.turn env k (.rename tmp (manifestPath root)) w).1 = .ok ())
    (hheld : ∀ e, Held (Store.turn env k (.rename tmp (manifestPath root)) w).2.1.tree root e ↔
      e ∈ (manifest.addEntry entry).shares) :
    Lists root calls t₀ (Store.turn env k (.rename tmp (manifestPath root)) w).2 := by
  have hlog : (Store.turn env k (.rename tmp (manifestPath root)) w).2.2 =
      w.2 ++ [(k, ⟨.rename tmp (manifestPath root), .ok ()⟩)] := by rw [log_turn, hok]
  have hmono {j : ι} (hj : HasReplaced j (manifestPath root) w) :
      HasReplaced j (manifestPath root) (Store.turn env k (.rename tmp (manifestPath root)) w).2 := by
    obtain ⟨tmp', hmem⟩ := hj
    exact ⟨tmp', by rw [hlog]; exact List.mem_append_left _ hmem⟩
  have hself : HasReplaced k (manifestPath root)
      (Store.turn env k (.rename tmp (manifestPath root)) w).2 := ⟨tmp, by rw [hlog]; simp⟩
  constructor
  · intro e he
    rcases h.first e he with hold | ⟨j, hj, hindexes⟩
    · rcases mem_insertEntry_of_mem (hcurrent e hold) with hkept | hsame
      · exact Or.inl ((hheld e).mpr hkept)
      · exact Or.inr ⟨k, hself, (indexes_of_sameTag hsame).mpr hentry⟩
    · exact Or.inr ⟨j, hmono hj, hindexes⟩
  · intro j hj
    have hnew : entry ∈ (manifest.addEntry entry).shares := self_mem_insertEntry entry _
    have hcases : HasReplaced j (manifestPath root) w ∨ j = k := by
      obtain ⟨tmp', hmem⟩ := hj
      rw [hlog, List.mem_append, List.mem_singleton] at hmem
      exact hmem.imp (fun hold => ⟨tmp', hold⟩) (fun hlast => (Prod.ext_iff.mp hlast).1)
    rcases hcases with hold | rfl
    · obtain ⟨e, he, hindexes⟩ := h.own j hold
      rcases mem_insertEntry_of_mem (hcurrent e he) with hkept | hsame
      · exact ⟨e, (hheld e).mpr hkept, hindexes⟩
      · exact ⟨entry, (hheld entry).mpr hnew, (indexes_of_sameTag hsame).mp hindexes⟩
    · exact ⟨entry, (hheld entry).mpr hnew, hentry⟩
  · intro before after j content hsplit hafter
    rw [hlog] at hsplit
    rcases List.eq_nil_or_concat after with rfl | ⟨after, x, rfl⟩
    · obtain ⟨-, hlast⟩ := List.append_inj' hsplit rfl
      cases hlast
    · rw [List.concat_eq_append, ← List.cons_append, ← List.append_assoc] at hsplit
      obtain ⟨-, hlast⟩ := List.append_inj' hsplit rfl
      rw [List.concat_eq_append, ← (List.cons.inj hlast).1, replacers_append] at hafter
      simp [replacers, replaced] at hafter

/-- Putting an update in place keeps what is listed, if it is undisturbed. -/
theorem places_manifest (hlaws : RoundTrips) {manifest : Manifest} {now : UInt64} {json : Bytes}
    (hread : HasRead root k manifest w)
    (hjson : (manifest.addEntry (.new (calls k).tag.keyId (calls k).tag.epoch (calls k).tag.seat
      (calls k).state now)).toJsonBytes = .ok json) :
    Places env (FilesOf root) (ListsIf root calls t₀) k (manifestPath root) json w := by
  intro tmp w' hext hw' htemp hcontent hok hundisturbed
  obtain ⟨before, after, content, hlog, hanswers⟩ := hread
  obtain ⟨rest, hrest⟩ := hext.log
  have hsplit : w'.2 = before ++ (k, ⟨.read (manifestPath root), content⟩) :: (after ++ rest) := by
    rw [← hrest, hlog]
    simp
  have hlists := hw'.2 hundisturbed.of_append
  rw [log_turn, hok] at hundisturbed
  have hreads : readsManifest root ⟨.read (manifestPath root), content⟩ = true := by simp [readsManifest]
  have hquiet := hundisturbed.replacers_eq_nil hsplit hreads rfl
  have hcurrent := hlists.current before _ k content hsplit hquiet manifest hanswers
  have hfile : (turn env k (.rename tmp (manifestPath root)) w').2.1.tree[manifestPath root]? =
      some (.file json) := by
    rw [tree_rename_ok hcontent hok, BTreeMap.getElem?_insert, if_pos rfl]
  have hknown := known_of_answers hanswers
  have hparse := fromJsonBytes_addEntry hlaws hknown hjson
  have hheld (e : ShareEntry) := held_iff (e := e) hfile hparse
  have hentry : (ShareEntry.new (calls k).tag.keyId (calls k).tag.epoch (calls k).tag.seat
      (calls k).state now).Indexes (calls k).tag := ⟨rfl, rfl, rfl⟩
  exact hlists.update hentry hcurrent hok hheld

/-! ## Calls -/

theorem put_lists (hlaws : RoundTrips) (hsuffix : Function.Injective env.suffix)
    (hfault : ∀ tick, env.fault tick ≠ some .notFound) (w : Turns ι) :
    Behaves env (FilesOf root) (ListsIf root calls t₀) k
      (fun _ w' => HasReplaced k (manifestPath root) w') ((calls k).program root) w := by
  refine put_behaves (P := HasRead root k) ⟨hsuffix, fun _ => not_temp_filesOf⟩ (steady_listsIf hfault)
    (filesOf_publicPath root _) (filesOf_sharePath root _) (filesOf_manifestPath root (calls k).tag)
    ?_ ?_ ?_ ?_ ?_
  · exact fun json w => places_other hfault (publicPath_ne_manifestPath _ _ _ _) json
  · exact fun _ _ _ ciphertext w _ _ _ => places_other hfault (sharePath_ne_manifestPath _ _ _) ciphertext
  · exact fun w manifest _ hanswers => ⟨w.2, [], _, rfl, hanswers⟩
  · rintro manifest w w' hext ⟨before, after, content, hlog, hanswers⟩
    obtain ⟨rest, hrest⟩ := hext.log
    exact ⟨before, after ++ rest, content, by rw [← hrest, hlog]; simp, hanswers⟩
  · exact fun manifest now json w hread _ hjson => places_manifest hlaws hread hjson

/-- If no call replaces the manifest between another call's reading and replacing
    it, the manifest has an entry for every call that has returned and for every
    entry that it had before. -/
theorem manifest_lists_returned [DecidableEq ι] (hlaws : RoundTrips) {env : SysEnv}
    (hsuffix : Function.Injective env.suffix) (hfault : ∀ tick, env.fault tick ≠ some .notFound)
    (root : FilePath) (t₀ : FileTree) (calls : ι → Put) (schedule : List ι)
    (hundisturbed : Undisturbed root
      ((crewOf root calls ((⟨t₀, 0⟩, []) : Turns ι)).after (turn env) schedule).state.2) :
    let crew := (crewOf root calls ((⟨t₀, 0⟩, []) : Turns ι)).after (turn env) schedule
    (∀ k, (crew.programs k).returned = some () →
        ∃ e, Held crew.state.1.tree root e ∧ e.Indexes (calls k).tag) ∧
      ∀ e, Held t₀ root e → Held crew.state.1.tree root e ∨
        ∃ k e', Held crew.state.1.tree root e' ∧ e.Indexes (calls k).tag ∧ e'.Indexes (calls k).tag := by
  intro crew
  have hstart : ListsIf root calls t₀ (⟨t₀, 0⟩, []) := by
    intro _
    constructor
    · exact fun e he => Or.inl he
    · rintro k ⟨tmp, hmem⟩
      cases hmem
    · intro before after k content hlog
      have hlength := congrArg List.length hlog
      simp at hlength
  obtain ⟨hkept, hreturned⟩ := crew_kept (fun _ => put_lists hlaws hsuffix hfault) hstart schedule
  have hlists := hkept hundisturbed
  refine ⟨fun k hk => hlists.own k (hreturned k hk), fun e he => ?_⟩
  cases hlists.first e he with
  | inl hheld => exact Or.inl hheld
  | inr hreplaced =>
      obtain ⟨k, hk, hindexes⟩ := hreplaced
      obtain ⟨e', he', hindexes'⟩ := hlists.own k hk
      exact Or.inr ⟨k, e', he', hindexes, hindexes'⟩

end Listing

/-! ## Two calls -/

open Store.Plain

/-- The calls make their directories and files in alternation. The second one
    writes its share while the first one updates the manifest, and reads the
    manifest before the first one has synced it. -/
def interleaved : List Bool :=
  (List.replicate 12 [false, true]).flatten ++ List.replicate 6 false ++
    (List.replicate 5 [false, true]).flatten ++ [false, false, true, true, false] ++ List.replicate 10 true

def interleavedRun : Program.Crew Bool SysOp SysOp.Resp (Turns Bool) StoreError Unit :=
  (crewOf ["r"] bothSeats ((⟨∅, 0⟩, []) : Turns Bool)).after (turn SysEnv.calm) interleaved

theorem undisturbed_interleavedRun : Undisturbed ["r"] interleavedRun.state.2 ∧
    ∀ second, (interleavedRun.programs second).returned = some () := by
  decide +kernel

/-- Where only the updates of the manifest do not overlap, both calls are listed. -/
theorem manifest_lists_returned_interleaved :
    (∃ e, Held interleavedRun.state.1.tree ["r"] e ∧ e.Indexes (bothSeats false).tag) ∧
      ∃ e, Held interleavedRun.state.1.tree ["r"] e ∧ e.Indexes (bothSeats true).tag := by
  have hrun := undisturbed_interleavedRun
  have hlists := manifest_lists_returned roundTrips SysEnv.suffix_calm_injective
    (fun _ => by simp [SysEnv.calm]) ["r"] ∅ bothSeats interleaved
  rw [interleavedRun] at hrun ⊢
  -- the run is a closed term, which must not be evaluated again
  generalize (crewOf ["r"] bothSeats ((⟨∅, 0⟩, []) : Turns Bool)).after (turn SysEnv.calm) interleaved = crew
    at hrun hlists ⊢
  exact ⟨(hlists hrun.1).1 false (hrun.2 false), (hlists hrun.1).1 true (hrun.2 true)⟩

/-- Two calls of different tags return, and one of them is not listed. -/
theorem overlapping_calls_lose_entry :
    (∀ second, (overlapRun.programs second).returned = some ()) ∧
      (bothSeats false).tag ≠ (bothSeats true).tag ∧
      ¬ ∃ e, Held overlapRun.state.1.tree ["r"] e ∧ e.Indexes (bothSeats true).tag := by
  obtain ⟨hfirst, hsecond⟩ := seats_overlapRun.1
  have hseats : (bothSeats false).tag.seat ≠ (bothSeats true).tag.seat := by decide
  refine ⟨fun second => ?_, fun h => hseats (congrArg ShareTag.seat h), ?_⟩
  · cases second with
    | false => exact hfirst
    | true => exact hsecond
  · rintro ⟨e, hheld, -, -, hseat⟩
    obtain ⟨bytes, manifest, hfile, hparse, hlisted⟩ := manifest_overlapRun
    have hmem := List.mem_map_of_mem (f := ShareEntry.seat) ((held_iff hfile hparse).mp hheld)
    rw [hlisted, List.mem_singleton] at hmem
    exact hseats (seatHex_injective (hmem.symm.trans hseat))

end Store
