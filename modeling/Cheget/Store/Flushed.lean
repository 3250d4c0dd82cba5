-- SUMMARY: What `create_dir_secure` and `write_atomic` keep at every moment, and that a write that returns is durable where its directory is.
import Cheget.Base.Sequence
import Cheget.Store.Writers

/-!
# Flushed files

An invariant that the changes of one writer keep holds at every moment of
`write_atomic`. Where it returns, the file is in place, complete, and its entry
durable. Nothing is said of the directories above.
-/

namespace Store

open Crypto Sequence

/-- A writer keeps the invariant, and the files stay numbered. -/
structure Stable (I : Medium → Prop) (tmp finalPath : FilePath) (bytes : Bytes) : Prop where
  change : ∀ m m', I m → Change m m' tmp finalPath bytes → I m'
  numbered : ∀ m, I m → Numbered m

variable {ε : Type} {I : Medium → Prop} {tmp finalPath : FilePath} {bytes : Bytes} {m m' : Medium} {n : Nat}
  {opened : Option (FilePath × Nat)}

/-! ## The temporary file -/

theorem safe_createNew (hstable : Stable I tmp finalPath bytes) (hne : tmp ≠ finalPath) (hm : I m) :
    Safe I
      (fun result opened m => result = .ok () →
        ∃ n, opened = some (tmp, n) ∧ Private m tmp n ∧ m.content n = [])
      (sys (SysOp.createNew tmp) : SysM ε _) opened m := by
  apply safe_call (fun _ _ _ _ => rfl) rfl hm
  · intro result opened' m' hact
    rcases m.createNew_cases tmp with ⟨e, hcreate⟩ | hcreate
    · simp only [Medium.act, hcreate] at hact
      cases hact
      exact ⟨hm, fun h => by cases h⟩
    · simp only [Medium.act, hcreate] at hact
      cases hact
      have hnumbered := hstable.numbered m hm
      refine ⟨hstable.change m _ hm (change_createNew hnumbered hne bytes), fun _ => ⟨m.next, rfl, ?_, ?_⟩⟩
      · refine ⟨Medium.entry_link_self, fun p hp he => ?_⟩
        exact lt_irrefl _ (hnumbered p m.next ((Medium.mayHold_link_of_ne hp).mp he))
      · exact Function.update_self _ _ _
  · intro e result hrefuse _
    cases hrefuse
    intro h
    cases h

theorem parts_writeAll (hstable : Stable I tmp finalPath bytes) (hm : I m) (hown : Private m tmp n)
    (hempty : m.content n = []) {written : Nat}
    (hparts : Parts (.writeAll tmp bytes) (some (tmp, n)) m written m') :
    I m' ∧ Private m' tmp n ∧ m'.content n = bytes.take written := by
  induction hparts with
  | none => exact ⟨hm, hown, by rw [hempty, List.take_zero]⟩
  | @more written more m' m'' _ hmore ih =>
      obtain ⟨hm', hown', hcontent⟩ := ih
      simp only [Medium.part, if_pos] at hmore
      cases hmore
      refine ⟨hstable.change m' _ hm' (change_write hown' _ finalPath bytes), hown', ?_⟩
      simp only [Medium.write, Function.update_self, hcontent]
      exact List.take_add.symm

theorem safe_writeAll (hstable : Stable I tmp finalPath bytes) (hm : I m) (hown : Private m tmp n)
    (hempty : m.content n = []) :
    Safe I
      (fun result opened m => result = .ok () →
        opened = some (tmp, n) ∧ Private m tmp n ∧ m.content n = bytes)
      (sys (SysOp.writeAll tmp bytes) : SysM ε _) (some (tmp, n)) m := by
  apply safe_sys
  intro written m' hparts
  obtain ⟨hm', hown', hcontent⟩ := parts_writeAll hstable hm hown hempty hparts
  refine ⟨hm', fun result opened' m'' hanswer => ?_⟩
  cases hanswer with
  | acts hact =>
      simp only [Medium.act, if_pos] at hact
      cases hact
      refine ⟨hstable.change m' _ hm' (change_write hown' _ finalPath bytes), fun _ => ⟨rfl, hown', ?_⟩⟩
      simp only [Medium.write, Function.update_self, hcontent]
      exact List.take_append_drop written bytes
  | observes _ hobserves => exact hobserves.elim
  | refuses hrefuse =>
      cases hrefuse
      exact ⟨hm', fun h => by cases h⟩

theorem safe_syncFile (hstable : Stable I tmp finalPath bytes) (hm : I m) (hown : Private m tmp n)
    (hcontent : m.content n = bytes) :
    Safe I
      (fun result opened m => result = .ok () →
        opened = some (tmp, n) ∧ Private m tmp n ∧ Complete m n bytes)
      (sys (SysOp.syncAll tmp) : SysM ε _) (some (tmp, n)) m := by
  apply safe_call (fun _ _ _ _ => rfl) rfl hm
  · intro result opened' m' hact
    simp only [Medium.act, if_pos] at hact
    cases hact
    refine ⟨hstable.change m _ hm (change_sync hown finalPath bytes), fun _ => ⟨rfl, hown, hcontent, ?_⟩⟩
    exact Function.update_self _ _ _
  · intro e result hrefuse _
    cases hrefuse
    intro h
    cases h

/-- A temporary file that is written is complete and durable, and nobody else's. -/
theorem safe_writeTemp (hstable : Stable I tmp finalPath bytes) (hne : tmp ≠ finalPath) (hm : I m) :
    Safe I (fun _ opened m => ∃ n, opened = some (tmp, n) ∧ Private m tmp n ∧ Complete m n bytes)
      (writeTemp tmp bytes) opened m := by
  unfold writeTemp
  apply (safe_createNew hstable hne hm).bind
  intro created opened m hm hcreated
  apply Safe.bind (Q := fun _ opened m => ∃ n, opened = some (tmp, n) ∧ Private m tmp n ∧ m.content n = [])
  · exact safe_ofExcept hm (fun _ hok => hcreated hok)
  rintro - opened m hm ⟨n, rfl, hown, hempty⟩
  apply (safe_writeAll hstable hm hown hempty).bind
  intro result opened m hm hwritten
  apply Safe.bind (Q := fun _ opened m => opened = some (tmp, n) ∧ Private m tmp n ∧ m.content n = bytes)
  · exact safe_ofExcept hm (fun _ hok => hwritten hok)
  rintro - opened m hm ⟨rfl, hown, hcontent⟩
  apply (safe_syncFile hstable hm hown hcontent).bind
  intro synced opened m hm hsynced
  exact safe_ofExcept hm (fun _ hok => ⟨n, hsynced hok⟩)

/-! ## The final file -/

theorem safe_rename (hstable : Stable I tmp finalPath bytes) (hne : tmp ≠ finalPath) (hm : I m)
    (hown : Private m tmp n) (hcomplete : Complete m n bytes) :
    Safe I
      (fun result opened' m => opened' = opened ∧ (result = .ok () → Placed m finalPath bytes))
      (sys (SysOp.rename tmp finalPath) : SysM ε _) opened m := by
  apply safe_call (fun _ _ _ _ => rfl) rfl hm
  · intro result opened' m' hact
    rcases m.rename_cases tmp finalPath with ⟨e, hrename⟩ | ⟨i, hentry, hrename⟩
    · simp only [Medium.act, hrename] at hact
      cases hact
      exact ⟨hm, rfl, fun h => by cases h⟩
    · simp only [Medium.act, hrename] at hact
      cases hact
      cases hown.1.symm.trans hentry
      exact ⟨hstable.change m _ hm (change_rename hown hcomplete hne), rfl,
        fun _ => ⟨n, Medium.entry_link_self, hcomplete⟩⟩
  · intro e result hrefuse _
    cases hrefuse
    exact ⟨rfl, fun h => by cases h⟩

/-- Syncing the directory makes the entry of the file durable. -/
theorem safe_syncDir (hstable : Stable I tmp finalPath bytes) (hdir : tmp ≠ finalPath.dropLast)
    (hfinal : finalPath ≠ []) (hm : I m) (hplaced : Placed m finalPath bytes) :
    Safe I (fun result _ m => result = .ok () → Sealed m finalPath bytes)
      (sys (SysOp.syncAll finalPath.dropLast) : SysM ε _) (some (tmp, n)) m := by
  apply safe_call (fun _ _ _ _ => rfl) rfl hm
  · intro result opened' m' hact
    simp only [Medium.act, if_neg hdir] at hact
    cases hact
    exact ⟨hstable.change m _ hm (change_syncDir m _ tmp finalPath bytes),
      fun _ => ⟨hplaced, m.former_syncDir_self hfinal rfl⟩⟩
  · intro e result hrefuse _
    cases hrefuse
    intro h
    cases h

theorem safe_removeFile (hstable : Stable I tmp finalPath bytes) (hne : tmp ≠ finalPath) (hm : I m) :
    Safe I (fun _ _ _ => True) (sys (SysOp.removeFile tmp) : SysM ε _) opened m := by
  apply safe_call (fun _ _ _ _ => rfl) rfl hm
  · intro result opened' m' hact
    rcases m.removeFile_cases tmp with ⟨e, hremove⟩ | hremove
    · simp only [Medium.act, hremove] at hact
      cases hact
      exact ⟨hm, trivial⟩
    · simp only [Medium.act, hremove] at hact
      cases hact
      exact ⟨hstable.change m _ hm (change_unlink hne bytes), trivial⟩
  · exact fun _ _ _ _ => trivial

section Calls

variable [KeyCodec] [Json]

theorem safe_io {α : Type} {Q : α → Option (FilePath × Nat) → Medium → Prop}
    {call : SysM StoreError (Except IoError α)}
    (h : Safe I (fun result opened m => ∀ a, result = .ok a → Q a opened m) call opened m) :
    Safe I Q (io call) opened m := by
  apply h.bind
  intro result opened m hm hQ
  exact safe_ofExcept hm (fun a ha => hQ a (Except.mapError_eq_ok.mp ha))

theorem safe_cleanUp (hstable : Stable I tmp finalPath bytes) (hne : tmp ≠ finalPath) (hm : I m)
    {Q : Unit → Option (FilePath × Nat) → Medium → Prop} (e : IoError) :
    Safe I Q (cleanUp tmp e) opened m :=
  (safe_removeFile hstable hne hm).bind (fun _ _ _ hm _ => hm)

/-- At every moment of a write the invariant holds, and where the write returns the
    file is there and a loss of power does not take its entry away. -/
theorem safe_writeAtomic (hstable : ∀ suffix, Stable I (tempPath finalPath.dropLast suffix) finalPath bytes)
    (hfinal : finalPath ≠ []) (htemp : ¬ Temp finalPath) (hm : I m) :
    Safe I (fun _ _ m => Sealed m finalPath bytes) (writeAtomic finalPath bytes) opened m := by
  rw [writeAtomic_of_ne_nil hfinal]
  have hsuffix : Safe I (fun _ _ _ => True) (sys SysOp.uniqueSuffix : StoreM _) opened m :=
    safe_observe trivial hm (fun _ => trivial)
  apply hsuffix.bind
  intro suffix opened m hm _
  have hstable := hstable suffix
  have hne : tempPath finalPath.dropLast suffix ≠ finalPath :=
    fun h => htemp (h ▸ temp_tempPath _ _)
  have hdir : tempPath finalPath.dropLast suffix ≠ finalPath.dropLast :=
    fun h => List.cons_ne_nil _ _ (List.append_right_eq_self.mp h)
  apply (safe_writeTemp hstable hne hm).attempt.bind
  intro written opened m hm hwritten
  cases written with
  | error e => exact safe_cleanUp hstable hne hm e
  | ok done =>
      obtain ⟨n, rfl, hown, hcomplete⟩ := hwritten done rfl
      apply (safe_rename hstable hne hm hown hcomplete).bind
      rintro renamed opened m hm ⟨rfl, hplaced⟩
      cases renamed with
      | error e => exact safe_cleanUp hstable hne hm e
      | ok done =>
          apply safe_io
          apply (safe_syncDir hstable hdir hfinal hm (hplaced rfl)).mono (fun _ hm => hm)
          exact fun result opened m _ hsealed done hok => hsealed hok

/-! ## Directories -/

omit [KeyCodec] [Json] in
theorem mkdirs_keeps {ps : List FilePath}
    (hlink : ∀ q ∈ ps, ∀ m, I m → m.entry q = none → I (m.link q (some .dir))) (hm : I m) :
    I (m.mkdirs ps).2 := by
  induction ps generalizing m with
  | nil => exact hm
  | cons q ps ih =>
      have hrest : ∀ q ∈ ps, ∀ m, I m → m.entry q = none → I (m.link q (some .dir)) :=
        fun q hq => hlink q (List.mem_cons_of_mem _ hq)
      unfold Medium.mkdirs
      split
      · exact ih hrest hm
      · exact hm
      · next hnone => exact ih hrest (hlink q List.mem_cons_self m hm hnone)

theorem safe_createDirSecure {path : FilePath}
    (hlink : ∀ q ∈ FileTree.ancestors path, ∀ m, I m → m.entry q = none → I (m.link q (some .dir)))
    (hm : I m) : Safe I (fun _ _ _ => True) (createDirSecure path) opened m := by
  have hisDir : Safe I (fun _ _ _ => True) (sys (SysOp.isDir path) : StoreM _) opened m := by
    apply safe_call (fun _ _ _ _ => rfl) rfl hm
    · intro result opened' m' hact
      cases hact
      exact ⟨hm, trivial⟩
    · exact fun _ _ _ _ => trivial
  apply hisDir.bind
  intro isDir opened m hm _
  cases isDir with
  | true => exact ⟨hm, trivial⟩
  | false =>
      apply safe_io
      apply safe_sys
      intro written m' hparts
      have hm' : I m' := by
        induction hparts with
        | none => exact hm
        | more _ hmore ih =>
            cases hmore
            exact mkdirs_keeps (fun q hq => hlink q (List.mem_of_mem_take hq)) ih
      refine ⟨hm', fun result opened' m'' hanswer => ?_⟩
      cases hanswer with
      | acts hact =>
          cases hact
          exact ⟨mkdirs_keeps hlink hm', fun _ _ => trivial⟩
      | observes _ hobserves => exact hobserves.elim
      | refuses hrefuse => exact ⟨hm', fun _ _ => trivial⟩

end Calls

end Store
