-- SUMMARY: Where a call of `write_atomic` stands between any two of its steps, and what it does to the files of the others.
import Cheget.Base.Machine
import Cheget.Store.Effects

/-!
# Writers

A call of `write_atomic` has a temporary file of its own, that no other one writes
to, moves or removes, and moves it into place once it is complete and synced.
-/

namespace Store

open Crypto

/-! ## What a writer does to the medium -/

/-- The file is reached by its temporary name only. -/
def Private (m : Medium) (tmp : FilePath) (n : Nat) : Prop :=
  m.entry tmp = some (.file n) ∧ ∀ p, p ≠ tmp → ¬ m.MayHold p (some (.file n))

/-- A complete and durable file. -/
def Complete (m : Medium) (n : Nat) (bytes : Bytes) : Prop :=
  m.content n = bytes ∧ m.clean n = true

/-- A complete file is in place. -/
def Placed (m : Medium) (p : FilePath) (bytes : Bytes) : Prop :=
  ∃ n, m.entry p = some (.file n) ∧ Complete m n bytes

/-- And a loss of power does not take it away. -/
def Sealed (m : Medium) (p : FilePath) (bytes : Bytes) : Prop := Placed m p bytes ∧ m.former p = []

/-- A step of a writer: it works on its temporary file, and may move it into place
    once it is complete. -/
structure Change (m m' : Medium) (tmp finalPath : FilePath) (bytes : Bytes) : Prop where
  elsewhere : ∀ p, p ≠ tmp → p ≠ finalPath → m.Steady m' p
  final : m.Steady m' finalPath ∨
    ∃ n, Private m tmp n ∧ Complete m n bytes ∧ m' = (m.link tmp none).link finalPath (some (.file n))
  temp : ∀ e, m'.MayHold tmp e → m.MayHold tmp e ∨ e = none ∨
    e = some (.file m.next) ∧ m.next < m'.next
  files : ∀ p n, p ≠ tmp → m.MayHold p (some (.file n)) →
    m'.content n = m.content n ∧ m'.clean n = m.clean n
  next : m.next ≤ m'.next

variable {m m' : Medium} {tmp finalPath p : FilePath} {bytes : Bytes} {n : Nat}

theorem Change.refl (m : Medium) (tmp finalPath : FilePath) (bytes : Bytes) :
    Change m m tmp finalPath bytes where
  elsewhere _ _ _ := Medium.Steady.refl m _
  final := Or.inl (Medium.Steady.refl m _)
  temp _ he := Or.inl he
  files _ _ _ _ := ⟨rfl, rfl⟩
  next := Nat.le_refl _

theorem change_createNew (hnumbered : ∀ p n, m.MayHold p (some (.file n)) → n < m.next)
    (hne : tmp ≠ finalPath) (bytes : Bytes) :
    Change m (m.alloc.link tmp (some (.file m.next))) tmp finalPath bytes where
  elsewhere p hp _ := Medium.steady_link (m := m.alloc) hp _
  final := Or.inl (Medium.steady_link (m := m.alloc) (Ne.symm hne) _)
  temp e he := by
    rcases Medium.mayHold_link_self.mp he with rfl | he
    · exact Or.inr (Or.inr ⟨rfl, Nat.lt_succ_self _⟩)
    · exact Or.inl he
  files p n _ hn := by
    have hlt := (hnumbered p n hn).ne
    exact ⟨Function.update_of_ne hlt _ _, Function.update_of_ne hlt _ _⟩
  next := Nat.le_succ _

theorem change_write (hown : Private m tmp n) (more : Bytes) (finalPath : FilePath) (bytes : Bytes) :
    Change m (m.write n more) tmp finalPath bytes where
  elsewhere _ _ _ := Medium.Steady.refl m _
  final := Or.inl (Medium.Steady.refl m _)
  temp _ he := Or.inl he
  files p i hp hi := by
    have hne : i ≠ n := by
      rintro rfl
      exact hown.2 p hp hi
    exact ⟨Function.update_of_ne hne _ _, Function.update_of_ne hne _ _⟩
  next := Nat.le_refl _

theorem change_sync (hown : Private m tmp n) (finalPath : FilePath) (bytes : Bytes) :
    Change m (m.sync n) tmp finalPath bytes where
  elsewhere _ _ _ := Medium.Steady.refl m _
  final := Or.inl (Medium.Steady.refl m _)
  temp _ he := Or.inl he
  files p i hp hi := by
    have hne : i ≠ n := by
      rintro rfl
      exact hown.2 p hp hi
    exact ⟨rfl, Function.update_of_ne hne _ _⟩
  next := Nat.le_refl _

theorem change_syncDir (m : Medium) (dir tmp finalPath : FilePath) (bytes : Bytes) :
    Change m (m.syncDir dir) tmp finalPath bytes where
  elsewhere p _ _ := ⟨rfl, m.former_syncDir_subset dir p⟩
  final := Or.inl ⟨rfl, m.former_syncDir_subset dir finalPath⟩
  temp e he := by
    have hsteady : m.Steady (m.syncDir dir) tmp := ⟨rfl, m.former_syncDir_subset dir tmp⟩
    exact Or.inl (hsteady.mayHold he)
  files _ _ _ _ := ⟨rfl, rfl⟩
  next := Nat.le_refl _

theorem change_unlink (hne : tmp ≠ finalPath) (bytes : Bytes) :
    Change m (m.link tmp none) tmp finalPath bytes where
  elsewhere _ hp _ := Medium.steady_link hp _
  final := Or.inl (Medium.steady_link (Ne.symm hne) _)
  temp _ he := (Medium.mayHold_link_self.mp he).elim (fun he => Or.inr (Or.inl he)) Or.inl
  files _ _ _ _ := ⟨rfl, rfl⟩
  next := Nat.le_refl _

theorem change_rename (hown : Private m tmp n) (hcomplete : Complete m n bytes) (hne : tmp ≠ finalPath) :
    Change m ((m.link tmp none).link finalPath (some (.file n))) tmp finalPath bytes where
  elsewhere p hp hp' := by
    have htmp := Medium.steady_link (m := m) hp none
    have hfinal := Medium.steady_link (m := m.link tmp none) hp' (some (.file n))
    exact ⟨hfinal.1.trans htmp.1, List.Subset.trans hfinal.2 htmp.2⟩
  final := Or.inr ⟨n, hown, hcomplete, rfl⟩
  temp e he := by
    have he' := (Medium.mayHold_link_of_ne hne).mp he
    exact (Medium.mayHold_link_self.mp he').elim (fun he => Or.inr (Or.inl he)) Or.inl
  files _ _ _ _ := ⟨rfl, rfl⟩
  next := Nat.le_refl _

variable {v : Option Entry}

/-- Every file that is reached has been created. -/
def Numbered (m : Medium) : Prop := ∀ p n, m.MayHold p (some (.file n)) → n < m.next

/-- What a path may hold once a writer has moved. -/
theorem Change.mayHold_cases (h : Change m m' tmp finalPath bytes) (hp : p ≠ tmp) (hv : m'.MayHold p v) :
    m.MayHold p v ∨ p = finalPath ∧ ∃ n, v = some (.file n) ∧ m.MayHold tmp (some (.file n)) ∧
      Complete m' n bytes := by
  by_cases hfinal : p = finalPath
  · subst hfinal
    rcases h.final with hsteady | ⟨n, hown, hcomplete, rfl⟩
    · exact Or.inl (hsteady.mayHold hv)
    · rcases Medium.mayHold_link_self.mp hv with rfl | hv
      · exact Or.inr ⟨rfl, n, rfl, Or.inl hown.1.symm, hcomplete⟩
      · exact Or.inl ((Medium.mayHold_link_of_ne hp).mp hv)
  · exact Or.inl ((h.elsewhere p hp hfinal).mayHold hv)

theorem Numbered.change (hm : Numbered m) (h : Change m m' tmp finalPath bytes) : Numbered m' := by
  intro p n hv
  by_cases hp : p = tmp
  · subst hp
    rcases h.temp _ hv with hv | hv | ⟨hv, hlt⟩
    · exact (hm _ n hv).trans_le h.next
    · cases hv
    · cases hv
      exact hlt
  · rcases h.mayHold_cases hp hv with hv | ⟨-, i, hi, hv, -⟩
    · exact (hm p n hv).trans_le h.next
    · cases hi
      exact (hm tmp n hv).trans_le h.next

/-- What one writer does to its files leaves the file of another one alone. -/
theorem Private.frame {tmp' finalPath' : FilePath} {bytes' : Bytes} (h : Private m tmp n)
    (hchange : Change m m' tmp' finalPath' bytes') (htmp : tmp ≠ tmp') (hfinal : tmp ≠ finalPath')
    (hn : n < m.next) : Private m' tmp n := by
  refine ⟨(hchange.elsewhere tmp htmp hfinal).1.trans h.1, fun p hp he => ?_⟩
  by_cases hp' : p = tmp'
  · subst hp'
    rcases hchange.temp _ he with he | he | ⟨he, -⟩
    · exact h.2 p hp he
    · cases he
    · cases he
      exact lt_irrefl _ hn
  · by_cases hpf : p = finalPath'
    · subst hpf
      rcases hchange.final with hsteady | ⟨i, hown, -, rfl⟩
      · exact h.2 p hp (hsteady.mayHold he)
      · rcases Medium.mayHold_link_self.mp he with he | he
        · cases he
          exact h.2 tmp' (Ne.symm htmp) (Or.inl hown.1.symm)
        · exact h.2 p hp ((Medium.mayHold_link_of_ne hp').mp he)
    · exact h.2 p hp ((hchange.elsewhere p hp' hpf).mayHold he)

theorem Complete.frame {tmp' finalPath' : FilePath} {bytes' : Bytes} (h : Complete m n bytes)
    (hchange : Change m m' tmp' finalPath' bytes') (hp : p ≠ tmp') (he : m.MayHold p (some (.file n))) :
    Complete m' n bytes := by
  obtain ⟨hcontent, hclean⟩ := hchange.files p n hp he
  exact ⟨hcontent.trans h.1, hclean.trans h.2⟩

theorem Complete.recover {kept : FilePath → Option Entry} {found : Nat → Bytes}
    (h : Complete m n bytes) : Complete (m.recover kept found) n bytes :=
  ⟨(if_pos h.2).trans h.1, rfl⟩

theorem Placed.frame {tmp' finalPath' : FilePath} {bytes' : Bytes} (h : Placed m p bytes)
    (hchange : Change m m' tmp' finalPath' bytes') (htmp : p ≠ tmp') (hfinal : p ≠ finalPath') :
    Placed m' p bytes := by
  obtain ⟨n, hentry, hcomplete⟩ := h
  exact ⟨n, (hchange.elsewhere p htmp hfinal).1.trans hentry,
    hcomplete.frame hchange htmp (Or.inl hentry.symm)⟩

theorem Sealed.read (h : Sealed m p bytes) : m.read p = .ok bytes := by
  obtain ⟨⟨n, hentry, hcontent, -⟩, -⟩ := h
  rw [Medium.read_of_entry hentry, hcontent]

theorem Sealed.frame {tmp' finalPath' : FilePath} {bytes' : Bytes} (h : Sealed m p bytes)
    (hchange : Change m m' tmp' finalPath' bytes') (htmp : p ≠ tmp') (hfinal : p ≠ finalPath') :
    Sealed m' p bytes := by
  refine ⟨h.1.frame hchange htmp hfinal, List.subset_nil.mp ?_⟩
  have hsubset := (hchange.elsewhere p htmp hfinal).2
  rwa [h.2] at hsubset

section Calls

variable [KeyCodec] [Json]

variable {alone apart : Prop} {m m' : Medium} {tmp finalPath p : FilePath} {bytes : Bytes} {n : Nat}

/-! ## What is left of a call -/

/-- Before the temporary file is moved. -/
def settle (tmp finalPath : FilePath) : Except IoError Unit → StoreM Unit
  | .error e => cleanUp tmp e
  | .ok () => do
      let renamed ← sys (SysOp.rename tmp finalPath)
      match renamed with
      | .error e => cleanUp tmp e
      | .ok () => io (sys (SysOp.syncAll finalPath.dropLast))

theorem writeAtomic_of_ne_nil {finalPath : FilePath} (h : finalPath ≠ []) (bytes : Bytes) :
    writeAtomic finalPath bytes = (do
      let suffix ← sys SysOp.uniqueSuffix
      let tmp := tempPath finalPath.dropLast suffix
      (writeTemp tmp bytes).attempt >>= settle tmp finalPath) := by
  rw [writeAtomic, if_neg h]
  refine congrArg _ (funext fun suffix => ?_)
  refine congrArg (Program.attempt (writeTemp _ bytes) >>= ·) (funext fun written => ?_)
  cases written with
  | error e => rfl
  | ok done =>
      refine congrArg (sys (SysOp.rename _ finalPath) >>= ·) (funext fun renamed => ?_)
      cases renamed <;> rfl

/-- Where a writer stands after it was given its suffix. Once it has created its
    temporary file, that path is `apart` from all final ones. If the writer is `alone`
    at its final path, what it has put there is still there. -/
inductive Stage (alone apart : Prop) (m : Medium) (tmp finalPath : FilePath) (bytes : Bytes) :
    Thread StoreError Unit → Prop
  | creating : Stage alone apart m tmp finalPath bytes
      ⟨(writeTemp tmp bytes).attempt >>= settle tmp finalPath, none, 0⟩
  | writing (n written : Nat) : apart → Private m tmp n → m.content n = bytes.take written →
      Stage alone apart m tmp finalPath bytes
        ⟨(do
            let result ← sys (SysOp.writeAll tmp bytes)
            Program.ofExcept result
            let synced ← sys (SysOp.syncAll tmp)
            Program.ofExcept synced : SysM IoError Unit).attempt >>= settle tmp finalPath,
          some (tmp, n), written⟩
  | syncing (n : Nat) : apart → Private m tmp n → m.content n = bytes →
      Stage alone apart m tmp finalPath bytes
        ⟨(sys (SysOp.syncAll tmp) >>= Program.ofExcept : SysM IoError Unit).attempt >>=
            settle tmp finalPath, some (tmp, n), 0⟩
  | moving (n : Nat) : apart → Private m tmp n → Complete m n bytes →
      Stage alone apart m tmp finalPath bytes ⟨settle tmp finalPath (.ok ()), some (tmp, n), 0⟩
  | syncingDir (n : Nat) : apart → (alone → Placed m finalPath bytes) →
      Stage alone apart m tmp finalPath bytes
        ⟨io (sys (SysOp.syncAll finalPath.dropLast)), some (tmp, n), 0⟩
  | cleaning (e : IoError) (opened : Option (FilePath × Nat)) :
      Stage alone apart m tmp finalPath bytes ⟨cleanUp tmp e, opened, 0⟩
  | failed (e : StoreError) (opened : Option (FilePath × Nat)) :
      Stage alone apart m tmp finalPath bytes ⟨.fail e, opened, 0⟩
  | returned (opened : Option (FilePath × Nat)) :
      (alone → Sealed m finalPath bytes) →
      Stage alone apart m tmp finalPath bytes ⟨.done (), opened, 0⟩

theorem Stage.mono {alone' : Prop} {thread : Thread StoreError Unit}
    (h : Stage alone apart m tmp finalPath bytes thread) (halone : alone' → alone) :
    Stage alone' apart m tmp finalPath bytes thread := by
  cases h with
  | creating => exact .creating
  | writing n written hapart hown hcontent => exact .writing n written hapart hown hcontent
  | syncing n hapart hown hcontent => exact .syncing n hapart hown hcontent
  | moving n hapart hown hcomplete => exact .moving n hapart hown hcomplete
  | syncingDir n hapart hplaced => exact .syncingDir n hapart (fun ha => hplaced (halone ha))
  | cleaning e opened => exact .cleaning e opened
  | failed e opened => exact .failed e opened
  | returned opened hsealed => exact .returned opened (fun ha => hsealed (halone ha))

/-! ### Steps of the others -/

/-- A writer stands where it stood, whatever the others do. -/
theorem Stage.frame {tmp' finalPath' : FilePath} {bytes' : Bytes} {thread : Thread StoreError Unit}
    (h : Stage alone apart m tmp finalPath bytes thread) (hchange : Change m m' tmp' finalPath' bytes')
    (htmp : tmp ≠ tmp') (hfinal : apart → tmp ≠ finalPath') (hfinal' : finalPath ≠ tmp')
    (halone : alone → finalPath ≠ finalPath')
    (hnumbered : ∀ p n, m.MayHold p (some (.file n)) → n < m.next) :
    Stage alone apart m' tmp finalPath bytes thread := by
  have hprivate {n : Nat} (hapart : apart) (hown : Private m tmp n) : Private m' tmp n :=
    hown.frame hchange htmp (hfinal hapart) (hnumbered tmp n (Or.inl hown.1.symm))
  have hfile {n : Nat} (hown : Private m tmp n) : m'.content n = m.content n ∧ m'.clean n = m.clean n :=
    hchange.files tmp n htmp (Or.inl hown.1.symm)
  cases h with
  | creating => exact .creating
  | writing n written hapart hown hcontent =>
      exact .writing n written hapart (hprivate hapart hown) ((hfile hown).1.trans hcontent)
  | syncing n hapart hown hcontent =>
      exact .syncing n hapart (hprivate hapart hown) ((hfile hown).1.trans hcontent)
  | moving n hapart hown hcomplete =>
      exact .moving n hapart (hprivate hapart hown)
        ⟨(hfile hown).1.trans hcomplete.1, (hfile hown).2.trans hcomplete.2⟩
  | syncingDir n hapart hplaced =>
      exact .syncingDir n hapart (fun ha => (hplaced ha).frame hchange hfinal' (halone ha))
  | cleaning e opened => exact .cleaning e opened
  | failed e opened => exact .failed e opened
  | returned opened hsealed =>
      exact .returned opened (fun ha => (hsealed ha).frame hchange hfinal' (halone ha))

/-! ### Own steps -/

/-- The answer to its call takes a writer to its next stage. It leaves the medium as
    it is, unless its temporary path is apart. -/
theorem Stage.act {op : SysOp} {cont : op.Resp → StoreM Unit} {resp : op.Resp}
    {opened opened' : Option (FilePath × Nat)} {written : Nat}
    (hstage : Stage alone apart m tmp finalPath bytes ⟨.exec op cont, opened, written⟩)
    (hact : m.act opened written op = some (resp, m', opened'))
    (hnumbered : ∀ p n, m.MayHold p (some (.file n)) → n < m.next) (hne : apart → tmp ≠ finalPath)
    (hdir : tmp ≠ finalPath.dropLast) (hfinal : finalPath ≠ [])
    (hcreates : op = .createNew tmp → m.entry tmp = none → apart)
    (hremoves : op = .removeFile tmp → (∃ n, m.entry tmp = some (.file n)) → apart) :
    Stage alone apart m' tmp finalPath bytes ⟨cont resp, opened', 0⟩ ∧
      (m' = m ∨ apart ∧ Change m m' tmp finalPath bytes) ∧
      (opened' = opened ∨ opened' = some (tmp, m.next) ∧ m.next < m'.next) := by
  generalize hthread : (⟨.exec op cont, opened, written⟩ : Thread StoreError Unit) = thread at hstage
  cases hstage with
  | creating =>
      cases hthread
      rcases m.createNew_cases tmp with ⟨e, hcreate⟩ | hcreate
      · simp only [Medium.act, hcreate] at hact
        cases hact
        exact ⟨.cleaning e none, Or.inl rfl, Or.inl rfl⟩
      · simp only [Medium.act, hcreate] at hact
        cases hact
        have hapart := hcreates rfl (Medium.entry_of_createNew hcreate)
        refine ⟨.writing m.next 0 hapart ⟨Medium.entry_link_self, fun p hp he => ?_⟩
          (Function.update_self _ _ _), Or.inr ⟨hapart, change_createNew hnumbered (hne hapart) bytes⟩,
          Or.inr ⟨rfl, Nat.lt_succ_self _⟩⟩
        exact lt_irrefl _ (hnumbered p m.next ((Medium.mayHold_link_of_ne hp).mp he))
  | writing n written hapart hown hcontent =>
      cases hthread
      simp only [Medium.act, if_pos] at hact
      cases hact
      refine ⟨.syncing n hapart hown ?_, Or.inr ⟨hapart, change_write hown _ finalPath bytes⟩, Or.inl rfl⟩
      simp [Medium.write, hcontent]
  | syncing n hapart hown hcontent =>
      cases hthread
      simp only [Medium.act, if_pos] at hact
      cases hact
      exact ⟨.moving n hapart hown ⟨hcontent, Function.update_self _ _ _⟩,
        Or.inr ⟨hapart, change_sync hown finalPath bytes⟩, Or.inl rfl⟩
  | moving n hapart hown hcomplete =>
      cases hthread
      rcases m.rename_cases tmp finalPath with ⟨e, hrename⟩ | ⟨i, hentry, hrename⟩
      · simp only [Medium.act, hrename] at hact
        cases hact
        exact ⟨.cleaning e _, Or.inl rfl, Or.inl rfl⟩
      · simp only [Medium.act, hrename] at hact
        cases hact
        cases hown.1.symm.trans hentry
        exact ⟨.syncingDir n hapart (fun _ => ⟨n, Medium.entry_link_self, hcomplete⟩),
          Or.inr ⟨hapart, change_rename hown hcomplete (hne hapart)⟩, Or.inl rfl⟩
  | syncingDir n hapart hplaced =>
      cases hthread
      simp only [Medium.act, if_neg hdir] at hact
      cases hact
      refine ⟨.returned _ (fun ha => ⟨hplaced ha, m.former_syncDir_self hfinal rfl⟩),
        Or.inr ⟨hapart, change_syncDir m finalPath.dropLast tmp finalPath bytes⟩, Or.inl rfl⟩
  | cleaning e opened =>
      cases hthread
      rcases m.removeFile_cases tmp with ⟨e', hremove⟩ | hremove
      · simp only [Medium.act, hremove] at hact
        cases hact
        exact ⟨.failed _ _, Or.inl rfl, Or.inl rfl⟩
      · simp only [Medium.act, hremove] at hact
        cases hact
        have hapart := hremoves rfl (Medium.entry_of_removeFile hremove)
        exact ⟨.failed _ _, Or.inr ⟨hapart, change_unlink (hne hapart) bytes⟩, Or.inl rfl⟩
  | failed e opened => cases hthread
  | returned opened hsealed => cases hthread

/-- So does a failure of its call, which changes nothing. -/
theorem Stage.refuse {op : SysOp} {cont : op.Resp → StoreM Unit} {resp : op.Resp} {e : IoError}
    {opened : Option (FilePath × Nat)} {written : Nat}
    (hstage : Stage alone apart m tmp finalPath bytes ⟨.exec op cont, opened, written⟩)
    (hrefuse : op.refuse e = some resp) :
    Stage alone apart m tmp finalPath bytes ⟨cont resp, opened, 0⟩ := by
  generalize hthread : (⟨.exec op cont, opened, written⟩ : Thread StoreError Unit) = thread at hstage
  cases hstage with
  | creating =>
      cases hthread
      cases hrefuse
      exact .cleaning e none
  | writing n written hapart hown hcontent =>
      cases hthread
      cases hrefuse
      exact .cleaning e _
  | syncing n hapart hown hcontent =>
      cases hthread
      cases hrefuse
      exact .cleaning e _
  | moving n hapart hown hcomplete =>
      cases hthread
      cases hrefuse
      exact .cleaning e _
  | syncingDir n hapart hplaced =>
      cases hthread
      cases hrefuse
      exact .failed _ _
  | cleaning e' opened =>
      cases hthread
      cases hrefuse
      exact .failed _ _
  | failed e' opened => cases hthread
  | returned opened hsealed => cases hthread

/-- The only call that is done in parts is the write. -/
theorem Stage.part {op : SysOp} {cont : op.Resp → StoreM Unit} {opened : Option (FilePath × Nat)}
    {written count : Nat} (hstage : Stage alone apart m tmp finalPath bytes ⟨.exec op cont, opened, written⟩)
    (hpart : m.part opened written count op = some m') :
    Stage alone apart m' tmp finalPath bytes ⟨.exec op cont, opened, written + count⟩ ∧
      apart ∧ Change m m' tmp finalPath bytes := by
  generalize hthread : (⟨.exec op cont, opened, written⟩ : Thread StoreError Unit) = thread at hstage
  cases hstage with
  | writing n written hapart hown hcontent =>
      cases hthread
      simp only [Medium.part, if_pos] at hpart
      cases hpart
      refine ⟨.writing n (written + count) hapart hown ?_, hapart, change_write hown _ finalPath bytes⟩
      simp [Medium.write, hcontent, List.take_add]
  | creating =>
      cases hthread
      cases hpart
  | syncing n hapart hown hcontent =>
      cases hthread
      cases hpart
  | moving n hapart hown hcomplete =>
      cases hthread
      cases hpart
  | syncingDir n hapart hplaced =>
      cases hthread
      cases hpart
  | cleaning e opened =>
      cases hthread
      cases hpart
  | failed e opened => cases hthread
  | returned opened hsealed => cases hthread

/-- A writer that has its suffix does not ask for another one. -/
theorem Stage.not_uniqueSuffix {cont : String → StoreM Unit} {opened : Option (FilePath × Nat)}
    {written : Nat} :
    ¬ Stage alone apart m tmp finalPath bytes ⟨.exec .uniqueSuffix cont, opened, written⟩ := by
  intro hstage
  generalize hthread : (⟨.exec .uniqueSuffix cont, opened, written⟩ : Thread StoreError Unit) = thread
    at hstage
  cases hstage <;> cases hthread

/-- What a writer creates, or removes, is its temporary file. -/
theorem Stage.createNew {p : FilePath} {cont : Except IoError Unit → StoreM Unit}
    {opened : Option (FilePath × Nat)} {written : Nat}
    (hstage : Stage alone apart m tmp finalPath bytes ⟨.exec (.createNew p) cont, opened, written⟩) :
    p = tmp := by
  generalize hthread : (⟨.exec (.createNew p) cont, opened, written⟩ : Thread StoreError Unit) = thread
    at hstage
  cases hstage with
  | creating =>
      cases hthread
      rfl
  | writing n written hapart hown hcontent => cases hthread
  | syncing n hapart hown hcontent => cases hthread
  | moving n hapart hown hcomplete => cases hthread
  | syncingDir n hapart hplaced => cases hthread
  | cleaning e opened => cases hthread
  | failed e opened => cases hthread
  | returned opened hsealed => cases hthread

theorem Stage.removeFile {p : FilePath} {cont : Except IoError Unit → StoreM Unit}
    {opened : Option (FilePath × Nat)} {written : Nat}
    (hstage : Stage alone apart m tmp finalPath bytes ⟨.exec (.removeFile p) cont, opened, written⟩) :
    p = tmp := by
  generalize hthread : (⟨.exec (.removeFile p) cont, opened, written⟩ : Thread StoreError Unit) = thread
    at hstage
  cases hstage with
  | cleaning e opened =>
      cases hthread
      rfl
  | creating => cases hthread
  | writing n written hapart hown hcontent => cases hthread
  | syncing n hapart hown hcontent => cases hthread
  | moving n hapart hown hcomplete => cases hthread
  | syncingDir n hapart hplaced => cases hthread
  | failed e opened => cases hthread
  | returned opened hsealed => cases hthread

/-- What a writer moves is the file that it has created. -/
theorem Stage.rename {src dst : FilePath} {cont : Except IoError Unit → StoreM Unit}
    {opened : Option (FilePath × Nat)} {written : Nat}
    (hstage : Stage alone apart m tmp finalPath bytes ⟨.exec (.rename src dst) cont, opened, written⟩) :
    ∃ n, m.entry src = some (.file n) ∧ opened = some (src, n) := by
  generalize hthread : (⟨.exec (.rename src dst) cont, opened, written⟩ : Thread StoreError Unit) = thread
    at hstage
  cases hstage with
  | moving n hapart hown hcomplete =>
      cases hthread
      exact ⟨n, hown.1, rfl⟩
  | creating => cases hthread
  | writing n written hapart hown hcontent => cases hthread
  | syncing n hapart hown hcontent => cases hthread
  | syncingDir n hapart hplaced => cases hthread
  | cleaning e opened => cases hthread
  | failed e opened => cases hthread
  | returned opened hsealed => cases hthread

theorem Stage.sealed {thread : Thread StoreError Unit} (hstage : Stage alone apart m tmp finalPath bytes thread)
    (hreturned : thread.program = .done ()) (ha : alone) : Sealed m finalPath bytes := by
  cases hstage with
  | returned opened hsealed => exact hsealed ha
  | creating => cases hreturned
  | writing n written hapart hown hcontent => cases hreturned
  | syncing n hapart hown hcontent => cases hreturned
  | moving n hapart hown hcomplete => cases hreturned
  | syncingDir n hapart hplaced => cases hreturned
  | cleaning e opened => cases hreturned
  | failed e opened => cases hreturned

end Calls

end Store
