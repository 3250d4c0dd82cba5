-- SUMMARY: A file system whose entries and contents are durable only once they are synced, and what a loss of power leaves of it.
import Cheget.Base.FileSystem
import Mathlib.Logic.Function.Basic

/-!
# What a loss of power leaves

A directory entry leads to a directory or to a file, and a file is written and
synced through a handle, whatever has become of its entry. What a file holds is
durable once the file was synced after the last write to it. An entry is durable
once its directory was synced after the last change to it: until then a loss of
power may bring back any value that it had since the sync before.
-/

inductive Entry where
  | dir
  /-- A file, by its number. -/
  | file (n : Nat)
  deriving DecidableEq

structure Medium where
  entry : FilePath → Option Entry
  /-- The former values of an entry that may come back. -/
  former : FilePath → List (Option Entry)
  content : Nat → Bytes
  /-- The content is durable. -/
  clean : Nat → Bool
  /-- The number of the next file. -/
  next : Nat

namespace Medium

/-! ## Operations -/

def hasDir (m : Medium) (p : FilePath) : Bool := m.entry p = some .dir || p.isEmpty

def hasFile (m : Medium) (p : FilePath) : Bool :=
  match m.entry p with
  | some (.file _) => true
  | _ => false

/-- The error of a path that leads nowhere: what is above it may be a file. -/
def missing (m : Medium) (p : FilePath) : IoError :=
  if (FileTree.ancestors p).any m.hasFile then .other 20 else .notFound

def read (m : Medium) (p : FilePath) : Except IoError Bytes :=
  match m.entry p with
  | some (.file n) => .ok (m.content n)
  | some .dir => .error (.other 21)
  | none => if p.isEmpty then .error (.other 21) else .error (m.missing p)

/-- Change an entry. -/
def link (m : Medium) (p : FilePath) (e : Option Entry) : Medium :=
  { m with
    entry := Function.update m.entry p e
    former := Function.update m.former p (m.entry p :: m.former p) }

/-- Create what is missing of a list of directories, in order. -/
def mkdirs : Medium → List FilePath → Except IoError Unit × Medium
  | m, [] => (.ok (), m)
  | m, p :: ps =>
      match m.entry p with
      | some .dir => mkdirs m ps
      | some (.file _) => (.error (if ps.isEmpty then .alreadyExists else .other 20), m)
      | none => mkdirs (m.link p (some .dir)) ps

/-- A new file, empty and with nothing synced. -/
def alloc (m : Medium) : Medium :=
  { m with
    content := Function.update m.content m.next []
    clean := Function.update m.clean m.next false
    next := m.next + 1 }

/-- Create a file, which must not exist yet; the response is its number. -/
def createNew (m : Medium) (p : FilePath) : Except IoError Nat × Medium :=
  if p.isEmpty || (m.entry p).isSome then (.error .alreadyExists, m)
  else if m.hasDir p.dropLast then (.ok m.next, m.alloc.link p (some (.file m.next)))
  else (.error (m.missing p), m)

/-- Write to the end of a file. -/
def write (m : Medium) (n : Nat) (bytes : Bytes) : Medium :=
  { m with
    content := Function.update m.content n (m.content n ++ bytes)
    clean := Function.update m.clean n false }

def sync (m : Medium) (n : Nat) : Medium := { m with clean := Function.update m.clean n true }

def syncDir (m : Medium) (dir : FilePath) : Medium :=
  { m with former := fun p => if p ≠ [] ∧ p.dropLast = dir then [] else m.former p }

/-- Move a file over whatever file is at the destination. -/
def rename (m : Medium) (src dst : FilePath) : Except IoError Unit × Medium :=
  match m.entry src with
  | some (.file n) =>
      if m.hasDir dst then (.error (.other 21), m)
      else if m.hasDir dst.dropLast then (.ok (), (m.link src none).link dst (some (.file n)))
      else (.error (m.missing dst), m)
  | some .dir => (.error (.other 21), m)
  | none => (.error (m.missing src), m)

def removeFile (m : Medium) (p : FilePath) : Except IoError Unit × Medium :=
  match m.entry p with
  | some (.file _) => (.ok (), m.link p none)
  | some .dir => (.error (.other 21), m)
  | none => (.error (m.missing p), m)

/-! ## Loss of power -/

/-- A value that an entry has, or may have after a loss of power. -/
def MayHold (m : Medium) (p : FilePath) (e : Option Entry) : Prop := e = m.entry p ∨ e ∈ m.former p

/-- The medium after a restart: `kept` is what is left of the entries, and `found`
    what is in a file that was not synced. What is below a lost directory is lost. -/
def recover (m : Medium) (kept : FilePath → Option Entry) (found : Nat → Bytes) : Medium where
  entry p := if ∀ q ∈ FileTree.ancestors p.dropLast, kept q = some .dir then kept p else none
  former _ := []
  content n := if m.clean n then m.content n else found n
  clean _ := true
  next := m.next

/-! ## What an operation can do -/

variable {m m' : Medium} {p q : FilePath} {e e' : Option Entry}

theorem createNew_cases (m : Medium) (p : FilePath) :
    (∃ e, m.createNew p = (.error e, m)) ∨
      m.createNew p = (.ok m.next, m.alloc.link p (some (.file m.next))) := by
  unfold createNew
  split
  · exact Or.inl ⟨_, rfl⟩
  · split
    · exact Or.inr rfl
    · exact Or.inl ⟨_, rfl⟩

theorem entry_of_createNew {n : Nat} (h : m.createNew p = (.ok n, m')) : m.entry p = none := by
  unfold createNew at h
  split at h
  · cases h
  · next hfree =>
      simp only [Bool.or_eq_true, not_or, Bool.not_eq_true, Option.isSome_eq_false_iff] at hfree
      exact Option.isNone_iff_eq_none.mp hfree.2

theorem rename_cases (m : Medium) (src dst : FilePath) :
    (∃ e, m.rename src dst = (.error e, m)) ∨
      ∃ n, m.entry src = some (.file n) ∧
        m.rename src dst = (.ok (), (m.link src none).link dst (some (.file n))) := by
  unfold rename
  split
  · next n hsrc =>
      split
      · exact Or.inl ⟨_, rfl⟩
      · split
        · exact Or.inr ⟨n, hsrc, rfl⟩
        · exact Or.inl ⟨_, rfl⟩
  · exact Or.inl ⟨_, rfl⟩
  · exact Or.inl ⟨_, rfl⟩

theorem removeFile_cases (m : Medium) (p : FilePath) :
    (∃ e, m.removeFile p = (.error e, m)) ∨ m.removeFile p = (.ok (), m.link p none) := by
  unfold removeFile
  split
  · exact Or.inr rfl
  · exact Or.inl ⟨_, rfl⟩
  · exact Or.inl ⟨_, rfl⟩

theorem entry_of_removeFile (h : m.removeFile p = (.ok (), m')) : ∃ n, m.entry p = some (.file n) := by
  unfold removeFile at h
  split at h
  · next n hentry => exact ⟨n, hentry⟩
  · cases h
  · cases h

theorem read_of_entry {n : Nat} (h : m.entry p = some (.file n)) : m.read p = .ok (m.content n) := by
  rw [read, h]

theorem read_ne_ok_of_entry (h : m.entry p = none) (bytes : Bytes) : m.read p ≠ .ok bytes := by
  simp only [read, h]
  split
  · exact fun h => nomatch h
  · exact fun h => nomatch h

/-! ## Entries after an operation -/

theorem mayHold_entry (m : Medium) (p : FilePath) : m.MayHold p (m.entry p) := Or.inl rfl

theorem mayHold_link_self : (m.link p e).MayHold p e' ↔ e' = e ∨ m.MayHold p e' := by
  simp [MayHold, link]

theorem mayHold_link_of_ne (h : q ≠ p) : (m.link p e).MayHold q e' ↔ m.MayHold q e' := by
  simp [MayHold, link, h]

@[simp] theorem entry_link_self : (m.link p e).entry p = e := Function.update_self _ _ _

theorem entry_link_of_ne (h : q ≠ p) : (m.link p e).entry q = m.entry q :=
  Function.update_of_ne h _ _

theorem former_link_of_ne (h : q ≠ p) : (m.link p e).former q = m.former q :=
  Function.update_of_ne h _ _

theorem former_syncDir_subset (m : Medium) (dir p : FilePath) :
    (m.syncDir dir).former p ⊆ m.former p := by
  simp only [syncDir]
  split
  · exact List.nil_subset _
  · exact List.Subset.refl _

theorem former_syncDir_self (m : Medium) {dir p : FilePath} (hp : p ≠ []) (hdir : p.dropLast = dir) :
    (m.syncDir dir).former p = [] := if_pos ⟨hp, hdir⟩

/-- No value is added to an entry. -/
def Steady (m m' : Medium) (p : FilePath) : Prop :=
  m'.entry p = m.entry p ∧ m'.former p ⊆ m.former p

theorem Steady.refl (m : Medium) (p : FilePath) : m.Steady m p := ⟨rfl, List.Subset.refl _⟩

theorem Steady.mayHold {e : Option Entry} (h : m.Steady m' p) (he : m'.MayHold p e) : m.MayHold p e :=
  he.imp (fun he => he.trans h.1) (fun he => h.2 he)

theorem steady_link (hne : p ≠ q) (e : Option Entry) : m.Steady (m.link q e) p :=
  ⟨entry_link_of_ne hne, by rw [former_link_of_ne hne]; exact List.Subset.refl _⟩

/-- A durable entry has one value. -/
theorem MayHold.eq_entry (h : m.MayHold p e) (hformer : m.former p = []) : e = m.entry p := by
  apply h.resolve_right
  rw [hformer]
  exact List.not_mem_nil

/-- The directories above the path are there, and durable. -/
def Founded (m : Medium) (p : FilePath) : Prop :=
  ∀ q ∈ FileTree.ancestors p.dropLast, m.entry q = some .dir ∧ m.former q = []

theorem Founded.steady (hp : m.Founded p) (h : ∀ q ∈ FileTree.ancestors p.dropLast, m.Steady m' q) :
    m'.Founded p := by
  intro q hq
  obtain ⟨hentry, hformer⟩ := hp q hq
  have hsubset := (h q hq).2
  rw [hformer] at hsubset
  exact ⟨(h q hq).1.trans hentry, List.subset_nil.mp hsubset⟩

theorem Founded.link (hp : m.Founded p) (hnone : m.entry q = none) : (m.link q (some .dir)).Founded p := by
  intro r hr
  obtain ⟨hentry, hformer⟩ := hp r hr
  have hne : r ≠ q := by
    rintro rfl
    cases hnone.symm.trans hentry
  exact ⟨(entry_link_of_ne hne).trans hentry, (former_link_of_ne hne).trans hformer⟩

/-- Below directories there is no file in the way. -/
theorem missing_of_founded (hp : m.Founded p) (hnone : m.entry p = none) : m.missing p = .notFound := by
  apply if_neg
  rw [List.any_eq_true]
  rintro ⟨q, hq, hfile⟩
  obtain ⟨hne, hpre⟩ := FileTree.mem_ancestors.mp hq
  unfold hasFile at hfile
  by_cases hqp : q = p
  · rw [hqp, hnone] at hfile
    cases hfile
  · have hlt : q.length < p.length := lt_of_le_of_ne hpre.length_le (fun h => hqp (hpre.eq_of_length h))
    have habove : q <+: p.dropLast :=
      List.prefix_of_prefix_length_le hpre (List.dropLast_prefix p) (by rw [List.length_dropLast]; omega)
    rw [(hp q (FileTree.mem_ancestors.mpr ⟨hne, habove⟩)).1] at hfile
    cases hfile

/-- An entry is found below directories that are durable. -/
theorem entry_recover {kept : FilePath → Option Entry} (hkept : ∀ p, m.MayHold p (kept p))
    (found : Nat → Bytes) (hp : m.Founded p) : (m.recover kept found).entry p = kept p := by
  apply if_pos
  intro q hq
  obtain ⟨hentry, hformer⟩ := hp q hq
  exact ((hkept q).eq_entry hformer).trans hentry

theorem Founded.recover {kept : FilePath → Option Entry} (hkept : ∀ p, m.MayHold p (kept p))
    (found : Nat → Bytes) (hp : m.Founded p) : (m.recover kept found).Founded p := by
  intro q hq
  obtain ⟨hentry, hformer⟩ := hp q hq
  refine ⟨?_, rfl⟩
  rw [entry_recover hkept]
  · exact ((hkept q).eq_entry hformer).trans hentry
  · intro r hr
    apply hp
    obtain ⟨hne, hpre⟩ := FileTree.mem_ancestors.mp hr
    apply FileTree.mem_ancestors.mpr
    exact ⟨hne, (hpre.trans (List.dropLast_prefix q)).trans (FileTree.mem_ancestors.mp hq).2⟩

/-- Below durable directories, what is found was there before. -/
theorem Founded.mayHold_recover {kept : FilePath → Option Entry} (hkept : ∀ p, m.MayHold p (kept p))
    (found : Nat → Bytes) (hp : m.Founded p) (he : (m.recover kept found).MayHold p e) :
    m.MayHold p e := by
  have hentry := he.resolve_right List.not_mem_nil
  rw [entry_recover hkept found hp] at hentry
  rw [hentry]
  exact hkept p

/-- Nothing is found below a directory that is lost. -/
theorem entry_recover_of_lost {kept : FilePath → Option Entry} (hq : q ∈ FileTree.ancestors p.dropLast)
    (hlost : kept q ≠ some .dir) (found : Nat → Bytes) : (m.recover kept found).entry p = none :=
  if_neg (fun h => hlost (h q hq))

/-- What is found after a restart was there before, or nothing is. -/
theorem mayHold_recover {kept : FilePath → Option Entry} {found : Nat → Bytes}
    (hkept : ∀ p, m.MayHold p (kept p)) (h : (m.recover kept found).MayHold p e) :
    e = none ∨ m.MayHold p e := by
  have hentry : e = (m.recover kept found).entry p := h.resolve_right List.not_mem_nil
  subst hentry
  simp only [recover]
  split
  · exact Or.inr (hkept p)
  · exact Or.inl rfl

end Medium
