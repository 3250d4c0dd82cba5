-- SUMMARY: A file system behind system calls that may fail at any point, and what each call can change.
import Cheget.Base.BTreeMap
import Cheget.Base.Bytes
import Cheget.Base.Program
import Cheget.Base.Text
import Mathlib.Data.List.Lex
import Mathlib.Data.String.Basic

/-!
# A file system

A path is its list of components, and the tree has a node at every path in use;
the empty path is the root directory. A call either has its effect or fails. A
failing call may have done a part of its work: a failing write has written some
of the bytes, a failing recursive creation has created some of the directories,
and a failing recursive removal has removed some of the files. The environment
decides which calls fail, and how far they got.
-/

/-- The components of a path. -/
abbrev FilePath := List String

instance FilePath.transCmp : Std.TransCmp (@compare FilePath LinearOrder.toOrd) :=
  BTreeMap.transCmp

inductive IoError where
  | notFound
  | alreadyExists
  | other (code : Nat)
  deriving DecidableEq

inductive FileNode where
  | dir
  | file (content : Bytes)
  deriving DecidableEq

abbrev FileTree := BTreeMap FilePath FileNode

/-! ## System calls -/

inductive SysOp where
  | isDir (path : FilePath)
  | createDirAll (path : FilePath)
  /-- Create a file, which must not exist yet. -/
  | createNew (path : FilePath)
  /-- Create a file, or empty it if it exists. -/
  | createTruncate (path : FilePath)
  /-- Write to the end of a file. -/
  | writeAll (path : FilePath) (bytes : Bytes)
  | syncAll (path : FilePath)
  | rename (src dst : FilePath)
  | removeFile (path : FilePath)
  /-- Remove a directory and all below it. -/
  | removeDirAll (path : FilePath)
  | read (path : FilePath)
  | readDir (path : FilePath)
  | uniqueSuffix
  | unixTime
  | entropy

abbrev SysOp.Resp : SysOp → Type
  | .isDir _ => Bool
  | .createDirAll _ => Except IoError Unit
  | .createNew _ => Except IoError Unit
  | .createTruncate _ => Except IoError Unit
  | .writeAll _ _ => Except IoError Unit
  | .syncAll _ => Except IoError Unit
  | .rename _ _ => Except IoError Unit
  | .removeFile _ => Except IoError Unit
  | .removeDirAll _ => Except IoError Unit
  | .read _ => Except IoError Bytes
  | .readDir _ => Except IoError (List (Except IoError String))
  | .uniqueSuffix => String
  | .unixTime => UInt64
  | .entropy => Bytes

/-- Programs that make system calls. -/
abbrev SysM (ε α : Type) := Program SysOp SysOp.Resp ε α

def sys {ε : Type} (op : SysOp) : SysM ε op.Resp := Program.perform op

namespace FileTree

/-! ## Effects on the tree -/

def hasDir (t : FileTree) (p : FilePath) : Bool :=
  match t[p]? with
  | some .dir => true
  | _ => p.isEmpty

/-- The path and the directories above it, outermost first. -/
def ancestors (p : FilePath) : List FilePath := (List.range p.length).map (fun n => p.take (n + 1))

def hasFile (t : FileTree) (p : FilePath) : Bool :=
  match t[p]? with
  | some (.file _) => true
  | _ => false

/-- The error of a path that leads nowhere: what is above it may be a file. -/
def missing (t : FileTree) (p : FilePath) : IoError :=
  if (ancestors p).any t.hasFile then .other 20 else .notFound

/-- Create what is missing of a list of directories, in order. -/
def mkdirs : FileTree → List FilePath → Except IoError Unit × FileTree
  | t, [] => (.ok (), t)
  | t, p :: ps =>
      match t[p]? with
      | some .dir => mkdirs t ps
      | some (.file _) => (.error (if ps.isEmpty then .alreadyExists else .other 20), t)
      | none => mkdirs (t.insert p .dir) ps

def createNew (t : FileTree) (p : FilePath) : Except IoError Unit × FileTree :=
  if p.isEmpty || t[p]?.isSome then (.error .alreadyExists, t)
  else if t.hasDir p.dropLast then (.ok (), t.insert p (.file []))
  else (.error (t.missing p), t)

def createTruncate (t : FileTree) (p : FilePath) : Except IoError Unit × FileTree :=
  if t.hasDir p then (.error (.other 21), t)
  else if t.hasDir p.dropLast then (.ok (), t.insert p (.file []))
  else (.error (t.missing p), t)

def writeAll (t : FileTree) (p : FilePath) (bytes : Bytes) : Except IoError Unit × FileTree :=
  match t[p]? with
  | some (.file content) => (.ok (), t.insert p (.file (content ++ bytes)))
  | some .dir => (.error (.other 21), t)
  | none => (.error (t.missing p), t)

/-- Move a file over whatever file is at the destination, in one step. -/
def rename (t : FileTree) (src dst : FilePath) : Except IoError Unit × FileTree :=
  match t[src]? with
  | some (.file content) =>
      if t.hasDir dst then (.error (.other 21), t)
      else if t.hasDir dst.dropLast then (.ok (), (t.erase src).insert dst (.file content))
      else (.error (t.missing dst), t)
  | some .dir => (.error (.other 21), t)
  | none => (.error (t.missing src), t)

def removeFile (t : FileTree) (p : FilePath) : Except IoError Unit × FileTree :=
  match t[p]? with
  | some (.file _) => (.ok (), t.erase p)
  | some .dir => (.error (.other 21), t)
  | none => (.error (t.missing p), t)

/-- Remove what is at each of these paths. -/
def removeAll (t : FileTree) (ps : List FilePath) : FileTree := ps.foldl (fun t p => t.erase p) t

/-- What is removed with a directory, what is below it first. -/
def subtree (t : FileTree) (p : FilePath) : List FilePath :=
  (t.keys.filter (fun q => decide (p <+: q))).reverse

def removeDirAll (t : FileTree) (p : FilePath) : Except IoError Unit × FileTree :=
  match t[p]? with
  | some .dir => (.ok (), t.removeAll (t.subtree p))
  | some (.file _) => (.error (.other 20), t)
  | none => (.error (t.missing p), t)

def read (t : FileTree) (p : FilePath) : Except IoError Bytes :=
  match t[p]? with
  | some (.file content) => .ok content
  | some .dir => .error (.other 21)
  | none => if p.isEmpty then .error (.other 21) else .error (t.missing p)

/-- The names in a directory. -/
def names (t : FileTree) (p : FilePath) : List String :=
  t.keys.filterMap (fun q => if q.dropLast = p then q.getLast? else none)

end FileTree

/-! ## Running -/

/-- Which calls fail, how far they get, and what the process is told. Calls are
    numbered in order. -/
structure SysEnv where
  fault : Nat → Option IoError
  progress : Nat → Nat
  suffix : Nat → String
  time : Nat → UInt64
  random : Nat → Bytes
  /-- The directory entries that cannot be read. -/
  unreadable : Nat → String → Bool

/-- A tree, and the number of calls made so far. -/
structure Disk where
  tree : FileTree
  tick : Nat

namespace SysEnv

variable (env : SysEnv)

/-- A call without a fault, or the fault and no effect. -/
def guarded {α : Type} (tick : Nat) (t : FileTree) (out : Except IoError α × FileTree) :
    Except IoError α × FileTree :=
  match env.fault tick with
  | some e => (.error e, t)
  | none => out

/-- The response and the effect of the call number `tick`. -/
def act (tick : Nat) (t : FileTree) : (op : SysOp) → op.Resp × FileTree
  | .isDir p => ((env.fault tick).isNone && t.hasDir p, t)
  | .createDirAll p =>
      match env.fault tick with
      | some e => (.error e, (t.mkdirs ((FileTree.ancestors p).take (env.progress tick))).2)
      | none => t.mkdirs (FileTree.ancestors p)
  | .createNew p => env.guarded tick t (t.createNew p)
  | .createTruncate p => env.guarded tick t (t.createTruncate p)
  | .writeAll p bytes =>
      match env.fault tick with
      | some e => (.error e, (t.writeAll p (bytes.take (env.progress tick))).2)
      | none => t.writeAll p bytes
  | .syncAll _ => env.guarded tick t (.ok (), t)
  | .rename src dst => env.guarded tick t (t.rename src dst)
  | .removeFile p => env.guarded tick t (t.removeFile p)
  | .removeDirAll p =>
      match env.fault tick with
      | some e => (.error e, t.removeAll ((t.subtree p).take (env.progress tick)))
      | none => t.removeDirAll p
  | .read p => env.guarded tick t (t.read p, t)
  | .readDir p =>
      env.guarded tick t
        (if t.hasDir p then
          .ok ((t.names p).map (fun name =>
            if env.unreadable tick name then .error (.other 5) else .ok name))
        else .error (t.missing p), t)
  | .uniqueSuffix => (env.suffix tick, t)
  | .unixTime => (env.time tick, t)
  | .entropy => (env.random tick, t)

/-- The file system as a handler. -/
def world : Handler SysOp SysOp.Resp Disk :=
  fun op d => ((env.act d.tick d.tree op).1, ⟨(env.act d.tick d.tree op).2, d.tick + 1⟩)

/-- An environment in which every call succeeds. -/
def calm : SysEnv where
  fault _ := none
  progress _ := 0
  suffix tick := toString tick
  time _ := 0
  random _ := []
  unreadable _ _ := false

theorem suffix_calm_injective : Function.Injective calm.suffix := fun _ _ h => Nat.toString_injective h

end SysEnv

/-- The file that a call has put in place, complete, in one step. -/
def replaced : Event SysOp SysOp.Resp → Option FilePath
  | ⟨.rename _ dst, .ok ()⟩ => some dst
  | _ => none

/-- The paths that a call is given. -/
def SysOp.paths : SysOp → List FilePath
  | .isDir p => [p]
  | .createDirAll p => [p]
  | .createNew p => [p]
  | .createTruncate p => [p]
  | .writeAll p _ => [p]
  | .syncAll p => [p]
  | .rename src dst => [src, dst]
  | .removeFile p => [p]
  | .removeDirAll p => [p]
  | .read p => [p]
  | .readDir p => [p]
  | .uniqueSuffix => []
  | .unixTime => []
  | .entropy => []

/-- The paths at which a call may make a file, or remove one with all that is below it. -/
def SysOp.filePaths : SysOp → List FilePath
  | .createNew p => [p]
  | .createTruncate p => [p]
  | .writeAll p _ => [p]
  | .rename src dst => [src, dst]
  | .removeFile p => [p]
  | .removeDirAll p => [p]
  | _ => []

/-! ## What a call can change -/

/-- The paths at which a call may change the tree. -/
def SysOp.Touches : SysOp → FilePath → Prop
  | .createDirAll p, q => q ∈ FileTree.ancestors p
  | .createNew p, q => q = p
  | .createTruncate p, q => q = p
  | .writeAll p _, q => q = p
  | .rename src dst, q => q = src ∨ q = dst
  | .removeFile p, q => q = p
  | .removeDirAll p, q => p <+: q
  | _, _ => False

namespace FileTree

theorem mem_ancestors {p q : FilePath} : q ∈ ancestors p ↔ q ≠ [] ∧ q <+: p := by
  unfold ancestors
  rw [List.mem_map]
  constructor
  · rintro ⟨n, hn, rfl⟩
    have hlt := List.mem_range.mp hn
    refine ⟨?_, List.take_prefix _ _⟩
    rw [← List.length_pos_iff, List.length_take]
    omega
  · rintro ⟨hne, hpre⟩
    have hpos := List.length_pos_iff.mpr hne
    have hle := hpre.length_le
    refine ⟨q.length - 1, List.mem_range.mpr (by omega), ?_⟩
    rw [Nat.sub_add_cancel hpos, ← List.prefix_iff_eq_take.mp hpre]

/-- Creating directories adds directories and nothing else. -/
theorem getElem?_mkdirs (t : FileTree) (ps : List FilePath) (q : FilePath) :
    (t.mkdirs ps).2[q]? = t[q]? ∨
      (t[q]? = none ∧ (t.mkdirs ps).2[q]? = some .dir ∧ q ∈ ps) := by
  induction ps generalizing t with
  | nil => exact Or.inl rfl
  | cons p ps ih =>
      unfold mkdirs
      split
      · exact (ih t).imp_right (fun ⟨h, h', hmem⟩ => ⟨h, h', List.mem_cons_of_mem p hmem⟩)
      · exact Or.inl rfl
      · next hnone =>
          rcases ih (t.insert p .dir) with h | ⟨h, h', hmem⟩
          · rw [h, BTreeMap.getElem?_insert]
            by_cases hpq : p = q
            · subst hpq
              exact Or.inr ⟨hnone, by simp, List.mem_cons_self⟩
            · simp [hpq]
          · rw [BTreeMap.getElem?_insert] at h
            split at h
            · cases h
            · exact Or.inr ⟨h, h', List.mem_cons_of_mem p hmem⟩

theorem getElem?_removeAll (t : FileTree) (ps : List FilePath) (q : FilePath) :
    (t.removeAll ps)[q]? = if q ∈ ps then none else t[q]? := by
  unfold removeAll
  induction ps generalizing t with
  | nil => simp
  | cons p ps ih =>
      rw [List.foldl_cons, ih, BTreeMap.getElem?_erase]
      by_cases hpq : p = q
      · simp [hpq]
      · simp [hpq, Ne.symm hpq]

theorem mem_subtree {t : FileTree} {p q : FilePath} : q ∈ t.subtree p ↔ t[q]? ≠ none ∧ p <+: q := by
  unfold subtree
  rw [List.mem_reverse, List.mem_filter, BTreeMap.mem_keys, Option.ne_none_iff_exists', decide_eq_true_eq]

theorem read_eq_ok {t : FileTree} {p : FilePath} {bytes : Bytes} :
    t.read p = .ok bytes ↔ t[p]? = some (.file bytes) := by
  unfold read
  split
  · next content hp => rw [hp, Except.ok.injEq, Option.some.injEq, FileNode.file.injEq]
  · next hp => simp [hp]
  · next hp =>
      rw [hp]
      split <;> simp

/-- What is read depends on the file alone; why nothing is read does not. -/
theorem read_congr {t t' : FileTree} {p : FilePath} (h : t[p]? = t'[p]?) (bytes : Bytes) :
    t.read p = .ok bytes ↔ t'.read p = .ok bytes := by
  rw [read_eq_ok, read_eq_ok, h]

theorem missing_eq_notFound {t : FileTree} {p : FilePath} :
    t.missing p = .notFound ↔ ∀ q, q ≠ [] → q <+: p → t.hasFile q = false := by
  unfold missing
  split
  · next hfile =>
      obtain ⟨q, hq, hfile⟩ := List.any_eq_true.mp hfile
      obtain ⟨hne, hpre⟩ := mem_ancestors.mp hq
      simp only [reduceCtorEq, false_iff]
      exact fun h => by simp [h q hne hpre] at hfile
  · next hnone =>
      simp only [true_iff]
      intro q hne hpre
      exact Bool.eq_false_iff.mpr (fun hfile =>
        hnone (List.any_eq_true.mpr ⟨q, mem_ancestors.mpr ⟨hne, hpre⟩, hfile⟩))

theorem missing_congr {t t' : FileTree} {p : FilePath}
    (h : ∀ q, q <+: p → t'.hasFile q = t.hasFile q) : t'.missing p = t.missing p := by
  have hany : (ancestors p).any t'.hasFile = (ancestors p).any t.hasFile := by
    rw [Bool.eq_iff_iff, List.any_eq_true, List.any_eq_true]
    exact exists_congr (fun q => and_congr_right (fun hq => by rw [h q (mem_ancestors.mp hq).2]))
  rw [missing, missing, hany]

/-- What a read answers depends on the node, and on the files above it. -/
theorem read_congr_above {t t' : FileTree} {p : FilePath} (h : t'[p]? = t[p]?)
    (habove : ∀ q, q <+: p → q ≠ p → t'.hasFile q = t.hasFile q) : t'.read p = t.read p := by
  have hmissing : t'.missing p = t.missing p := by
    refine missing_congr (fun q hq => ?_)
    by_cases hqp : q = p
    · rw [hasFile, hasFile, hqp, h]
    · exact habove q hq hqp
  rw [read, read, h, hmissing]

theorem getElem?_writeAll_of_ne (t : FileTree) {p q : FilePath} (bytes : Bytes) (hq : q ≠ p) :
    (t.writeAll p bytes).2[q]? = t[q]? := by
  unfold writeAll
  split <;> simp [Ne.symm hq]

end FileTree

namespace SysEnv

variable {env : SysEnv} {tick : Nat} {t : FileTree} {q : FilePath}

theorem guarded_snd {α : Type} {out : Except IoError α × FileTree} (h : out.2[q]? = t[q]?) :
    (env.guarded tick t out).2[q]? = t[q]? := by
  unfold guarded
  split
  · rfl
  · exact h

/-- A call leaves alone what it does not touch. -/
theorem act_frame {op : SysOp} (h : ¬ op.Touches q) : (env.act tick t op).2[q]? = t[q]? := by
  cases op with
  | createDirAll p =>
      have hnot : ∀ ps, (∀ x ∈ ps, x ∈ FileTree.ancestors p) → (t.mkdirs ps).2[q]? = t[q]? :=
        fun ps hps => (t.getElem?_mkdirs ps q).resolve_right (fun hdir => h (hps q hdir.2.2))
      simp only [act]
      split
      · exact hnot _ (fun x hx => List.mem_of_mem_take hx)
      · exact hnot _ (fun x hx => hx)
  | createNew p =>
      refine guarded_snd ?_
      unfold FileTree.createNew
      split
      · rfl
      · split
        · simp [Ne.symm (show q ≠ p from h)]
        · rfl
  | createTruncate p =>
      refine guarded_snd ?_
      unfold FileTree.createTruncate
      split
      · rfl
      · split
        · simp [Ne.symm (show q ≠ p from h)]
        · rfl
  | writeAll p bytes =>
      simp only [act]
      split
      · exact t.getElem?_writeAll_of_ne _ h
      · exact t.getElem?_writeAll_of_ne _ h
  | rename src dst =>
      obtain ⟨hsrc, hdst⟩ := not_or.mp h
      refine guarded_snd ?_
      unfold FileTree.rename
      split
      · split
        · rfl
        · split
          · simp [Ne.symm hsrc, Ne.symm hdst]
          · rfl
      · rfl
      · rfl
  | removeFile p =>
      refine guarded_snd ?_
      unfold FileTree.removeFile
      split
      · simp [Ne.symm (show q ≠ p from h)]
      · rfl
      · rfl
  | removeDirAll p =>
      have hnot : ∀ ps, (∀ x ∈ ps, x ∈ t.subtree p) → (t.removeAll ps)[q]? = t[q]? := fun ps hps => by
        rw [t.getElem?_removeAll, if_neg (fun hmem => h (FileTree.mem_subtree.mp (hps q hmem)).2)]
      simp only [act]
      split
      · exact hnot _ (fun x hx => List.mem_of_mem_take hx)
      · unfold FileTree.removeDirAll
        split
        · exact hnot _ (fun x hx => hx)
        · rfl
        · rfl
  | isDir p => rfl
  | syncAll p => exact guarded_snd rfl
  | read p => exact guarded_snd rfl
  | readDir p => exact guarded_snd rfl
  | uniqueSuffix => rfl
  | unixTime => rfl
  | entropy => rfl

/-- Only at, or above, the paths that a call makes or removes files at can it change
    whether there is a file. -/
theorem hasFile_act {op : SysOp} (h : ∀ p ∈ op.filePaths, ¬ p <+: q) :
    (env.act tick t op).2.hasFile q = t.hasFile q := by
  by_cases htouch : op.Touches q
  · cases op with
    | createDirAll p =>
        have hmkdirs (ps : List FilePath) : (t.mkdirs ps).2.hasFile q = t.hasFile q := by
          rcases t.getElem?_mkdirs ps q with hsame | ⟨hnone, hdir, -⟩
          · rw [FileTree.hasFile, FileTree.hasFile, hsame]
          · rw [FileTree.hasFile, FileTree.hasFile, hdir, hnone]
        simp only [act]
        split
        · exact hmkdirs _
        · exact hmkdirs _
    | createNew p => exact absurd (htouch ▸ List.prefix_rfl) (h p List.mem_cons_self)
    | createTruncate p => exact absurd (htouch ▸ List.prefix_rfl) (h p List.mem_cons_self)
    | writeAll p bytes => exact absurd (htouch ▸ List.prefix_rfl) (h p List.mem_cons_self)
    | rename src dst =>
        rcases htouch with rfl | rfl
        · exact absurd List.prefix_rfl (h q List.mem_cons_self)
        · exact absurd List.prefix_rfl (h q (List.mem_cons_of_mem _ List.mem_cons_self))
    | removeFile p => exact absurd (htouch ▸ List.prefix_rfl) (h p List.mem_cons_self)
    | removeDirAll p => exact absurd htouch (h p List.mem_cons_self)
    | isDir p => exact htouch.elim
    | syncAll p => exact htouch.elim
    | read p => exact htouch.elim
    | readDir p => exact htouch.elim
    | uniqueSuffix => exact htouch.elim
    | unixTime => exact htouch.elim
    | entropy => exact htouch.elim
  · rw [FileTree.hasFile, FileTree.hasFile, act_frame htouch]

end SysEnv

/-! ## What a call has done -/

namespace SysEnv

variable {env : SysEnv} {tick : Nat} {t : FileTree}

theorem guarded_ok {α : Type} {out : Except IoError α × FileTree} {a : α}
    (h : (env.guarded tick t out).1 = .ok a) : env.guarded tick t out = out := by
  unfold guarded at h ⊢
  split at h
  · cases h
  · rfl

/-- A call that fails at once changes nothing. -/
theorem guarded_error {α : Type} {out : Except IoError α × FileTree} {e : IoError}
    (hout : ∀ e, out.1 = .error e → out.2 = t) (h : (env.guarded tick t out).1 = .error e) :
    (env.guarded tick t out).2 = t := by
  unfold guarded at h ⊢
  split at h
  · rfl
  · exact hout e h

theorem act_createNew_ok {p : FilePath} (h : (env.act tick t (.createNew p)).1 = .ok ()) :
    (env.act tick t (.createNew p)).2 = t.insert p (.file []) := by
  simp only [act] at h ⊢
  have hout := guarded_ok h
  rw [hout] at h ⊢
  revert h
  unfold FileTree.createNew
  split
  · exact fun h => nomatch h
  · split
    · exact fun _ => rfl
    · exact fun h => nomatch h

theorem act_createTruncate_ok {p : FilePath} (h : (env.act tick t (.createTruncate p)).1 = .ok ()) :
    (env.act tick t (.createTruncate p)).2 = t.insert p (.file []) := by
  simp only [act] at h ⊢
  have hout := guarded_ok h
  rw [hout] at h ⊢
  revert h
  unfold FileTree.createTruncate
  split
  · exact fun h => nomatch h
  · split
    · exact fun _ => rfl
    · exact fun h => nomatch h

theorem act_writeAll_ok {p : FilePath} {bytes content : Bytes} (ht : t[p]? = some (.file content))
    (h : (env.act tick t (.writeAll p bytes)).1 = .ok ()) :
    (env.act tick t (.writeAll p bytes)).2 = t.insert p (.file (content ++ bytes)) := by
  simp only [act] at h ⊢
  split at h
  · cases h
  · rw [FileTree.writeAll, ht]

/-- Only a file is written to. -/
theorem exists_of_act_writeAll_ok {p : FilePath} {bytes : Bytes}
    (h : (env.act tick t (.writeAll p bytes)).1 = .ok ()) : ∃ content, t[p]? = some (.file content) := by
  simp only [act] at h
  split at h
  · cases h
  · revert h
    unfold FileTree.writeAll
    split
    · next content hcontent => exact fun _ => ⟨content, hcontent⟩
    · intro h
      cases h
    · intro h
      cases h

theorem act_rename_ok {src dst : FilePath} (h : (env.act tick t (.rename src dst)).1 = .ok ()) :
    ∃ content, t[src]? = some (.file content) ∧
      (env.act tick t (.rename src dst)).2 = (t.erase src).insert dst (.file content) := by
  simp only [act] at h ⊢
  have hout := guarded_ok h
  rw [hout] at h ⊢
  revert h
  unfold FileTree.rename
  split
  · next content hsrc =>
      intro h
      refine ⟨content, hsrc, ?_⟩
      revert h
      split
      · exact fun h => nomatch h
      · split
        · exact fun _ => rfl
        · exact fun h => nomatch h
  · exact fun h => nomatch h
  · exact fun h => nomatch h

theorem act_rename_error {src dst : FilePath} {e : IoError}
    (h : (env.act tick t (.rename src dst)).1 = .error e) :
    (env.act tick t (.rename src dst)).2 = t := by
  refine guarded_error ?_ h
  intro e he
  revert he
  unfold FileTree.rename
  split
  · split
    · exact fun _ => rfl
    · split
      · exact fun he => nomatch he
      · exact fun _ => rfl
  · exact fun _ => rfl
  · exact fun _ => rfl

theorem act_read (h : env.fault tick = none) (p : FilePath) :
    (env.act tick t (.read p)).1 = t.read p := by
  simp only [act, guarded, h]

theorem act_read_ok {p : FilePath} {bytes : Bytes} (h : (env.act tick t (.read p)).1 = .ok bytes) :
    t[p]? = some (.file bytes) := by
  simp only [act] at h
  rw [guarded_ok h] at h
  exact FileTree.read_eq_ok.mp h

/-- Only a fault can make a file look missing. -/
theorem act_read_notFound (hfault : env.fault tick ≠ some .notFound) {p : FilePath}
    (h : (env.act tick t (.read p)).1 = .error .notFound) : t[p]? = none := by
  simp only [act, guarded] at h
  split at h
  · next e he =>
      cases h
      exact absurd he hfault
  · unfold FileTree.read at h
    split at h
    · cases h
    · cases h
    · assumption

theorem mem_names {p : FilePath} {name : String} : name ∈ t.names p ↔ t[p ++ [name]]? ≠ none := by
  unfold FileTree.names
  rw [List.mem_filterMap, Option.ne_none_iff_exists']
  constructor
  · rintro ⟨q, hq, hname⟩
    split at hname
    · next hdir =>
        have hpath : q = p ++ [name] := by
          rw [← hdir, List.dropLast_append_getLast? name hname]
        exact BTreeMap.mem_keys.mp (hpath ▸ hq)
    · cases hname
  · intro h
    exact ⟨p ++ [name], BTreeMap.mem_keys.mpr h, by simp⟩

/-- A listing names what the directory holds. -/
theorem act_readDir_ok {p : FilePath} {entries : List (Except IoError String)}
    (h : (env.act tick t (.readDir p)).1 = .ok entries) {name : String} (hname : .ok name ∈ entries) :
    t[p ++ [name]]? ≠ none := by
  simp only [act] at h
  rw [guarded_ok h] at h
  dsimp only at h
  split at h
  · cases h
    obtain ⟨name', hmem, heq⟩ := List.mem_map.mp hname
    split at heq
    · cases heq
    · cases heq
      exact mem_names.mp hmem
  · cases h

end SysEnv

/-- How a call makes, or changes, the file at a path. -/
inductive SysOp.Makes (t : FileTree) (q : FilePath) : Bytes → SysOp → Prop where
  | created : Makes t q [] (.createNew q)
  | truncated : Makes t q [] (.createTruncate q)
  | written {old part content : Bytes} (hold : t[q]? = some (.file old)) (hpart : part <+: content) :
      Makes t q (old ++ part) (.writeAll q content)
  | renamed {src : FilePath} {bytes : Bytes} (hsrc : t[src]? = some (.file bytes)) :
      Makes t q bytes (.rename src q)

namespace SysEnv

variable {env : SysEnv} {tick : Nat} {t : FileTree}

theorem guarded_tree (env : SysEnv) {α : Type} {out : Except IoError α × FileTree} {q : FilePath}
    {node : FileNode} (h : (env.guarded tick t out).2[q]? = some node) : t[q]? = some node ∨ out.2[q]? = some node := by
  unfold guarded at h
  split at h
  · exact Or.inl h
  · exact Or.inr h

theorem act_writeAll_makes {q : FilePath} {content bytes : Bytes} (hpart : bytes <+: content)
    {final : Bytes} (h : (t.writeAll q bytes).2[q]? = some (.file final)) :
    (SysOp.writeAll q content).Makes t q final := by
  unfold FileTree.writeAll at h
  split at h
  · next old hold =>
      rw [BTreeMap.getElem?_insert, if_pos rfl, Option.some.injEq, FileNode.file.injEq] at h
      exact h ▸ .written hold hpart
  · next hdir => simp [hdir] at h
  · next hnone => simp [hnone] at h

/-- A file that is there after a call was there before, or the call made it. -/
theorem act_makes {op : SysOp} {q : FilePath} {bytes : Bytes}
    (h : (env.act tick t op).2[q]? = some (.file bytes)) :
    t[q]? = some (.file bytes) ∨ op.Makes t q bytes := by
  by_cases htouch : op.Touches q
  · cases op with
    | createDirAll p =>
        have hmkdirs : ∀ ps, (t.mkdirs ps).2[q]? = some (.file bytes) → t[q]? = some (.file bytes) := by
          intro ps hfile
          rcases t.getElem?_mkdirs ps q with hsame | ⟨-, hdir, -⟩
          · exact hsame.symm.trans hfile
          · cases hdir.symm.trans hfile
        simp only [act] at h
        split at h
        · exact Or.inl (hmkdirs _ h)
        · exact Or.inl (hmkdirs _ h)
    | createNew p =>
        obtain rfl : q = p := htouch
        rcases guarded_tree env h with hsame | hdone
        · exact Or.inl hsame
        · revert hdone
          unfold FileTree.createNew
          split
          · exact Or.inl
          · split
            · intro hfile
              rw [BTreeMap.getElem?_insert, if_pos rfl] at hfile
              cases hfile
              exact Or.inr .created
            · exact Or.inl
    | createTruncate p =>
        obtain rfl : q = p := htouch
        rcases guarded_tree env h with hsame | hdone
        · exact Or.inl hsame
        · revert hdone
          unfold FileTree.createTruncate
          split
          · exact Or.inl
          · split
            · intro hfile
              rw [BTreeMap.getElem?_insert, if_pos rfl] at hfile
              cases hfile
              exact Or.inr .truncated
            · exact Or.inl
    | writeAll p content =>
        obtain rfl : q = p := htouch
        simp only [act] at h
        split at h
        · exact Or.inr (act_writeAll_makes (List.take_prefix _ _) h)
        · exact Or.inr (act_writeAll_makes List.prefix_rfl h)
    | rename src dst =>
        rcases guarded_tree env h with hsame | hdone
        · exact Or.inl hsame
        · revert hdone
          unfold FileTree.rename
          split
          · next content hsrc =>
              split
              · exact Or.inl
              · split
                · intro hfile
                  rw [BTreeMap.getElem?_insert] at hfile
                  split at hfile
                  · next hdst =>
                      cases hfile
                      exact Or.inr (hdst ▸ .renamed hsrc)
                  · rw [BTreeMap.getElem?_erase] at hfile
                    split at hfile
                    · cases hfile
                    · exact Or.inl hfile
                · exact Or.inl
          · exact Or.inl
          · exact Or.inl
    | removeFile p =>
        rcases guarded_tree env h with hsame | hdone
        · exact Or.inl hsame
        · revert hdone
          unfold FileTree.removeFile
          split
          · intro hfile
            rw [BTreeMap.getElem?_erase, if_pos (Eq.symm htouch)] at hfile
            cases hfile
          · exact Or.inl
          · exact Or.inl
    | removeDirAll p =>
        have hremoved : ∀ ps, (t.removeAll ps)[q]? = some (.file bytes) → t[q]? = some (.file bytes) := by
          intro ps hfile
          rw [t.getElem?_removeAll] at hfile
          split at hfile
          · cases hfile
          · exact hfile
        simp only [act] at h
        split at h
        · exact Or.inl (hremoved _ h)
        · revert h
          unfold FileTree.removeDirAll
          split
          · exact fun hfile => Or.inl (hremoved _ hfile)
          · exact Or.inl
          · exact Or.inl
    | isDir p => exact htouch.elim
    | syncAll p => exact htouch.elim
    | read p => exact htouch.elim
    | readDir p => exact htouch.elim
    | uniqueSuffix => exact htouch.elim
    | unixTime => exact htouch.elim
    | entropy => exact htouch.elim
  · exact Or.inl ((act_frame htouch).symm.trans h)

end SysEnv

/-- A program leaves alone what none of its calls touches. -/
theorem SysM.frame {ε α : Type} {p : SysM ε α} {q : FilePath} (hp : p.Uses (fun op => ¬ op.Touches q))
    (env : SysEnv) (d : Disk) : (p.run env.world d).state.tree[q]? = d.tree[q]? :=
  hp.preserves (g := fun d : Disk => d.tree[q]?) (fun _ _ hop => SysEnv.act_frame hop) d
