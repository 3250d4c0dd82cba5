-- SUMMARY: Threads of several processes that take turns on one medium, and the faults, exits and losses of power that interrupt them.
import Cheget.Base.Medium
import Mathlib.Logic.Relation

/-!
# A machine

Threads of several processes make their system calls in turns. A call either
answers or fails, and one that is pending may have done a part of its work. A
process may end at any time, and with the power all of them do. The identifiers
of the processes that are alive differ.
-/

/-- Whose thread each is, and what a process is given as a unique suffix, by its
    identifier, the time, and how many it has been given before. -/
structure Processes (ι P : Type) where
  process : ι → P
  pid : P → Nat
  suffix : Nat → Nat → Nat → String

structure Thread (ε α : Type) where
  program : SysM ε α
  /-- The file that it has created last. -/
  opened : Option (FilePath × Nat)
  /-- How much of the pending write is done. -/
  written : Nat

inductive Life where
  | unborn
  | live
  | ended
  deriving DecidableEq

structure Machine (ι P ε α : Type) where
  medium : Medium
  threads : ι → Thread ε α
  life : P → Life
  /-- How many suffixes a process has been given. -/
  given : P → Nat

namespace Medium

/-- The answer to a call of a thread, what it does to the medium, and the file that
    the thread has open then. The calls left out have no place in a write. -/
def act (m : Medium) (opened : Option (FilePath × Nat)) (written : Nat) :
    (op : SysOp) → Option (op.Resp × Medium × Option (FilePath × Nat))
  | .isDir p => some (m.hasDir p, m, opened)
  | .createDirAll p =>
      let (result, m') := m.mkdirs (FileTree.ancestors p)
      some (result, m', opened)
  | .createNew p =>
      match m.createNew p with
      | (.ok n, m') => some (.ok (), m', some (p, n))
      | (.error e, m') => some (.error e, m', opened)
  | .writeAll p bytes =>
      match opened with
      | some (q, n) => if q = p then some (.ok (), m.write n (bytes.drop written), opened) else none
      | none => none
  | .syncAll p =>
      match opened with
      | some (q, n) => some (.ok (), if q = p then m.sync n else m.syncDir p, opened)
      | none => some (.ok (), m.syncDir p, opened)
  | .rename src dst =>
      let (result, m') := m.rename src dst
      some (result, m', opened)
  | .removeFile p =>
      let (result, m') := m.removeFile p
      some (result, m', opened)
  | .read p => some (m.read p, m, opened)
  | _ => none

/-- A part of a pending call: some more bytes of a write, or the first directories
    of a path. -/
def part (m : Medium) (opened : Option (FilePath × Nat)) (written n : Nat) : SysOp → Option Medium
  | .writeAll p bytes =>
      match opened with
      | some (q, i) => if q = p then some (m.write i ((bytes.drop written).take n)) else none
      | none => none
  | .createDirAll p => some (m.mkdirs ((FileTree.ancestors p).take n)).2
  | _ => none

end Medium

/-- How a call answers that fails. -/
def SysOp.refuse (e : IoError) : (op : SysOp) → Option op.Resp
  | .isDir _ => some false
  | .createDirAll _ => some (.error e)
  | .createNew _ => some (.error e)
  | .writeAll _ _ => some (.error e)
  | .syncAll _ => some (.error e)
  | .rename _ _ => some (.error e)
  | .removeFile _ => some (.error e)
  | .read _ => some (.error e)
  | _ => none

namespace Machine

variable {ι P ε α : Type} [DecidableEq ι] [DecidableEq P]

/-- Thread `k` has its answer. -/
def resume (w : Machine ι P ε α) (k : ι) (m : Medium) (program : SysM ε α)
    (opened : Option (FilePath × Nat)) : Machine ι P ε α :=
  { w with medium := m, threads := Function.update w.threads k ⟨program, opened, 0⟩ }

/-- Thread `k` has done a part of its pending call. -/
def advance (w : Machine ι P ε α) (k : ι) (m : Medium) (n : Nat) : Machine ι P ε α :=
  { w with
    medium := m
    threads := Function.update w.threads k
      { w.threads k with written := (w.threads k).written + n } }

/-- Thread `k` is about to make the call `op`. -/
structure Pending (ps : Processes ι P) (w : Machine ι P ε α) (k : ι) (op : SysOp)
    (cont : op.Resp → SysM ε α) : Prop where
  live : w.life (ps.process k) = .live
  program : (w.threads k).program = .exec op cont

/-- One step, and the thread that makes it. -/
inductive Step (ps : Processes ι P) (w : Machine ι P ε α) : Option ι → Machine ι P ε α → Prop
  | start (p : P) : w.life p = .unborn → (∀ q, w.life q = .live → ps.pid q ≠ ps.pid p) →
      Step ps w none { w with life := Function.update w.life p .live }
  | exit (p : P) : w.life p = .live →
      Step ps w none { w with life := Function.update w.life p .ended }
  | suffix (k : ι) (cont : String → SysM ε α) (time : Nat) : w.Pending ps k .uniqueSuffix cont →
      Step ps w (some k)
        { w.resume k w.medium (cont (ps.suffix (ps.pid (ps.process k)) time (w.given (ps.process k))))
            (w.threads k).opened with
          given := Function.update w.given (ps.process k) (w.given (ps.process k) + 1) }
  | call (k : ι) (op : SysOp) (cont : op.Resp → SysM ε α) (resp : op.Resp) (m : Medium)
      (opened : Option (FilePath × Nat)) : w.Pending ps k op cont →
      w.medium.act (w.threads k).opened (w.threads k).written op = some (resp, m, opened) →
      Step ps w (some k) (w.resume k m (cont resp) opened)
  | fault (k : ι) (op : SysOp) (cont : op.Resp → SysM ε α) (e : IoError) (resp : op.Resp) :
      w.Pending ps k op cont → op.refuse e = some resp →
      Step ps w (some k) (w.resume k w.medium (cont resp) (w.threads k).opened)
  | part (k : ι) (op : SysOp) (cont : op.Resp → SysM ε α) (n : Nat) (m : Medium) :
      w.Pending ps k op cont →
      w.medium.part (w.threads k).opened (w.threads k).written n op = some m →
      Step ps w (some k) (w.advance k m n)
  | powerLoss (kept : FilePath → Option Entry) (found : Nat → Bytes) :
      (∀ p, w.medium.MayHold p (kept p)) →
      Step ps w none
        { w with
          medium := w.medium.recover kept found
          life := fun p => if w.life p = .live then .ended else w.life p }

/-- Steps by threads that may move, or by none. -/
def Runs (ps : Processes ι P) (Moves : Machine ι P ε α → ι → Prop) :
    Machine ι P ε α → Machine ι P ε α → Prop :=
  Relation.ReflTransGen (fun w w' => ∃ who, (∀ k, who = some k → Moves w k) ∧ w.Step ps who w')

theorem Runs.mono {ps : Processes ι P} {Moves Moves' : Machine ι P ε α → ι → Prop}
    (hmoves : ∀ w k, Moves w k → Moves' w k) {w w' : Machine ι P ε α} (hrun : Runs ps Moves w w') :
    Runs ps Moves' w w' := by
  refine Relation.ReflTransGen.mono ?_ w w' hrun
  rintro w w' ⟨who, hwho, hstep⟩
  exact ⟨who, fun k hk => hmoves w k (hwho k hk), hstep⟩

/-- What every allowed step keeps, a run keeps. -/
theorem Runs.keeps {ps : Processes ι P} {Moves : Machine ι P ε α → ι → Prop}
    {I : Machine ι P ε α → Prop}
    (hstep : ∀ w who w', I w → (∀ k, who = some k → Moves w k) → w.Step ps who w' → I w')
    {w w' : Machine ι P ε α} (hrun : Runs ps Moves w w') (hw : I w) : I w' := by
  induction hrun with
  | refl => exact hw
  | tail _ hlast ih =>
      obtain ⟨who, hwho, h⟩ := hlast
      exact hstep _ who _ ih hwho h

end Machine
