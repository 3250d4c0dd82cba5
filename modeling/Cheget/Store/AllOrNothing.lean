-- SUMMARY: Writers of one directory side by side: every reader finds a complete file, whoever fails or dies, and when the power is lost.
import Cheget.Store.Plain
import Cheget.Store.Writers

/-!
# All or nothing

Threads of several processes call `write_atomic` for files of one directory, in
any order of their steps. Calls may fail, processes may end, and the power may be
lost at any time; processes that start later go on.
-/

namespace Store

open Crypto

/-- Calls of `write_atomic` for files of one directory, by their threads. -/
structure Writers (ι P : Type) where
  process : ι → P
  pid : P → Nat
  dir : FilePath
  name : ι → String
  bytes : ι → Bytes

namespace Writers

variable [KeyCodec] [Json] {ι P : Type}

def processes (c : Writers ι P) : Processes ι P := ⟨c.process, c.pid, uniqueSuffix⟩

def finalPath (c : Writers ι P) (k : ι) : FilePath := c.dir ++ [c.name k]

/-- A thread that is about to make its call. -/
def thread (c : Writers ι P) (k : ι) : Thread StoreError Unit :=
  ⟨writeAtomic (c.finalPath k) (c.bytes k), none, 0⟩

/-- No process has started yet. -/
def start (c : Writers ι P) (m : Medium) : Machine ι P StoreError Unit :=
  ⟨m, c.thread, fun _ => .unborn, fun _ => 0⟩

/-- The directory is there, and it and the files at the final paths are durable. -/
structure Ready (c : Writers ι P) (m : Medium) : Prop where
  numbered : ∀ p n, m.MayHold p (some (.file n)) → n < m.next
  dirs : ∀ q ∈ FileTree.ancestors c.dir, m.entry q = some .dir ∧ m.former q = []
  former : ∀ k, m.former (c.finalPath k) = []
  clean : ∀ k n, m.entry (c.finalPath k) = some (.file n) → m.clean n = true

/-- The temporary path of a suffix is the final path of no call. -/
def Apart (c : Writers ι P) (s : String) : Prop := ∀ j, tempPath c.dir s ≠ c.finalPath j

/-- The next call of thread `k` is for a file at the final path of a call, which it
    takes for its temporary one: it creates it, or removes it. -/
def Intrudes [DecidableEq ι] [DecidableEq P] (c : Writers ι P) (w : Machine ι P StoreError Unit)
    (k : ι) : Prop :=
  ∃ (j : ι) (cont : Except IoError Unit → StoreM Unit),
    w.Pending c.processes k (.createNew (c.finalPath j)) cont ∧ w.medium.entry (c.finalPath j) = none ∨
      w.Pending c.processes k (.removeFile (c.finalPath j)) cont ∧
        ∃ n, w.medium.entry (c.finalPath j) = some (.file n)

/-- What a reader can find at the end: what was there at the start, or all that one
    of the calls wrote. -/
def Whole (c : Writers ι P) (m₀ m : Medium) (p : FilePath) (e : Option Entry) : Prop :=
  (e = m₀.entry p ∧ ∀ n, e = some (.file n) → Complete m n (m₀.content n)) ∨
    ∃ k n, c.finalPath k = p ∧ e = some (.file n) ∧ Complete m n (c.bytes k)

/-- What holds at any time. `suffix` is what a call of a live process was given, and
    `Alone` says whose final path the others leave alone. -/
structure Inv (c : Writers ι P) (m₀ : Medium) (Alone : ι → Prop) (suffix : ι → Option String)
    (w : Machine ι P StoreError Unit) : Prop where
  pids : ∀ p q, w.life p = .live → w.life q = .live → c.pid p = c.pid q → p = q
  idle : ∀ k, suffix k = none → w.life (c.process k) = .ended ∨ w.threads k = c.thread k
  given : ∀ k s, suffix k = some s → w.life (c.process k) = .live ∧
    ∃ nanos n, n < w.given (c.process k) ∧ s = uniqueSuffix (c.pid (c.process k)) nanos n
  unique : ∀ j k s, suffix j = some s → suffix k = some s → j = k
  stage : ∀ k s, suffix k = some s →
    Stage (Alone k) (c.Apart s) w.medium (tempPath c.dir s) (c.finalPath k) (c.bytes k) (w.threads k)
  kept : ∀ k, Alone k → (w.threads k).program = .done () →
    Sealed w.medium (c.finalPath k) (c.bytes k)
  whole : ∀ k e, w.medium.MayHold (c.finalPath k) e → c.Whole m₀ w.medium (c.finalPath k) e
  numbered : ∀ p n, w.medium.MayHold p (some (.file n)) → n < w.medium.next
  opened : ∀ k p n, (w.threads k).opened = some (p, n) → n < w.medium.next
  creator : ∀ j k p q n, (w.threads j).opened = some (p, n) → (w.threads k).opened = some (q, n) →
    j = k
  dirs : ∀ q ∈ FileTree.ancestors c.dir, w.medium.entry q = some .dir ∧ w.medium.former q = []

/-! ## Paths -/

variable {c : Writers ι P} {m₀ m m' : Medium} {Alone : ι → Prop} {suffix : ι → Option String}
  {w w' : Machine ι P StoreError Unit} {j k : ι} {s s' : String}

omit [KeyCodec] [Json] in
theorem dropLast_finalPath (c : Writers ι P) (k : ι) : (c.finalPath k).dropLast = c.dir :=
  List.dropLast_concat

omit [KeyCodec] [Json] in
/-- The directories above are no file of a writer. -/
theorem ne_concat_of_mem_ancestors {c : Writers ι P} {q : FilePath} (hq : q ∈ FileTree.ancestors c.dir)
    (name : String) : q ≠ c.dir ++ [name] := by
  rintro rfl
  have hle := (FileTree.mem_ancestors.mp hq).2.length_le
  simp at hle

/-! ## A step of one writer -/

omit [KeyCodec] [Json] in
theorem Whole.frame {tmp finalPath p : FilePath} {bytes : Bytes} {e : Option Entry}
    (h : c.Whole m₀ m p e) (hchange : Change m m' tmp finalPath bytes) (hp : p ≠ tmp)
    (he : m.MayHold p e) : c.Whole m₀ m' p e := by
  rcases h with ⟨hstart, hcomplete⟩ | ⟨k, n, hk, rfl, hcomplete⟩
  · refine Or.inl ⟨hstart, fun n hn => ?_⟩
    exact (hcomplete n hn).frame hchange hp (hn ▸ he)
  · exact Or.inr ⟨k, n, hk, rfl, hcomplete.frame hchange hp he⟩

theorem Inv.whole_change (hinv : c.Inv m₀ Alone suffix w) {tmp : FilePath}
    (hfinals : ∀ j, tmp ≠ c.finalPath j)
    (hchange : Change w.medium m' tmp (c.finalPath k) (c.bytes k)) (j : ι)
    (e : Option Entry) (he : m'.MayHold (c.finalPath j) e) : c.Whole m₀ m' (c.finalPath j) e := by
  have htmp := (hfinals j).symm
  rcases hchange.mayHold_cases htmp he with hbefore | ⟨hjk, n, rfl, -, hcomplete⟩
  · exact (hinv.whole j e hbefore).frame hchange htmp hbefore
  · exact Or.inr ⟨k, n, hjk.symm, rfl, hcomplete⟩

theorem Inv.founded (hinv : c.Inv m₀ Alone suffix w) (name : String) : w.medium.Founded (c.dir ++ [name]) := by
  intro q hq
  rw [List.dropLast_concat] at hq
  exact hinv.dirs q hq

theorem program_thread (c : Writers ι P) (k : ι) : (c.thread k).program = (do
    let suffix ← sys SysOp.uniqueSuffix
    let tmp := tempPath c.dir suffix
    (writeTemp tmp (c.bytes k)).attempt >>= settle tmp (c.finalPath k)) := by
  have hne : c.finalPath k ≠ [] := List.concat_ne_nil _ _
  rw [thread, writeAtomic_of_ne_nil hne, dropLast_finalPath]

/-- A pending thread that was given no suffix has not begun. -/
theorem Inv.thread_of_pending (hinv : c.Inv m₀ Alone suffix w) {op : SysOp}
    {cont : op.Resp → StoreM Unit} (hpending : w.Pending c.processes k op cont)
    (hnone : suffix k = none) : w.threads k = c.thread k := by
  apply (hinv.idle k hnone).resolve_left
  intro hended
  cases hended.symm.trans hpending.live

/-- A writer that does not ask for a suffix was given one. -/
theorem Inv.suffix_of_pending (hinv : c.Inv m₀ Alone suffix w) {op : SysOp}
    {cont : op.Resp → StoreM Unit} (hpending : w.Pending c.processes k op cont)
    (hop : op ≠ .uniqueSuffix) : ∃ s, suffix k = some s := by
  cases hk : suffix k with
  | some s => exact ⟨s, rfl⟩
  | none =>
      have hprogram := hpending.program
      rw [hinv.thread_of_pending hpending hk, program_thread] at hprogram
      cases hprogram
      exact absurd rfl hop

theorem Inv.stage_of_pending (hinv : c.Inv m₀ Alone suffix w) {op : SysOp}
    {cont : op.Resp → StoreM Unit} (hpending : w.Pending c.processes k op cont)
    (hk : suffix k = some s) :
    Stage (Alone k) (c.Apart s) w.medium (tempPath c.dir s) (c.finalPath k) (c.bytes k)
      ⟨.exec op cont, (w.threads k).opened, (w.threads k).written⟩ := by
  rw [← hpending.program]
  exact hinv.stage k s hk

theorem eta_thread (c : Writers ι P) (k : ι) : ⟨(c.thread k).program, none, 0⟩ = c.thread k := rfl

/-- A path beside the final and the other temporary ones, and not above them. -/
structure Beside (c : Writers ι P) (s : String) (tmp : FilePath) : Prop where
  final : ∀ j, tmp ≠ c.finalPath j
  temp : ∀ s', s' ≠ s → tempPath c.dir s' ≠ tmp
  above : ∀ q ∈ FileTree.ancestors c.dir, q ≠ tmp

omit [KeyCodec] [Json] in
/-- What a writer does, it does beside the paths of the others. -/
theorem exists_change (h : m' = m ∨ c.Apart s ∧ Change m m' (tempPath c.dir s) (c.finalPath k) (c.bytes k)) :
    ∃ tmp, c.Beside s tmp ∧ Change m m' tmp (c.finalPath k) (c.bytes k) := by
  rcases h with rfl | ⟨hapart, hchange⟩
  · -- nothing is done to any path, so one that is further down serves
    have hlength (name : String) : c.dir ++ ["", ""] ≠ c.dir ++ [name] := by simp
    refine ⟨c.dir ++ ["", ""], ⟨fun j => hlength _, fun s' _ => (hlength _).symm, fun q hq => ?_⟩,
      Change.refl _ _ _ _⟩
    rintro rfl
    have hle := (FileTree.mem_ancestors.mp hq).2.length_le
    simp at hle
  · exact ⟨tempPath c.dir s, ⟨hapart, fun s' hne h => hne (tempPath_inj h),
      fun q hq => ne_concat_of_mem_ancestors hq _⟩, hchange⟩

variable [DecidableEq ι] [DecidableEq P]

omit [DecidableEq P] in
/-- A writer goes from one stage to the next, and the others stay where they are. -/
theorem Inv.move (hinv : c.Inv m₀ Alone suffix w) (hk : suffix k = some s)
    {thread : Thread StoreError Unit} {tmp : FilePath} (hbeside : c.Beside s tmp)
    (hstage : Stage (Alone k) (c.Apart s) m' (tempPath c.dir s) (c.finalPath k) (c.bytes k) thread)
    (hchange : Change w.medium m' tmp (c.finalPath k) (c.bytes k))
    (hopened : thread.opened = (w.threads k).opened ∨
      thread.opened = some (tempPath c.dir s, w.medium.next) ∧ w.medium.next < m'.next)
    (halone : ∀ j, Alone j → c.finalPath k = c.finalPath j → k = j) :
    c.Inv m₀ Alone suffix
      { w with medium := m', threads := Function.update w.threads k thread } where
  pids := hinv.pids
  idle j hj := by
    have hjk : j ≠ k := by
      rintro rfl
      rw [hk] at hj
      cases hj
    exact (hinv.idle j hj).imp_right (fun h => (Function.update_of_ne hjk _ _).trans h)
  given := hinv.given
  unique := hinv.unique
  stage j s' hj := by
    by_cases hjk : j = k
    · subst hjk
      cases hk.symm.trans hj
      simpa using hstage
    · have hne : s' ≠ s := by
        rintro rfl
        exact hjk (hinv.unique j k s' hj hk)
      simp only [Function.update_of_ne hjk]
      exact (hinv.stage j s' hj).frame hchange (hbeside.temp s' hne) (fun hapart => hapart k)
        (hbeside.final j).symm
        (fun ha h => hjk (halone j ha h.symm).symm) hinv.numbered
  kept j ha hj := by
    by_cases hjk : j = k
    · subst hjk
      simp only [Function.update_self] at hj
      exact hstage.sealed hj ha
    · simp only [Function.update_of_ne hjk] at hj
      exact (hinv.kept j ha hj).frame hchange (hbeside.final j).symm
        (fun h => hjk (halone j ha h.symm).symm)
  whole := hinv.whole_change hbeside.final hchange
  numbered := Numbered.change hinv.numbered hchange
  opened j p n hj := by
    by_cases hjk : j = k
    · subst hjk
      simp only [Function.update_self] at hj
      rcases hopened with h | ⟨h, hlt⟩
      · exact (hinv.opened j p n (h.symm.trans hj)).trans_le hchange.next
      · cases h.symm.trans hj
        exact hlt
    · simp only [Function.update_of_ne hjk] at hj
      exact (hinv.opened j p n hj).trans_le hchange.next
  creator i j p q n hi hj := by
    have hother (i : ι) (p q : FilePath) (hik : i ≠ k) (hi : (w.threads i).opened = some (p, n))
        (hthread : thread.opened = some (q, n)) : False := by
      rcases hopened with h | ⟨h, -⟩
      · exact hik (hinv.creator i k p q n hi (h.symm.trans hthread))
      · cases h.symm.trans hthread
        exact lt_irrefl _ (hinv.opened i p _ hi)
    by_cases hik : i = k
    · by_cases hjk : j = k
      · exact hik.trans hjk.symm
      · subst hik
        simp only [Function.update_self, Function.update_of_ne hjk] at hi hj
        exact (hother j q p hjk hj hi).elim
    · by_cases hjk : j = k
      · subst hjk
        simp only [Function.update_self, Function.update_of_ne hik] at hi hj
        exact (hother i p q hik hi hj).elim
      · simp only [Function.update_of_ne hik, Function.update_of_ne hjk] at hi hj
        exact hinv.creator i j p q n hi hj
  dirs q hq := by
    have hfounded : m'.Founded (c.dir ++ [""]) := by
      apply (hinv.founded "").steady
      intro r hr
      rw [List.dropLast_concat] at hr
      exact hchange.elsewhere r (hbeside.above r hr) (ne_concat_of_mem_ancestors hr _)
    exact hfounded q (by rwa [List.dropLast_concat])

/-- A writer that asks for a suffix is given one that no other call has. -/
theorem Inv.draw (hinv : c.Inv m₀ Alone suffix w) {cont : String → StoreM Unit} {nanos : Nat}
    (hpending : w.Pending c.processes k .uniqueSuffix cont)
    (hs : s = uniqueSuffix (c.pid (c.process k)) nanos (w.given (c.process k))) :
    c.Inv m₀ Alone (Function.update suffix k (some s))
      { w with
        threads := Function.update w.threads k ⟨cont s, (w.threads k).opened, 0⟩
        given := Function.update w.given (c.process k) (w.given (c.process k) + 1) } := by
  have hnone : suffix k = none := by
    cases hk : suffix k with
    | none => rfl
    | some s' => exact (Stage.not_uniqueSuffix (hinv.stage_of_pending hpending hk)).elim
  have hthread := hinv.thread_of_pending hpending hnone
  have hprogram := hpending.program
  rw [hthread, program_thread] at hprogram
  cases hprogram
  -- nobody else in the process was given this number, and no live process has its identifier
  have hfresh (j : ι) (hj : suffix j = some s) : False := by
    obtain ⟨hlive, nanos', n, hlt, hs'⟩ := hinv.given j s hj
    obtain ⟨hpid, hn⟩ := uniqueSuffix_inj (hs.symm.trans hs')
    rw [← hinv.pids _ _ hpending.live hlive hpid, ← hn] at hlt
    exact lt_irrefl _ hlt
  rw [hthread]
  constructor
  case pids => exact hinv.pids
  case idle =>
    intro j hj
    by_cases hjk : j = k
    · subst hjk
      simp at hj
    · simp only [Function.update_of_ne hjk] at hj ⊢
      exact hinv.idle j hj
  case given =>
    intro j s' hj
    by_cases hjk : j = k
    · subst hjk
      simp only [Function.update_self, Option.some.injEq] at hj ⊢
      exact ⟨hpending.live, nanos, _, Nat.lt_succ_self _, hj.symm.trans hs⟩
    · simp only [Function.update_of_ne hjk] at hj
      obtain ⟨hlive, nanos', n, hlt, hs'⟩ := hinv.given j s' hj
      refine ⟨hlive, nanos', n, ?_, hs'⟩
      by_cases hp : c.process j = c.process k
      · rw [hp] at hlt ⊢
        simpa using hlt.trans (Nat.lt_succ_self _)
      · simpa [Function.update_of_ne hp] using hlt
  case unique =>
    intro i j s' hi hj
    by_cases hik : i = k
    · by_cases hjk : j = k
      · exact hik.trans hjk.symm
      · subst hik
        simp only [Function.update_self, Function.update_of_ne hjk, Option.some.injEq] at hi hj
        exact (hfresh j (hi ▸ hj)).elim
    · by_cases hjk : j = k
      · subst hjk
        simp only [Function.update_self, Function.update_of_ne hik, Option.some.injEq] at hi hj
        exact (hfresh i (hj ▸ hi)).elim
      · simp only [Function.update_of_ne hik, Function.update_of_ne hjk] at hi hj
        exact hinv.unique i j s' hi hj
  case stage =>
    intro j s' hj
    by_cases hjk : j = k
    · subst hjk
      simp only [Function.update_self, Option.some.injEq] at hj ⊢
      subst hj
      exact .creating
    · simp only [Function.update_of_ne hjk] at hj ⊢
      exact hinv.stage j s' hj
  case kept =>
    intro j ha hj
    by_cases hjk : j = k
    · subst hjk
      simp only [Function.update_self] at hj
      cases hj
    · simp only [Function.update_of_ne hjk] at hj
      exact hinv.kept j ha hj
  case whole => exact hinv.whole
  case numbered => exact hinv.numbered
  case opened =>
    intro j p n hj
    by_cases hjk : j = k
    · subst hjk
      simp only [Function.update_self] at hj
      cases hj
    · simp only [Function.update_of_ne hjk] at hj
      exact hinv.opened j p n hj
  case creator =>
    intro i j p q n hi hj
    by_cases hik : i = k
    · subst hik
      simp only [Function.update_self] at hi
      cases hi
    · by_cases hjk : j = k
      · subst hjk
        simp only [Function.update_self] at hj
        cases hj
      · simp only [Function.update_of_ne hik, Function.update_of_ne hjk] at hi hj
        exact hinv.creator i j p q n hi hj
  case dirs => exact hinv.dirs

/-! ## Processes and power -/

omit [DecidableEq ι] in
/-- A process starts under an identifier that is free. -/
theorem Inv.starts (hinv : c.Inv m₀ Alone suffix w) {p : P} (hp : w.life p = .unborn)
    (hpid : ∀ q, w.life q = .live → c.pid q ≠ c.pid p) :
    c.Inv m₀ Alone suffix { w with life := Function.update w.life p .live } where
  pids q r hq hr hpids := by
    by_cases hqp : q = p
    · by_cases hrp : r = p
      · exact hqp.trans hrp.symm
      · subst hqp
        simp only [Function.update_of_ne hrp] at hr
        exact absurd hpids.symm (hpid r hr)
    · by_cases hrp : r = p
      · subst hrp
        simp only [Function.update_of_ne hqp] at hq
        exact absurd hpids (hpid q hq)
      · simp only [Function.update_of_ne hqp, Function.update_of_ne hrp] at hq hr
        exact hinv.pids q r hq hr hpids
  idle k hk := by
    by_cases hkp : c.process k = p
    · subst hkp
      refine Or.inr ((hinv.idle k hk).resolve_left (fun hended => ?_))
      cases hp.symm.trans hended
    · simp only [Function.update_of_ne hkp]
      exact hinv.idle k hk
  given k s hk := by
    obtain ⟨hlive, hs⟩ := hinv.given k s hk
    have hkp : c.process k ≠ p := by
      rintro rfl
      cases hp.symm.trans hlive
    exact ⟨(Function.update_of_ne hkp _ _).trans hlive, hs⟩
  unique := hinv.unique
  stage := hinv.stage
  kept := hinv.kept
  whole := hinv.whole
  numbered := hinv.numbered
  opened := hinv.opened
  creator := hinv.creator
  dirs := hinv.dirs

omit [DecidableEq ι] [DecidableEq P] in
/-- Some of the live processes end, and nothing else happens. -/
theorem Inv.ends (hinv : c.Inv m₀ Alone suffix w) {life : P → Life}
    (hlife : ∀ p, life p = w.life p ∨ w.life p = .live ∧ life p = .ended) :
    c.Inv m₀ Alone (fun k => if life (c.process k) = .live then suffix k else none)
      { w with life := life } := by
  have hsome (k : ι) (s : String)
      (hk : (if life (c.process k) = .live then suffix k else none) = some s) :
      life (c.process k) = .live ∧ suffix k = some s := by
    split at hk
    · next hlive => exact ⟨hlive, hk⟩
    · cases hk
  have hlive (p : P) (hp : life p = .live) : w.life p = .live := by
    rcases hlife p with h | ⟨-, h⟩
    · exact h.symm.trans hp
    · cases hp.symm.trans h
  constructor
  case pids => exact fun p q hp hq => hinv.pids p q (hlive p hp) (hlive q hq)
  case idle =>
    intro k hk
    split at hk
    · next hk' =>
        refine (hinv.idle k hk).imp_left (fun hended => ?_)
        cases hended.symm.trans (hlive _ hk')
    · next hk' =>
        rcases hlife (c.process k) with hsame | ⟨-, hended⟩
        · have hnone : suffix k = none := by
            apply Option.eq_none_iff_forall_ne_some.mpr
            intro s hs
            exact hk' (hsame.trans (hinv.given k s hs).1)
          exact (hinv.idle k hnone).imp_left hsame.trans
        · exact Or.inl hended
  case given =>
    intro k s hk
    exact ⟨(hsome k s hk).1, (hinv.given k s (hsome k s hk).2).2⟩
  case unique => exact fun j k s hj hk => hinv.unique j k s (hsome j s hj).2 (hsome k s hk).2
  case stage => exact fun k s hk => hinv.stage k s (hsome k s hk).2
  case kept => exact hinv.kept
  case whole => exact hinv.whole
  case numbered => exact hinv.numbered
  case opened => exact hinv.opened
  case creator => exact hinv.creator
  case dirs => exact hinv.dirs

/-! ## Power -/

omit [DecidableEq ι] [DecidableEq P] in
theorem Inv.sealed_recover (hinv : c.Inv m₀ Alone suffix w) {kept : FilePath → Option Entry}
    (hkept : ∀ p, w.medium.MayHold p (kept p)) (found : Nat → Bytes)
    (hsealed : Sealed w.medium (c.finalPath k) (c.bytes k)) :
    Sealed (w.medium.recover kept found) (c.finalPath k) (c.bytes k) := by
  obtain ⟨⟨n, hentry, hcomplete⟩, hformer⟩ := hsealed
  refine ⟨⟨n, ?_, hcomplete.recover⟩, rfl⟩
  rw [finalPath, Medium.entry_recover hkept found (hinv.founded _)]
  exact ((hkept _).eq_entry hformer).trans hentry

omit [DecidableEq ι] [DecidableEq P] in
/-- Without a call under way, the medium may lose its power. -/
theorem Inv.recover (hinv : c.Inv m₀ Alone (fun _ => none) w) {kept : FilePath → Option Entry}
    (hkept : ∀ p, w.medium.MayHold p (kept p)) (found : Nat → Bytes) :
    c.Inv m₀ Alone (fun _ => none) { w with medium := w.medium.recover kept found } where
  pids := hinv.pids
  idle := hinv.idle
  given _ _ h := nomatch h
  unique _ _ _ h := nomatch h
  stage _ _ h := nomatch h
  kept k ha hk := hinv.sealed_recover hkept found (hinv.kept k ha hk)
  whole k e he := by
    rcases hinv.whole k e ((hinv.founded _).mayHold_recover hkept found he) with ⟨hstart, hcomplete⟩ | ⟨j, n, hj, hfile, hcomplete⟩
    · exact Or.inl ⟨hstart, fun n hn => (hcomplete n hn).recover⟩
    · exact Or.inr ⟨j, n, hj, hfile, hcomplete.recover⟩
  numbered p n he := by
    rcases Medium.mayHold_recover hkept he with h | h
    · cases h
    · exact hinv.numbered p n h
  opened := hinv.opened
  creator := hinv.creator
  dirs q hq := by
    have hfounded := (hinv.founded "").recover hkept found
    exact hfounded q (by rwa [List.dropLast_concat])

omit [DecidableEq ι] [DecidableEq P] in
/-- With the power, all calls end. -/
theorem Inv.powerLoss (hinv : c.Inv m₀ Alone suffix w) {kept : FilePath → Option Entry}
    (hkept : ∀ p, w.medium.MayHold p (kept p)) (found : Nat → Bytes) :
    c.Inv m₀ Alone (fun _ => none)
      { w with
        medium := w.medium.recover kept found
        life := fun p => if w.life p = .live then .ended else w.life p } := by
  have hdead (p : P) : (if w.life p = .live then Life.ended else w.life p) ≠ .live := by
    split
    · exact fun h => nomatch h
    · assumption
  have hlife (p : P) : (if w.life p = .live then Life.ended else w.life p) = w.life p ∨
      w.life p = .live ∧ (if w.life p = .live then Life.ended else w.life p) = .ended := by
    by_cases hp : w.life p = .live
    · exact Or.inr ⟨hp, if_pos hp⟩
    · exact Or.inl (if_neg hp)
  have hends := hinv.ends hlife
  simp only [hdead, if_false] at hends
  exact hends.recover hkept found

/-! ## Runs -/

theorem Inv.step (hinv : c.Inv m₀ Alone suffix w) {who : Option ι} (hstep : w.Step c.processes who w')
    (hkeeps : ∀ k, who = some k → ¬ c.Intrudes w k)
    (halone : ∀ k, who = some k → ∀ j, Alone j → c.finalPath k = c.finalPath j → k = j) :
    ∃ suffix', c.Inv m₀ Alone suffix' w' := by
  cases hstep with
  | start p hp hpid => exact ⟨suffix, hinv.starts hp hpid⟩
  | exit p hp =>
      refine ⟨_, hinv.ends (fun q => ?_)⟩
      by_cases hq : q = p
      · subst hq
        exact Or.inr ⟨hp, Function.update_self _ _ _⟩
      · exact Or.inl (Function.update_of_ne hq _ _)
  | suffix k cont nanos hpending => exact ⟨_, hinv.draw hpending rfl⟩
  | call k op cont resp m opened hpending hact =>
      obtain ⟨s, hk⟩ := hinv.suffix_of_pending hpending (by
        rintro rfl
        cases hact)
      have hdir : tempPath c.dir s ≠ (c.finalPath k).dropLast := by
        rw [dropLast_finalPath]
        exact fun h => List.cons_ne_nil _ _ (List.append_right_eq_self.mp h)
      -- a temporary file that is created or removed is no final one
      have hcreates : op = .createNew (tempPath c.dir s) →
          w.medium.entry (tempPath c.dir s) = none → c.Apart s := by
        rintro rfl hfree j hj
        rw [hj] at hpending hfree
        exact hkeeps k rfl ⟨j, cont, Or.inl ⟨hpending, hfree⟩⟩
      have hremoves : op = .removeFile (tempPath c.dir s) →
          (∃ n, w.medium.entry (tempPath c.dir s) = some (.file n)) → c.Apart s := by
        rintro rfl hfile j hj
        rw [hj] at hpending hfile
        exact hkeeps k rfl ⟨j, cont, Or.inr ⟨hpending, hfile⟩⟩
      obtain ⟨hstage, hmoved, hopened⟩ := (hinv.stage_of_pending hpending hk).act hact
        hinv.numbered (fun hapart => hapart k) hdir (List.concat_ne_nil _ _) hcreates hremoves
      obtain ⟨tmp, hbeside, hchange⟩ := exists_change hmoved
      exact ⟨suffix, hinv.move hk hbeside hstage hchange hopened (halone k rfl)⟩
  | fault k op cont e resp hpending hrefuse =>
      obtain ⟨s, hk⟩ := hinv.suffix_of_pending hpending (by
        rintro rfl
        cases hrefuse)
      have hstage := (hinv.stage_of_pending hpending hk).refuse hrefuse
      obtain ⟨tmp, hbeside, hchange⟩ := c.exists_change (k := k) (s := s) (m := w.medium) (Or.inl rfl)
      exact ⟨suffix, hinv.move hk hbeside hstage hchange (Or.inl rfl) (halone k rfl)⟩
  | part k op cont count m hpending hpart =>
      obtain ⟨s, hk⟩ := hinv.suffix_of_pending hpending (by
        rintro rfl
        cases hpart)
      obtain ⟨hstage, hmoved⟩ := (hinv.stage_of_pending hpending hk).part hpart
      rw [← hpending.program] at hstage
      obtain ⟨tmp, hbeside, hchange⟩ := exists_change (Or.inr hmoved)
      exact ⟨suffix, hinv.move hk hbeside hstage hchange (Or.inl rfl) (halone k rfl)⟩
  | powerLoss kept found hkept => exact ⟨_, hinv.powerLoss hkept found⟩

theorem Inv.runs {Moves : Machine ι P StoreError Unit → ι → Prop} (hinv : c.Inv m₀ Alone suffix w)
    (hrun : Machine.Runs c.processes Moves w w') (hkeeps : ∀ w k, Moves w k → ¬ c.Intrudes w k)
    (halone : ∀ w k, Moves w k → ∀ j, Alone j → c.finalPath k = c.finalPath j → k = j) :
    ∃ suffix', c.Inv m₀ Alone suffix' w' := by
  apply hrun.keeps (I := fun w => ∃ suffix, c.Inv m₀ Alone suffix w) _ ⟨suffix, hinv⟩
  rintro w who w' ⟨suffix, hinv⟩ hwho hstep
  exact hinv.step hstep (fun k hk => hkeeps w k (hwho k hk)) (fun k hk => halone w k (hwho k hk))

/-- A final path that a call intrudes on has the name of a temporary file. -/
theorem Inv.temp_of_intrudes (hinv : c.Inv m₀ Alone suffix w) (h : c.Intrudes w k) :
    ∃ j, Temp (c.finalPath j) := by
  obtain ⟨j, cont, ⟨hpending, -⟩ | ⟨hpending, -⟩⟩ := h
  · obtain ⟨s, hk⟩ := hinv.suffix_of_pending hpending (by
      intro hop
      cases hop)
    exact ⟨j, c.dir, s, (hinv.stage_of_pending hpending hk).createNew⟩
  · obtain ⟨s, hk⟩ := hinv.suffix_of_pending hpending (by
      intro hop
      cases hop)
    exact ⟨j, c.dir, s, (hinv.stage_of_pending hpending hk).removeFile⟩

omit [DecidableEq ι] [DecidableEq P] in
theorem inv_start (hm : c.Ready m) : c.Inv m (fun _ => False) (fun _ => none) (c.start m) where
  pids _ _ h := nomatch h
  idle _ _ := Or.inr rfl
  given _ _ h := nomatch h
  unique _ _ _ h := nomatch h
  stage _ _ h := nomatch h
  kept _ h := h.elim
  whole k e he := by
    cases he.eq_entry (hm.former k)
    exact Or.inl ⟨rfl, fun n hn => ⟨rfl, hm.clean k n hn⟩⟩
  numbered := hm.numbered
  opened _ _ _ h := nomatch h
  creator _ _ _ _ _ h := nomatch h
  dirs := hm.dirs

omit [DecidableEq ι] [DecidableEq P] in
/-- From before its first step on, a call can be left alone at its final path. -/
theorem Inv.alone (hinv : c.Inv m₀ (fun _ => False) suffix w) (hk : w.threads k = c.thread k) :
    c.Inv m₀ (· = k) suffix w where
  pids := hinv.pids
  idle := hinv.idle
  given := hinv.given
  unique := hinv.unique
  stage j s hj := by
    by_cases hjk : j = k
    · subst hjk
      have hstage := hinv.stage j s hj
      rw [hk, ← eta_thread, program_thread] at hstage
      exact (Stage.not_uniqueSuffix hstage).elim
    · exact (hinv.stage j s hj).mono (fun h => absurd h hjk)
  kept j hj hprogram := by
    subst hj
    rw [hk, program_thread] at hprogram
    cases hprogram
  whole := hinv.whole
  numbered := hinv.numbered
  opened := hinv.opened
  creator := hinv.creator
  dirs := hinv.dirs

omit [DecidableEq ι] [DecidableEq P] in
theorem Inv.read (hinv : c.Inv m₀ Alone suffix w) (hready : c.Ready m₀) (k : ι) :
    w.medium.read (c.finalPath k) = m₀.read (c.finalPath k) ∨
      ∃ j, c.finalPath j = c.finalPath k ∧ w.medium.read (c.finalPath k) = .ok (c.bytes j) := by
  rcases hinv.whole k _ (w.medium.mayHold_entry _) with ⟨hstart, hcomplete⟩ | ⟨j, n, hj, hfile, hcomplete⟩
  · refine Or.inl ?_
    have hbefore : m₀.Founded (c.finalPath k) := by
      intro q hq
      rw [dropLast_finalPath] at hq
      exact hready.dirs q hq
    have hnow : w.medium.Founded (c.finalPath k) := hinv.founded (c.name k)
    unfold Medium.read
    rw [← hstart]
    split
    · next n hn => rw [(hcomplete n hn).1]
    · rfl
    · next hnone =>
        rw [Medium.missing_of_founded hnow hnone,
          Medium.missing_of_founded hbefore (hstart.symm.trans hnone)]
  · refine Or.inr ⟨j, hj, ?_⟩
    rw [Medium.read_of_entry hfile, hcomplete.1]

/-- Where no final path has the name of a temporary file, no call intrudes. -/
theorem runs_of_not_temp (hready : c.Ready m₀) (htemp : ∀ k, ¬ Temp (c.finalPath k))
    {Moves : Machine ι P StoreError Unit → ι → Prop}
    (hrun : Machine.Runs c.processes Moves (c.start m₀) w) :
    Machine.Runs c.processes (fun w k => ¬ c.Intrudes w k ∧ Moves w k) (c.start m₀) w := by
  induction hrun with
  | refl => exact .refl
  | tail _ hlast ih =>
      obtain ⟨who, hwho, hstep⟩ := hlast
      obtain ⟨suffix, hinv⟩ := (inv_start hready).runs ih (fun _ _ h => h.1) (fun _ _ _ _ h => h.elim)
      refine ih.tail ⟨who, fun k hk => ⟨fun hintrudes => ?_, hwho k hk⟩, hstep⟩
      obtain ⟨j, hj⟩ := hinv.temp_of_intrudes hintrudes
      exact htemp j hj

/-- As long as no call takes a final path for its temporary one: whoever writes,
    fails or dies, and whenever the power is lost, a reader finds what was there at
    the start, or all that one of the calls wrote. A call that returned Ok, and whose
    final path no other call worked on since before it began, leaves its own bytes
    there, with and without a loss of power. And a call moves no file into place but
    the one that it alone has created. -/
theorem writeAtomic_all_or_nothing (c : Writers ι P) {m₀ : Medium} (hready : c.Ready m₀)
    {w : Machine ι P StoreError Unit}
    (hrun : Machine.Runs c.processes (fun w k => ¬ c.Intrudes w k) (c.start m₀) w) :
    (∀ k, w.medium.read (c.finalPath k) = m₀.read (c.finalPath k) ∨
      ∃ j, c.finalPath j = c.finalPath k ∧ w.medium.read (c.finalPath k) = .ok (c.bytes j)) ∧
    (∀ k w', w.threads k = c.thread k →
      Machine.Runs c.processes
        (fun w j => ¬ c.Intrudes w j ∧ (c.finalPath j = c.finalPath k → j = k)) w w' →
      (w'.threads k).program = .done () →
      w'.medium.read (c.finalPath k) = .ok (c.bytes k) ∧
      ∀ kept found, (∀ p, w'.medium.MayHold p (kept p)) →
        (w'.medium.recover kept found).read (c.finalPath k) = .ok (c.bytes k)) ∧
    (∀ k src dst cont, w.Pending c.processes k (.rename src dst) cont →
      ∃ n, w.medium.entry src = some (.file n) ∧ (w.threads k).opened = some (src, n) ∧
        ∀ j p, (w.threads j).opened = some (p, n) → j = k) := by
  obtain ⟨suffix, hinv⟩ := (inv_start hready).runs hrun (fun _ _ h => h) (fun _ _ _ _ h => h.elim)
  refine ⟨hinv.read hready, ?_, ?_⟩
  · intro k w' hk hrun' hreturned
    obtain ⟨suffix', hinv'⟩ := (hinv.alone hk).runs hrun' (fun _ _ h => h.1) (fun w j hj i hi => by
      subst hi
      exact hj.2)
    have hsealed := hinv'.kept k rfl hreturned
    exact ⟨hsealed.read, fun kept found hkept => (hinv'.sealed_recover hkept found hsealed).read⟩
  · intro k src dst cont hpending
    obtain ⟨s, hk⟩ := hinv.suffix_of_pending hpending (by
      intro hop
      cases hop)
    obtain ⟨n, hentry, hopened⟩ := (hinv.stage_of_pending hpending hk).rename
    exact ⟨n, hentry, hopened, fun j p hj => hinv.creator j k p src n hj hopened⟩

end Writers

namespace Plain

/-- Calls of two processes, for `d/f` and for another file. -/
def twoWriters (other : String) : Writers Bool Bool where
  process := id
  pid second := if second then 8 else 7
  dir := ["d"]
  name second := if second then other else "f"
  bytes second := if second then [3] else [1, 2]

/-- A durable directory `d`, with one file. -/
def oneFile (name : String) : Medium where
  entry p := if p = ["d"] then some .dir else if p = ["d", name] then some (.file 0) else none
  former _ := []
  content _ := [4]
  clean _ := true
  next := 1

theorem ready_oneFile (name : String) : (twoWriters name).Ready (oneFile name) where
  numbered p n he := by
    have hentry := he.resolve_right List.not_mem_nil
    simp only [oneFile] at hentry
    split at hentry
    · cases hentry
    · split at hentry
      · cases hentry
        exact Nat.lt_succ_self 0
      · cases hentry
  dirs q hq := by
    cases List.mem_singleton.mp (show q ∈ [["d"]] from hq)
    exact ⟨rfl, rfl⟩
  former _ := rfl
  clean _ _ _ := rfl

/-- The two calls in turns, the second one moving its file first. -/
theorem runs_twoWriters (Moves : Machine Bool Bool StoreError Unit → Bool → Prop)
    (hmoves : ∀ w k, Moves w k) :
    ∃ w, Machine.Runs (twoWriters "g").processes Moves ((twoWriters "g").start (oneFile "g")) w ∧
      ∀ k, (w.threads k).program = .done () := by
  have hfirst : Machine.Runs (twoWriters "g").processes Moves ((twoWriters "g").start (oneFile "g")) _ :=
    .single ⟨none, fun _ _ => hmoves _ _, .start false rfl (fun _ h => nomatch h)⟩
  have hsecond := hfirst.tail ⟨none, fun _ _ => hmoves _ _, .start true rfl (by decide)⟩
  have hnamed := hsecond.tail ⟨some false, fun _ _ => hmoves _ _, .suffix false _ 0 ⟨rfl, rfl⟩⟩
  have hnamed' := hnamed.tail ⟨some true, fun _ _ => hmoves _ _, .suffix true _ 0 ⟨rfl, rfl⟩⟩
  have hcreated := hnamed'.tail ⟨some true, fun _ _ => hmoves _ _, .call true _ _ _ _ _ ⟨rfl, rfl⟩ rfl⟩
  have hcreated' := hcreated.tail ⟨some false, fun _ _ => hmoves _ _, .call false _ _ _ _ _ ⟨rfl, rfl⟩ rfl⟩
  have hbegun := hcreated'.tail ⟨some false, fun _ _ => hmoves _ _, .part false _ _ 1 _ ⟨rfl, rfl⟩ rfl⟩
  have hwritten := hbegun.tail ⟨some true, fun _ _ => hmoves _ _, .call true _ _ _ _ _ ⟨rfl, rfl⟩ rfl⟩
  have hwritten' := hwritten.tail ⟨some false, fun _ _ => hmoves _ _, .call false _ _ _ _ _ ⟨rfl, rfl⟩ rfl⟩
  have hsynced := hwritten'.tail ⟨some false, fun _ _ => hmoves _ _, .call false _ _ _ _ _ ⟨rfl, rfl⟩ rfl⟩
  have hsynced' := hsynced.tail ⟨some true, fun _ _ => hmoves _ _, .call true _ _ _ _ _ ⟨rfl, rfl⟩ rfl⟩
  have hmoved := hsynced'.tail ⟨some true, fun _ _ => hmoves _ _, .call true _ _ _ _ _ ⟨rfl, rfl⟩ rfl⟩
  have hmoved' := hmoved.tail ⟨some false, fun _ _ => hmoves _ _, .call false _ _ _ _ _ ⟨rfl, rfl⟩ rfl⟩
  have hreturned := hmoved'.tail ⟨some true, fun _ _ => hmoves _ _, .call true _ _ _ _ _ ⟨rfl, rfl⟩ rfl⟩
  have hreturned' := hreturned.tail ⟨some false, fun _ _ => hmoves _ _, .call false _ _ _ _ _ ⟨rfl, rfl⟩ rfl⟩
  exact ⟨_, hreturned', fun k => by cases k <;> rfl⟩

theorem writeAtomic_all_or_nothing_two :
    ∃ w, Machine.Runs (twoWriters "g").processes (fun w k => ¬ (twoWriters "g").Intrudes w k)
        ((twoWriters "g").start (oneFile "g")) w ∧
      ∀ k, (w.threads k).program = .done () ∧
        w.medium.read ((twoWriters "g").finalPath k) = .ok ((twoWriters "g").bytes k) ∧
        ∀ kept found, (∀ p, w.medium.MayHold p (kept p)) →
          (w.medium.recover kept found).read ((twoWriters "g").finalPath k) =
            .ok ((twoWriters "g").bytes k) := by
  have hready := ready_oneFile "g"
  have htemp (k : Bool) : ¬ Temp ((twoWriters "g").finalPath k) := by
    cases k <;> exact not_temp_concat (by decide)
  have hapart (j k : Bool) : (twoWriters "g").finalPath j = (twoWriters "g").finalPath k → j = k := by
    revert j k
    decide
  obtain ⟨w, hrun, hreturned⟩ := runs_twoWriters
    (fun _ j => ∀ k, (twoWriters "g").finalPath j = (twoWriters "g").finalPath k → j = k)
    (fun _ j k => hapart j k)
  have hrun' := Writers.runs_of_not_temp hready htemp hrun
  have hall := Writers.writeAtomic_all_or_nothing (twoWriters "g") hready .refl
  refine ⟨w, hrun'.mono (fun _ _ h => h.1), fun k => ⟨hreturned k, ?_⟩⟩
  exact hall.2.1 k w rfl (hrun'.mono (fun _ _ h => ⟨h.1, h.2 k⟩)) (hreturned k)

/-- A call that draws the name of another one's final file fails on the file that is
    there, and removes it. -/
theorem cleanup_removes_final : (twoWriters ".7-5-0.tmp").Ready (oneFile ".7-5-0.tmp") ∧
    ¬ ∀ w, Machine.Runs (twoWriters ".7-5-0.tmp").processes (fun _ _ => True)
        ((twoWriters ".7-5-0.tmp").start (oneFile ".7-5-0.tmp")) w →
      ∀ k, w.medium.read ((twoWriters ".7-5-0.tmp").finalPath k) =
          (oneFile ".7-5-0.tmp").read ((twoWriters ".7-5-0.tmp").finalPath k) ∨
        ∃ j, (twoWriters ".7-5-0.tmp").finalPath j = (twoWriters ".7-5-0.tmp").finalPath k ∧
          w.medium.read ((twoWriters ".7-5-0.tmp").finalPath k) =
            .ok ((twoWriters ".7-5-0.tmp").bytes j) := by
  refine ⟨ready_oneFile _, fun hclaim => ?_⟩
  have hstarted : Machine.Runs (twoWriters ".7-5-0.tmp").processes (fun _ _ => True)
      ((twoWriters ".7-5-0.tmp").start (oneFile ".7-5-0.tmp")) _ :=
    .single ⟨none, fun _ _ => trivial, .start false rfl (fun _ h => nomatch h)⟩
  have hnamed := hstarted.tail ⟨some false, fun _ _ => trivial, .suffix false _ 5 ⟨rfl, rfl⟩⟩
  have hrefused := hnamed.tail ⟨some false, fun _ _ => trivial, .call false _ _ _ _ _ ⟨rfl, rfl⟩ rfl⟩
  have hremoved := hrefused.tail ⟨some false, fun _ _ => trivial, .call false _ _ _ _ _ ⟨rfl, rfl⟩ rfl⟩
  rcases hclaim _ hremoved true with hstart | ⟨j, -, hbytes⟩
  · cases hstart
  · cases hbytes

end Plain

end Store
