-- SUMMARY: Writers beside removals on one file system: every file is authored and whole, or temporary and begun.
import Cheget.Store.Shared

/-!
# Authored files

Calls that take turns on one file system may fail, stop for good, or lose files
to somebody who removes them. A call relies on nothing but this: nobody else
makes or changes a file under a temporary name that it has been given. So each
file is from before, or complete with a content that one of the calls writes
there, or a temporary file that holds a beginning of such a content.
-/

namespace Store

namespace Discipline

open Cli Crypto

section Terms

variable {ι : Type}

/-! ## Terms -/

/-- What `k` relies on: its temporary files may vanish, and nothing else happens
    to them. -/
structure Rely (env : SysEnv) (k : ι) (w w' : Turns ι) : Prop where
  log : w.2 <+: w'.2
  temps : ∀ p bytes, Owns env k w p → w'.1.tree[p]? = some (.file bytes) →
    w.1.tree[p]? = some (.file bytes)

def Guar (env : SysEnv) (k : ι) (w w' : Turns ι) : Prop := ∀ j, j ≠ k → Rely env j w w'

theorem terms [DecidableEq ι] (env : SysEnv) :
    Program.Crew.Terms (Rely (ι := ι) env) (Guar env) where
  refl _ _ := ⟨List.prefix_rfl, fun _ _ _ h => h⟩
  trans _ _ _ _ h h' := ⟨h.log.trans h'.log, fun p bytes hown hfile =>
    h.temps p bytes hown (h'.temps p bytes (hown.mono h.log) hfile)⟩
  others _ k _ _ hne h := h k (Ne.symm hne)

/-! ## The invariant -/

/-- A temporary file that holds a beginning of what is to be written. -/
def Begun (Writes : FilePath → Bytes → Prop) (p : FilePath) (bytes : Bytes) : Prop :=
  ∃ f suffix full, p = tempPath f.dropLast suffix ∧ bytes <+: full ∧ Writes f full

/-- A content that one of the calls writes to the path, or has begun to. -/
def Authored (Writes : ι → FilePath → Bytes → Prop) (p : FilePath) (bytes : Bytes) : Prop :=
  ∃ k, Writes k p bytes ∨ Begun (Writes k) p bytes

/-- Every file is from before or authored, and the files to keep are there. -/
structure Disciplined (Keep : FilePath → Prop) (Writes : ι → FilePath → Bytes → Prop) (t₀ : FileTree)
    (w : Turns ι) : Prop where
  ticks : Ticks w
  files : ∀ p bytes, w.1.tree[p]? = some (.file bytes) →
    t₀[p]? = some (.file bytes) ∨ Authored Writes p bytes
  kept : ∀ f bytes, Keep f → t₀[f]? = some (.file bytes) → w.1.tree[f]? = some (.file bytes)

/-- What is assumed of the names that are given, of the files that are written,
    and of those to keep. -/
structure Lawful (env : SysEnv) (Keep : FilePath → Prop) (Writes : ι → FilePath → Bytes → Prop) : Prop where
  suffix : Function.Injective env.suffix
  final : ∀ k f bytes, Writes k f bytes → ¬ Temp f
  spared : ∀ k f bytes, Writes k f bytes → ¬ Keep f
  keep : ∀ f, Keep f → ¬ Temp f

variable {env : SysEnv} {Keep : FilePath → Prop} {Writes : ι → FilePath → Bytes → Prop} {t₀ : FileTree}
  {k : ι} {w : Turns ι}

theorem disciplined_start (t₀ : FileTree) : Disciplined Keep Writes t₀ ((⟨t₀, 0⟩, []) : Turns ι) where
  ticks := rfl
  files _ _ h := Or.inl h
  kept _ _ _ h := h

/-- The call keeps what is to be kept. -/
def Spares (Keep : FilePath → Prop) (op : SysOp) : Prop :=
  ∀ env tick t f bytes, Keep f → t[f]? = some (.file bytes) →
    (SysEnv.act env tick t op).2[f]? = some (.file bytes)

/-- A step whose files are authored. -/
theorem Disciplined.turn (h : Disciplined Keep Writes t₀ w) (k : ι) {op : SysOp}
    (hmakes : ∀ p bytes, op.Makes w.1.tree p bytes → Authored Writes p bytes) (hspares : Spares Keep op) :
    Disciplined Keep Writes t₀ (turn env k op w).2 where
  ticks := h.ticks.turn k op
  files p bytes hfile := by
    rcases SysEnv.act_makes hfile with hold | hmade
    · exact h.files p bytes hold
    · exact Or.inr (hmakes p bytes hmade)
  kept f bytes hf hfile := hspares env _ _ f bytes hf (h.kept f bytes hf hfile)

/-- A step that makes no temporary file of another. -/
theorem guar_turn {op : SysOp}
    (hmakes : ∀ p bytes, op.Makes w.1.tree p bytes → ∀ j, j ≠ k → ¬ Owns env j w p) :
    Guar env k w (turn env k op w).2 := by
  refine fun j hj => ⟨List.prefix_append _ _, fun p bytes hown hfile => ?_⟩
  rcases SysEnv.act_makes hfile with hold | hmade
  · exact hold
  · exact absurd hown (hmakes p bytes hmade j hj)

/-! ## Calls that make no file -/

/-- The call neither makes nor changes a file, and keeps those to keep. -/
structure Idle (Keep : FilePath → Prop) (op : SysOp) : Prop where
  makes : ∀ t p bytes, ¬ op.Makes t p bytes
  spares : Spares Keep op

theorem idle_of_prepares {op : SysOp} (hop : Prepares (fun _ => True) op) (hworks : worksOn op = none) :
    Idle Keep op where
  makes t p bytes hmade := by
    cases hmade with
    | created => cases hworks
    | truncated => cases hworks
    | written hold hpart => cases hworks
    | renamed hsrc => exact hop
  spares env tick t f bytes _ hfile := by
    refine hop.keeps_file env tick hfile ?_
    rw [hworks]
    exact (Option.some_ne_none f).symm

/-- The calls of somebody who reads, and removes what need not be kept. -/
def Cleans (Keep : FilePath → Prop) : SysOp → Prop
  | .createDirAll _ => False
  | .createNew _ => False
  | .createTruncate _ => False
  | .writeAll _ _ => False
  | .rename _ _ => False
  | .removeFile p => ¬ Keep p
  | .removeDirAll p => ∀ f, Keep f → ¬ p <+: f
  | _ => True

theorem idle_of_cleans {op : SysOp} (hop : Cleans Keep op) : Idle Keep op where
  makes t p bytes hmade := by
    cases hmade with
    | created => exact hop
    | truncated => exact hop
    | written hold hpart => exact hop
    | renamed hsrc => exact hop
  spares env tick t f bytes hf hfile := by
    have htouch : ¬ op.Touches f := by
      intro htouch
      cases op with
      | createDirAll p => exact hop
      | createNew p => exact hop
      | createTruncate p => exact hop
      | writeAll p content => exact hop
      | rename src dst => exact hop
      | removeFile p => exact hop (htouch ▸ hf)
      | removeDirAll p => exact hop f hf htouch
      | _ => exact htouch
    exact (SysEnv.act_frame htouch).trans hfile

end Terms

/-! ## Obeying the terms -/

section Obeying

variable {ι : Type}

/-- `k` obeys under the terms and the invariant. -/
abbrev Obeys (env : SysEnv) (Keep : FilePath → Prop) (Writes : ι → FilePath → Bytes → Prop) (t₀ : FileTree)
    (k : ι) {ε α : Type} (Q : α → Turns ι → Prop) (p : SysM ε α) (w : Turns ι) : Prop :=
  p.Respects (turn env k) (Disciplined Keep Writes t₀) (Rely env k) (Guar env k) Q w

variable {env : SysEnv} {Keep : FilePath → Prop} {Writes : ι → FilePath → Bytes → Prop} {t₀ : FileTree}
  {k : ι} {w : Turns ι}

/-- An idle call. -/
theorem obeys_sys {ε : Type} {op : SysOp} {Q : op.Resp → Turns ι → Prop} (hop : Idle Keep op)
    (hQ : ∀ w', Rely env k w w' → Disciplined Keep Writes t₀ w' →
      Q (turn env k op w').1 (turn env k op w').2) :
    Obeys env Keep Writes t₀ k Q (sys op : SysM ε _) w := by
  intro w' hw' hrely
  refine ⟨hw'.turn k (fun p bytes hmade => absurd hmade (hop.makes _ _ _)) hop.spares, ?_, hQ w' hrely hw'⟩
  exact guar_turn (fun p bytes hmade => absurd hmade (hop.makes _ _ _))

theorem obeys_of_idle {ε α : Type} {p : SysM ε α} (hp : p.Uses (Idle Keep)) :
    Obeys env Keep Writes t₀ k (fun _ _ => True) p w := by
  refine hp.respects (F := fun _ => True) (fun op w' hop hw' _ => ?_) (fun _ _ _ _ => trivial) trivial
  refine ⟨hw'.turn k (fun p bytes hmade => absurd hmade (hop.makes _ _ _)) hop.spares, ?_, trivial⟩
  exact guar_turn (fun p bytes hmade => absurd hmade (hop.makes _ _ _))

/-! ## Replacing a file -/

/-- Whatever is left of the file holds these bytes. -/
def Holds (tmp : FilePath) (bytes : Bytes) (w : Turns ι) : Prop :=
  ∀ content, w.1.tree[tmp]? = some (.file content) → content = bytes

theorem Holds.rely {tmp : FilePath} {bytes : Bytes} {w' : Turns ι} (h : Holds tmp bytes w)
    (hown : Owns env k w tmp) (hrely : Rely env k w w') : Holds tmp bytes w' :=
  fun content hfile => h content (hrely.temps tmp content hown hfile)

variable (hlawful : Lawful env Keep Writes)

include hlawful

/-- A call that works on an own temporary file, where it leaves a beginning of
    what is to be written. -/
theorem obeys_own {ε : Type} {tmp f : FilePath} {suffix : String} {full : Bytes} {op : SysOp}
    {Q : op.Resp → Turns ι → Prop} (htmp : tmp = tempPath f.dropLast suffix) (hfull : Writes k f full)
    (hown : Owns env k w tmp) (hop : Prepares (fun _ => True) op) (hworks : worksOn op = some tmp)
    (hmakes : ∀ w' p bytes, Rely env k w w' → op.Makes w'.1.tree p bytes → p = tmp ∧ bytes <+: full)
    (hQ : ∀ w', Rely env k w w' → Disciplined Keep Writes t₀ w' →
      Q (turn env k op w').1 (turn env k op w').2) :
    Obeys env Keep Writes t₀ k Q (sys op : SysM ε _) w := by
  intro w' hw' hrely
  have hspares : Spares Keep op := by
    intro env tick t q bytes hq hfile
    refine hop.keeps_file env tick hfile (fun h => ?_)
    rw [hworks, Option.some.injEq] at h
    exact hlawful.keep q hq (h ▸ hown.temp)
  refine ⟨hw'.turn k (fun p bytes hmade => ?_) hspares, guar_turn (fun p bytes hmade j hj hother => ?_),
    hQ w' hrely hw'⟩
  · obtain ⟨rfl, hprefix⟩ := hmakes w' p bytes hrely hmade
    exact ⟨k, Or.inr ⟨f, suffix, full, htmp, hprefix, hfull⟩⟩
  · obtain ⟨rfl, -⟩ := hmakes w' p bytes hrely hmade
    exact hj ((hown.mono hrely.log).unique hlawful.suffix hother).symm

theorem cleanUp_obeys [KeyCodec] [Json] {tmp : FilePath} (htemp : Temp tmp) (e : IoError)
    {Q : Unit → Turns ι → Prop} : Obeys env Keep Writes t₀ k Q (cleanUp tmp e) w := by
  have hop : Idle Keep (.removeFile tmp) := idle_of_cleans (fun hkeep => hlawful.keep tmp hkeep htemp)
  exact Program.Respects.bind (Q := fun _ _ => True) (obeys_sys hop (fun _ _ _ => trivial))
    (fun _ _ _ => trivial)

/-- Once the temporary file is written, it holds all of the bytes, if it is still
    there. -/
theorem writeTemp_obeys {tmp f : FilePath} {suffix : String} {bytes : Bytes}
    (htmp : tmp = tempPath f.dropLast suffix) (hwrites : Writes k f bytes) (hown : Owns env k w tmp) :
    Obeys env Keep Writes t₀ k (fun _ w' => Owns env k w' tmp ∧ Holds tmp bytes w')
      (writeTemp tmp bytes) w := by
  have htemp := hown.temp
  refine Program.Respects.bind (Q := fun created w₁ => Owns env k w₁ tmp ∧
      (created = .ok () → Holds tmp [] w₁))
    (obeys_own hlawful htmp hwrites hown htemp rfl ?_ ?_) ?_
  · intro w' p content hrely hmade
    cases hmade
    exact ⟨rfl, List.nil_prefix⟩
  · intro w' hrely hw'
    refine ⟨(hown.mono hrely.log).mono (List.prefix_append _ _), fun hok content hfile => ?_⟩
    have htree : (turn env k (.createNew tmp) w').2.1.tree = w'.1.tree.insert tmp (.file []) :=
      SysEnv.act_createNew_ok hok
    rw [htree, BTreeMap.getElem?_insert, if_pos rfl] at hfile
    cases hfile
    rfl
  rintro created w₁ ⟨hown₁, hempty⟩
  refine Program.Respects.bind (Q := fun _ w₁ => Owns env k w₁ tmp ∧ Holds tmp [] w₁)
    (Program.respects_ofExcept (fun _ hok => ⟨hown₁, hempty hok⟩)) ?_
  rintro - w₁ ⟨hown₁, hempty⟩
  refine Program.Respects.bind (Q := fun written w₂ => Owns env k w₂ tmp ∧
      (written = .ok () → Holds tmp bytes w₂))
    (obeys_own hlawful htmp hwrites hown₁ htemp rfl ?_ ?_) ?_
  · intro w' p content hrely hmade
    cases hmade with
    | written hold hpart =>
        rw [hempty.rely hown₁ hrely _ hold]
        exact ⟨rfl, hpart⟩
  · intro w' hrely hw'
    refine ⟨(hown₁.mono hrely.log).mono (List.prefix_append _ _), fun hok content hfile => ?_⟩
    obtain ⟨old, hold⟩ := SysEnv.exists_of_act_writeAll_ok hok
    have htree : (turn env k (.writeAll tmp bytes) w').2.1.tree = w'.1.tree.insert tmp (.file (old ++ bytes)) :=
      SysEnv.act_writeAll_ok hold hok
    rw [htree, BTreeMap.getElem?_insert, if_pos rfl, hempty.rely hown₁ hrely old hold, List.nil_append] at hfile
    cases hfile
    rfl
  rintro written w₂ ⟨hown₂, hfull⟩
  refine Program.Respects.bind (Q := fun _ w₂ => Owns env k w₂ tmp ∧ Holds tmp bytes w₂)
    (Program.respects_ofExcept (fun _ hok => ⟨hown₂, hfull hok⟩)) ?_
  rintro - w₂ ⟨hown₂, hfull⟩
  refine Program.Respects.bind (Q := fun _ w₃ => Owns env k w₃ tmp ∧ Holds tmp bytes w₃)
    (obeys_sys (idle_of_cleans trivial) ?_)
    (fun synced w₃ h => Program.respects_ofExcept (fun _ _ => h))
  intro w' hrely hw'
  refine ⟨(hown₂.mono hrely.log).mono (List.prefix_append _ _), fun content hfile => ?_⟩
  have hframe : (turn env k (.syncAll tmp) w').2.1.tree[tmp]? = w'.1.tree[tmp]? :=
    SysEnv.act_frame (fun h => h)
  exact hfull.rely hown₂ hrely content (hframe.symm.trans hfile)

/-- A write leaves its file alone or complete, whatever happens to its temporary
    file. -/
theorem writeAtomic_obeys [KeyCodec] [Json] {f : FilePath} {bytes : Bytes} (hwrites : Writes k f bytes) :
    Obeys env Keep Writes t₀ k (fun _ _ => True) (writeAtomic f bytes) w := by
  unfold writeAtomic
  split
  · trivial
  refine Program.Respects.bind (Q := fun suffix w₁ => Owns env k w₁ (tempPath f.dropLast suffix))
    (obeys_sys (idle_of_cleans trivial) ?_) ?_
  · intro w' _ hw'
    refine ⟨f.dropLast, w'.1.tick, ⟨.uniqueSuffix, (turn env k .uniqueSuffix w').1⟩, rfl, ?_⟩
    rw [log_turn, ← hw'.ticks, List.getElem?_append_right (Nat.le_refl _), Nat.sub_self]
    rfl
  intro suffix w₁ hown₁
  have hwrite : Obeys env Keep Writes t₀ k _
      ((writeTemp _ bytes).attempt : StoreM (Except IoError Unit)) w₁ :=
    (writeTemp_obeys hlawful rfl hwrites hown₁).attempt
  refine Program.Respects.bind hwrite ?_
  intro written w₂ hfull
  cases written with
  | error e => exact cleanUp_obeys hlawful ⟨_, _, rfl⟩ e
  | ok out =>
      obtain ⟨hown₂, hfull⟩ := hfull () rfl
      intro w' hw' hrely
      have hmade : ∀ p content, (SysOp.rename (tempPath f.dropLast suffix) f).Makes w'.1.tree p content →
          p = f ∧ content = bytes := by
        intro p content hmade
        cases hmade with
        | renamed hsrc => exact ⟨rfl, hfull.rely hown₂ hrely _ hsrc⟩
      have hspares : Spares Keep (.rename (tempPath f.dropLast suffix) f) := by
        intro env tick t q content hq hfile
        refine (SysEnv.act_frame (fun htouch => ?_)).trans hfile
        rcases htouch with rfl | rfl
        · exact hlawful.keep _ hq ⟨_, _, rfl⟩
        · exact hlawful.spared k q bytes hwrites hq
      refine ⟨hw'.turn k (fun p content h => ?_) hspares, guar_turn (fun p content h j _ hother => ?_), ?_⟩
      · obtain ⟨rfl, rfl⟩ := hmade p content h
        exact ⟨k, Or.inl hwrites⟩
      · obtain ⟨rfl, -⟩ := hmade p content h
        exact hlawful.final k _ bytes hwrites hother.temp
      · cases (turn env k (.rename (tempPath f.dropLast suffix) f) w').1 with
        | error e => exact cleanUp_obeys hlawful ⟨_, _, rfl⟩ e
        | ok out =>
            exact obeys_of_idle (uses_io ⟨idle_of_cleans trivial, fun _ => trivial⟩)

omit hlawful in
theorem createDirSecure_obeys [KeyCodec] [Json] (path : FilePath) :
    Obeys env Keep Writes t₀ k (fun _ _ => True) (createDirSecure path) w := by
  refine obeys_of_idle ?_
  refine Program.Uses.bind (p := sys (.isDir path)) ⟨idle_of_cleans trivial, fun _ => trivial⟩
    (fun isDir => ?_)
  cases isDir with
  | true => trivial
  | false => exact uses_io ⟨idle_of_prepares ⟨path, trivial, List.prefix_rfl⟩ rfl, fun _ => trivial⟩

end Obeying

end Discipline

end Store
