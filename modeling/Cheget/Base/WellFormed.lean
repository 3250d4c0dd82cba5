-- SUMMARY: In a file system every node is in a directory, and every call keeps it so.
import Cheget.Base.FileSystem

/-!
# Well-formed trees

The tree is a map of paths, which by itself would allow a file in a directory
that does not exist.
-/

namespace FileTree

/-- Everything but the root, which has no node, is in a directory. -/
def WellFormed (t : FileTree) : Prop := ∀ p : FilePath, t[p]? ≠ none → p ≠ [] ∧ t.hasDir p.dropLast = true

theorem wellFormed_empty : WellFormed ∅ := by
  intro p h
  simp at h

variable {t : FileTree} {p : FilePath}

theorem hasDir_iff : t.hasDir p = true ↔ t[p]? = some .dir ∨ p = [] := by
  unfold hasDir
  cases h : t[p]? with
  | none => simp
  | some node => cases node <;> simp

/-- A file is not a directory. -/
theorem WellFormed.hasDir_file (h : t.WellFormed) {content : Bytes} (hp : t[p]? = some (.file content)) :
    t.hasDir p = false := by
  refine Bool.eq_false_iff.mpr (fun hdir => ?_)
  rcases hasDir_iff.mp hdir with hnode | hempty
  · cases hp.symm.trans hnode
  · exact (h p (by simp [hp])).1 hempty

/-- What is above a node is a directory. -/
theorem WellFormed.hasDir_of_prefix (h : t.WellFormed) {q : FilePath} (hq : t[q]? ≠ none)
    (hpre : p <+: q) (hne : p ≠ q) : t.hasDir p = true := by
  induction q using List.reverseRecOn with
  | nil => exact absurd (List.prefix_nil.mp hpre) hne
  | append_singleton q name ih =>
      have hdir := (h (q ++ [name]) hq).2
      rw [List.dropLast_concat] at hdir
      have hpre' := (List.prefix_concat_iff.mp hpre).resolve_left hne
      by_cases hpq : p = q
      · exact hpq ▸ hdir
      · rcases hasDir_iff.mp hdir with hnode | rfl
        · exact ih (by simp [hnode]) hpre' hpq
        · exact absurd (List.prefix_nil.mp hpre') hpq

/-- No file is above a node. -/
theorem WellFormed.missing_of_node (h : t.WellFormed) {name : String} {rest : FilePath}
    (hnode : t[p ++ name :: rest]? ≠ none) : t.missing p = .notFound := by
  refine missing_eq_notFound.mpr (fun q hq hpre => ?_)
  have habove : q <+: p ++ name :: rest := hpre.trans (List.prefix_append _ _)
  have hne : q ≠ p ++ name :: rest := by
    rintro rfl
    exact absurd hpre.length_le (by simp)
  rcases hasDir_iff.mp (h.hasDir_of_prefix hnode habove hne) with hdir | hempty
  · rw [hasFile, hdir]
  · exact absurd hempty hq

/-! ## What keeps a tree well formed -/

/-- A new node leaves the directories alone unless it takes the place of one. -/
theorem hasDir_insert {node : FileNode} (hnode : node = .dir ∨ t.hasDir p = false) {q : FilePath}
    (hq : t.hasDir q = true) : hasDir (t.insert p node) q = true := by
  rw [hasDir_iff, BTreeMap.getElem?_insert]
  by_cases hpq : p = q
  · subst hpq
    rcases hnode with rfl | hfalse
    · exact Or.inl (by simp)
    · cases hq.symm.trans hfalse
  · rw [if_neg hpq, ← hasDir_iff]
    exact hq

theorem WellFormed.insert (h : t.WellFormed) {node : FileNode} (hne : p ≠ [])
    (hdir : t.hasDir p.dropLast = true) (hnode : node = .dir ∨ t.hasDir p = false) :
    WellFormed (t.insert p node) := by
  intro q hq
  rw [BTreeMap.getElem?_insert] at hq
  split at hq
  · next heq => exact heq ▸ ⟨hne, hasDir_insert hnode hdir⟩
  · exact ⟨(h q hq).1, hasDir_insert hnode (h q hq).2⟩

/-- Paths may be removed together with what is below them. -/
theorem WellFormed.removeAll (h : t.WellFormed) {ps : List FilePath}
    (hps : ∀ q : FilePath, t[q]? ≠ none → q.dropLast ∈ ps → q ∈ ps) : (t.removeAll ps).WellFormed := by
  intro q hq
  rw [t.getElem?_removeAll] at hq
  split at hq
  · exact absurd rfl hq
  · next hmem =>
      refine ⟨(h q hq).1, ?_⟩
      rw [hasDir_iff, t.getElem?_removeAll, if_neg (fun hdir => hmem (hps q hq hdir)), ← hasDir_iff]
      exact (h q hq).2

/-- There is nothing below a file. -/
theorem WellFormed.erase_file (h : t.WellFormed) (hp : t.hasDir p = false) : WellFormed (t.erase p) := by
  have hps : ∀ q : FilePath, t[q]? ≠ none → q.dropLast ∈ [p] → q ∈ [p] := by
    intro q hq hmem
    have hdir := (h q hq).2
    rw [List.mem_singleton.mp hmem, hp] at hdir
    cases hdir
  exact h.removeAll hps

/-! ## Calls -/

/-- Directories are created from the outside in. -/
theorem WellFormed.mkdirs_range (h : t.WellFormed) {i m : Nat} (hle : i + m ≤ p.length)
    (hdir : t.hasDir (p.take i) = true) :
    WellFormed (t.mkdirs ((List.range' i m).map (fun n => p.take (n + 1)))).2 := by
  induction m generalizing t i with
  | zero => exact h
  | succ m ih =>
      have hlength : (p.take (i + 1)).length = i + 1 := by
        rw [List.length_take]
        omega
      have hparent : (p.take (i + 1)).dropLast = p.take i := by
        rw [List.dropLast_eq_take, List.take_take, hlength]
        congr 1
        omega
      rw [List.range'_succ, List.map_cons, mkdirs]
      split
      · next hnode => exact ih h (by omega) (hasDir_iff.mpr (Or.inl hnode))
      · exact h
      · refine ih (h.insert ?_ (hparent ▸ hdir) (Or.inl rfl)) (by omega) (hasDir_iff.mpr (Or.inl ?_))
        · exact List.ne_nil_of_length_eq_add_one hlength
        · simp

theorem WellFormed.mkdirs_ancestors (h : t.WellFormed) (p : FilePath) (n : Nat) :
    WellFormed (t.mkdirs ((ancestors p).take n)).2 := by
  rw [ancestors, ← List.map_take, List.take_range, List.range_eq_range']
  exact h.mkdirs_range (by omega) (hasDir_iff.mpr (Or.inr rfl))

theorem WellFormed.createNew (h : t.WellFormed) (p : FilePath) : (t.createNew p).2.WellFormed := by
  unfold FileTree.createNew
  split
  · exact h
  · next hfree =>
      rw [Bool.or_eq_true, not_or, Option.not_isSome_iff_eq_none, List.isEmpty_iff] at hfree
      split
      · next hdir =>
          refine h.insert hfree.1 hdir (Or.inr (Bool.eq_false_iff.mpr (fun hnode => ?_)))
          rcases hasDir_iff.mp hnode with hnode | hempty
          · cases hfree.2.symm.trans hnode
          · exact hfree.1 hempty
      · exact h

theorem WellFormed.createTruncate (h : t.WellFormed) (p : FilePath) :
    (t.createTruncate p).2.WellFormed := by
  unfold FileTree.createTruncate
  split
  · exact h
  · next hnode =>
      split
      · next hdir =>
          refine h.insert (fun hempty => hnode (hasDir_iff.mpr (Or.inr hempty))) hdir (Or.inr ?_)
          exact Bool.eq_false_iff.mpr hnode
      · exact h

theorem WellFormed.writeAll (h : t.WellFormed) (p : FilePath) (bytes : Bytes) :
    (t.writeAll p bytes).2.WellFormed := by
  unfold FileTree.writeAll
  split
  · next content hfile =>
      have hp := h p (by simp [hfile])
      exact h.insert hp.1 hp.2 (Or.inr (h.hasDir_file hfile))
  · exact h
  · exact h

theorem WellFormed.rename (h : t.WellFormed) (src dst : FilePath) : (t.rename src dst).2.WellFormed := by
  unfold FileTree.rename
  split
  · next content hfile =>
      split
      · exact h
      · next hnode =>
          split
          · next hdir =>
              have hsrc := h.hasDir_file hfile
              have hkept : ∀ q, hasDir (t.erase src) q = true ↔ t.hasDir q = true := by
                intro q
                rw [hasDir_iff, BTreeMap.getElem?_erase]
                split
                · next heq =>
                    subst heq
                    rw [hsrc]
                    simpa using (h src (by simp [hfile])).1
                · rw [← hasDir_iff]
              refine (h.erase_file hsrc).insert ?_ ((hkept _).mpr hdir) (Or.inr ?_)
              · exact fun hempty => hnode (hasDir_iff.mpr (Or.inr hempty))
              · exact Bool.eq_false_iff.mpr (fun hbad => hnode ((hkept dst).mp hbad))
          · exact h
  · exact h
  · exact h

theorem WellFormed.removeFile (h : t.WellFormed) (p : FilePath) : (t.removeFile p).2.WellFormed := by
  unfold FileTree.removeFile
  split
  · next content hfile => exact h.erase_file (h.hasDir_file hfile)
  · exact h
  · exact h

/-- A descending list has its larger members first. -/
theorem mem_take_of_lt {α : Type} [LinearOrder α] {xs : List α} (h : xs.Pairwise (fun a b => b < a))
    {a b : α} {n : Nat} (ha : a ∈ xs) (hb : b ∈ xs.take n) (hlt : b < a) : a ∈ xs.take n := by
  rw [← List.take_append_drop n xs] at ha h
  rcases List.mem_append.mp ha with htake | hdrop
  · exact htake
  · exact absurd ((List.pairwise_append.mp h).2.2 b hb a hdrop) (not_lt_of_gt hlt)

theorem pairwise_subtree (t : FileTree) (p : FilePath) : (t.subtree p).Pairwise (fun a b => b < a) := by
  unfold subtree
  rw [List.pairwise_reverse]
  apply List.Pairwise.filter
  rw [← Std.ExtTreeMap.map_fst_toList_eq_keys, List.pairwise_map]
  exact BTreeMap.pairwise_toList t

theorem dropLast_lt (hp : p ≠ []) : p.dropLast < p := by
  refine lt_of_le_of_ne (not_lt.mp (List.IsPrefix.le (List.dropLast_prefix p))) (fun heq => ?_)
  have hlength := congrArg List.length heq
  rw [List.length_dropLast] at hlength
  have hpos := List.length_pos_iff.mpr hp
  omega

/-- What is below is removed first. -/
theorem WellFormed.removeAll_subtree (h : t.WellFormed) (p : FilePath) (n : Nat) :
    (t.removeAll ((t.subtree p).take n)).WellFormed := by
  refine h.removeAll (fun q hq hparent => ?_)
  have hbelow := (mem_subtree.mp (List.mem_of_mem_take hparent)).2.trans (List.dropLast_prefix q)
  exact mem_take_of_lt (t.pairwise_subtree p) (mem_subtree.mpr ⟨hq, hbelow⟩) hparent (dropLast_lt (h q hq).1)

theorem WellFormed.removeDirAll (h : t.WellFormed) (p : FilePath) : (t.removeDirAll p).2.WellFormed := by
  unfold FileTree.removeDirAll
  split
  · have hall := h.removeAll_subtree p (t.subtree p).length
    rw [List.take_length] at hall
    exact hall
  · exact h
  · exact h

end FileTree

/-! ## Runs -/

namespace SysEnv

open FileTree

variable {t : FileTree}

theorem guarded_wellFormed {α : Type} {env : SysEnv} {tick : Nat} {out : Except IoError α × FileTree}
    (h : t.WellFormed) (hout : out.2.WellFormed) : (env.guarded tick t out).2.WellFormed := by
  unfold guarded
  split
  · exact h
  · exact hout

/-- Every call keeps the tree well formed, whether it succeeds or fails. -/
theorem act_wellFormed (env : SysEnv) (tick : Nat) (h : t.WellFormed) (op : SysOp) :
    (env.act tick t op).2.WellFormed := by
  cases op with
  | createDirAll p =>
      simp only [act]
      split
      · exact h.mkdirs_ancestors p _
      · have hall := h.mkdirs_ancestors p (ancestors p).length
        rw [List.take_length] at hall
        exact hall
  | createNew p => exact guarded_wellFormed h (h.createNew p)
  | createTruncate p => exact guarded_wellFormed h (h.createTruncate p)
  | writeAll p bytes =>
      simp only [act]
      split
      · exact h.writeAll p _
      · exact h.writeAll p bytes
  | rename src dst => exact guarded_wellFormed h (h.rename src dst)
  | removeFile p => exact guarded_wellFormed h (h.removeFile p)
  | removeDirAll p =>
      simp only [act]
      split
      · exact h.removeAll_subtree p _
      · exact h.removeDirAll p
  | syncAll p => exact guarded_wellFormed h h
  | read p => exact guarded_wellFormed h h
  | readDir p => exact guarded_wellFormed h h
  | isDir p => exact h
  | uniqueSuffix => exact h
  | unixTime => exact h
  | entropy => exact h

/-- A directory that was removed, or was not there, has nothing below it. -/
theorem act_removeDirAll {env : SysEnv} {tick : Nat} (hfault : env.fault tick ≠ some .notFound)
    (h : t.WellFormed) {p : FilePath} (hp : p ≠ [])
    (hresp : (env.act tick t (.removeDirAll p)).1 = .ok () ∨
      (env.act tick t (.removeDirAll p)).1 = .error .notFound) (q : FilePath) :
    (env.act tick t (.removeDirAll p)).2[q]? = if p <+: q then none else t[q]? := by
  revert hresp
  simp only [act]
  split
  · next e he =>
      rintro (hok | hnone)
      · cases hok
      · cases hnone
        exact absurd he hfault
  · intro hresp
    unfold FileTree.removeDirAll at hresp ⊢
    split
    · rw [t.getElem?_removeAll]
      by_cases hmem : q ∈ t.subtree p
      · rw [if_pos hmem, if_pos (mem_subtree.mp hmem).2]
      · rw [if_neg hmem]
        split
        · next hpre =>
            by_contra hq
            exact hmem (mem_subtree.mpr ⟨hq, hpre⟩)
        · rfl
    · next content hfile =>
        rw [hfile] at hresp
        rcases hresp with hok | hnone
        · cases hok
        · cases hnone
    · next hnone =>
        split
        · next hpre =>
            by_contra hq
            have hne : p ≠ q := fun heq => hq (heq ▸ hnone)
            rcases hasDir_iff.mp (h.hasDir_of_prefix hq hpre hne) with hdir | hempty
            · cases hnone.symm.trans hdir
            · exact hp hempty
        · rfl

/-- What is looked for there, or below, is not found. -/
theorem act_removeDirAll_missing {env : SysEnv} {tick : Nat} (hfault : env.fault tick ≠ some .notFound)
    (h : t.WellFormed) {p : FilePath} (hp : p ≠ [])
    (hresp : (env.act tick t (.removeDirAll p)).1 = .ok () ∨
      (env.act tick t (.removeDirAll p)).1 = .error .notFound) {q : FilePath} (hpq : p <+: q) :
    (env.act tick t (.removeDirAll p)).2.missing q = .notFound := by
  refine missing_eq_notFound.mpr (fun r hr hrq => ?_)
  have hnode := act_removeDirAll hfault h hp hresp r
  by_cases hpr : p <+: r
  · rw [if_pos hpr] at hnode
    rw [hasFile, hnode]
  · rw [if_neg hpr] at hnode
    have hrp : r <+: p := (List.prefix_or_prefix_of_prefix hrq hpq).resolve_right hpr
    have hne : r ≠ p := fun heq => hpr (heq ▸ List.prefix_rfl)
    rw [hasFile, hnode, ← hasFile]
    revert hresp
    simp only [act]
    split
    · next e he =>
        rintro (hok | hnone)
        · cases hok
        · cases hnone
          exact absurd he hfault
    · intro hresp
      unfold FileTree.removeDirAll at hresp
      split at hresp
      · next hdir =>
          have habove := h.hasDir_of_prefix (by simp [hdir]) hrp hne
          rcases hasDir_iff.mp habove with hdir' | hempty
          · rw [hasFile, hdir']
          · exact absurd hempty hr
      · rcases hresp with hok | hnone
        · cases hok
        · cases hnone
      · rcases hresp with hok | hnone
        · cases hok
        · exact missing_eq_notFound.mp (Except.error.inj hnone) r hr hrp

end SysEnv

/-- A program keeps the tree well formed. -/
theorem SysM.wellFormed {ε α : Type} (p : SysM ε α) (env : SysEnv) {d : Disk} (h : d.tree.WellFormed) :
    (p.run env.world d).state.tree.WellFormed := by
  induction p generalizing d with
  | done a => exact h
  | fail e => exact h
  | exec op k ih => exact ih _ (SysEnv.act_wellFormed env d.tick h op)
