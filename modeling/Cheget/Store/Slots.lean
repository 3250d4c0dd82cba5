-- SUMMARY: The coordinates of what the stores on a root hold, whose files are apart from each other.
import Cheget.Store.Checkpoint
import Cheget.Store.Effects
import Cheget.Store.Identity

/-!
# Slots

Three stores may share a root: the shares with their public envelopes, the
checkpoints, and the transport identity. No file of theirs is another's, nor in
the way of another's as a directory.
-/

namespace Store

open Cli Crypto

/-- The coordinates of a stored artefact. -/
inductive Slot where
  | share (tag : ShareTag)
  | group (keyId : KeyId) (epoch : Epoch)
  | round1 (cid : CeremonyId) (seat : SeatId)
  | round2 (cid : CeremonyId) (seat : SeatId)
  | identity

namespace Slot

/-- The file of an artefact. -/
def path (root : FilePath) : Slot → FilePath
  | .share tag => sharePath root tag
  | .group keyId epoch => publicPath root keyId epoch
  | .round1 cid seat => roundPath root cid seat 1
  | .round2 cid seat => roundPath root cid seat 2
  | .identity => identityPath root

/-- The ceremony that a checkpoint belongs to. -/
def ceremony : Slot → Option CeremonyId
  | .round1 cid _ => some cid
  | .round2 cid _ => some cid
  | _ => none

end Slot

/-! ## Checkpoints -/

theorem roundPath_eq (root : FilePath) (cid : CeremonyId) (seat : SeatId) (round : UInt8) :
    roundPath root cid seat round =
      root ++ [ceremoniesDir, cid.id, seatHex seat, "round-" ++ toString round.toNat ++ ".age"] := by
  simp [roundPath, ceremonyDir]

theorem roundPath_inj {root root' : FilePath} {cid cid' : CeremonyId} {seat seat' : SeatId}
    {round round' : UInt8} (h : roundPath root cid seat round = roundPath root' cid' seat' round') :
    root = root' ∧ cid = cid' ∧ seat = seat' ∧ round = round' := by
  rw [roundPath_eq, roundPath_eq] at h
  obtain ⟨hroot, hrest⟩ := List.append_inj' h (by simp)
  simp only [List.cons.injEq, true_and, and_true] at hrest
  obtain ⟨hcid, hseat, hround⟩ := hrest
  refine ⟨hroot, CeremonyId.id_injective hcid, seatHex_injective hseat, UInt8.toNat_inj.mp ?_⟩
  exact Nat.toString_injective (String.append_right_injective _ (String.append_left_injective _ hround))

theorem not_temp_roundPath (root : FilePath) (cid : CeremonyId) (seat : SeatId) (round : UInt8) :
    ¬ Temp (roundPath root cid seat round) := by
  have hsplit : roundPath root cid seat round =
      (ceremonyDir root cid ++ [seatHex seat]) ++ ["round-" ++ toString round.toNat ++ ".age"] := by
    simp [roundPath]
  rw [hsplit]
  exact not_temp_concat (by simp [String.toList_append])

/-! ## Slots are apart -/

namespace Slot

variable {root : FilePath} {a b s : Slot}

/-- The name that the paths of a kind start with, below the root. -/
def kind : Slot → String
  | .share _ => "shares"
  | .group _ _ => "pubkey"
  | .round1 _ _ => ceremoniesDir
  | .round2 _ _ => ceremoniesDir
  | .identity => identityFile

theorem path_eq_kind (s : Slot) (root : FilePath) : ∃ rest, s.path root = root ++ s.kind :: rest := by
  cases s with
  | share tag => exact ⟨_, rfl⟩
  | group keyId epoch => exact ⟨_, rfl⟩
  | round1 cid seat => exact ⟨_, roundPath_eq _ _ _ _⟩
  | round2 cid seat => exact ⟨_, roundPath_eq _ _ _ _⟩
  | identity => exact ⟨_, rfl⟩

theorem kind_eq_of_isPrefix (h : a.path root <+: b.path root) : a.kind = b.kind := by
  obtain ⟨rest, ha⟩ := a.path_eq_kind root
  obtain ⟨rest', hb⟩ := b.path_eq_kind root
  rw [ha, hb, List.prefix_append_right_inj, List.cons_prefix_cons] at h
  exact h.1

/-- No file is another's, nor above it. -/
theorem eq_of_isPrefix (h : a.path root <+: b.path root) : a = b := by
  have hkind := kind_eq_of_isPrefix h
  cases a with
  | share tag =>
      cases b with
      | share tag' =>
          have hpath := h.eq_of_length (by simp [path, sharePath])
          rw [(sharePath_inj hpath).2]
      | _ => simp [kind, ceremoniesDir, identityFile] at hkind
  | group keyId epoch =>
      cases b with
      | group keyId' epoch' =>
          have hpath := h.eq_of_length (by simp [path, publicPath])
          rw [(publicPath_inj hpath).2.1, (publicPath_inj hpath).2.2]
      | _ => simp [kind, ceremoniesDir, identityFile] at hkind
  | round1 cid seat =>
      cases b with
      | round1 cid' seat' =>
          have hpath := h.eq_of_length (by simp [path, roundPath_eq])
          rw [(roundPath_inj hpath).2.1, (roundPath_inj hpath).2.2.1]
      | round2 cid' seat' =>
          have hpath := h.eq_of_length (by simp [path, roundPath_eq])
          exact absurd (roundPath_inj hpath).2.2.2 (by decide)
      | _ => simp [kind, ceremoniesDir, identityFile] at hkind
  | round2 cid seat =>
      cases b with
      | round1 cid' seat' =>
          have hpath := h.eq_of_length (by simp [path, roundPath_eq])
          exact absurd (roundPath_inj hpath).2.2.2 (by decide)
      | round2 cid' seat' =>
          have hpath := h.eq_of_length (by simp [path, roundPath_eq])
          rw [(roundPath_inj hpath).2.1, (roundPath_inj hpath).2.2.1]
      | _ => simp [kind, ceremoniesDir, identityFile] at hkind
  | identity =>
      cases b with
      | identity => rfl
      | _ => simp [kind, ceremoniesDir, identityFile] at hkind

/-- The manifest is apart from them all. -/
theorem not_prefix_manifestPath (s : Slot) (root : FilePath) : ¬ s.path root <+: manifestPath root := by
  obtain ⟨rest, hpath⟩ := s.path_eq_kind root
  rw [hpath, manifestPath, List.prefix_append_right_inj, List.cons_prefix_cons]
  rintro ⟨hkind, -⟩
  cases s <;> simp [kind, ceremoniesDir, identityFile] at hkind

/-- Below a ceremony's directory are its own checkpoints. -/
theorem ceremonyDir_isPrefix {cid : CeremonyId} :
    ceremonyDir root cid <+: s.path root ↔ s.ceremony = some cid := by
  have hround : ∀ (cid' : CeremonyId) (seat : SeatId) (round : UInt8),
      ceremonyDir root cid <+: roundPath root cid' seat round ↔ some cid' = some cid := by
    intro cid' seat round
    rw [roundPath_eq, ceremonyDir, List.prefix_append_right_inj, List.cons_prefix_cons,
      List.cons_prefix_cons, Option.some.injEq]
    exact ⟨fun h => (CeremonyId.id_injective h.2.1).symm, fun h => ⟨rfl, by rw [h], List.nil_prefix⟩⟩
  have hother : s.kind ≠ ceremoniesDir → ¬ ceremonyDir root cid <+: s.path root := by
    intro hkind h
    obtain ⟨rest, hpath⟩ := s.path_eq_kind root
    rw [hpath, ceremonyDir, List.prefix_append_right_inj, List.cons_prefix_cons] at h
    exact hkind h.1.symm
  cases s with
  | round1 cid' seat => exact hround cid' seat 1
  | round2 cid' seat => exact hround cid' seat 2
  | share tag => exact iff_of_false (hother (by simp [kind, ceremoniesDir])) (fun h => nomatch h)
  | group keyId epoch => exact iff_of_false (hother (by simp [kind, ceremoniesDir])) (fun h => nomatch h)
  | identity => exact iff_of_false (hother (by simp [kind, ceremoniesDir, identityFile])) (fun h => nomatch h)

theorem path_ne_nil (s : Slot) (root : FilePath) : s.path root ≠ [] := by
  obtain ⟨rest, hpath⟩ := s.path_eq_kind root
  simp [hpath]

/-- No slot's file is temporary. -/
theorem not_temp_path (s : Slot) (root : FilePath) : ¬ Temp (s.path root) := by
  cases s with
  | share tag => exact not_temp_sharePath root tag
  | group keyId epoch => exact not_temp_publicPath root keyId epoch
  | round1 cid seat => exact not_temp_roundPath root cid seat 1
  | round2 cid seat => exact not_temp_roundPath root cid seat 2
  | identity => exact not_temp_concat (by decide)

end Slot

end Store
