-- SUMMARY: Stored shares and somebody who rearranges their files: when a share is only ever loaded under the tag it was put under.
import Cheget.Store.Plain
import Cheget.Store.Writes

/-!
# Rearranged shares

Somebody without the passphrase can remove share files, and copy those that he
sees, or has seen, to the place of another. Nothing in a share says which tag it
is of, so a share that decrypts is loaded under the tag of its place.
-/

namespace Store

open Cli Crypto

section Vaults

variable [KeyCodec] [Json] [Age]

/-! ## Histories -/

/-- The disk, and the calls that have returned, each with the share file that it
    has written. -/
structure Vault where
  disk : Disk
  written : List (Put × Bytes)

inductive VaultStep where
  /-- A share is persisted in the store at a root. -/
  | put (root : FilePath) (call : Put)
  /-- A share file that was written before is put in the place of a tag. -/
  | place (root : FilePath) (tag : ShareTag) (source : Put × Bytes)
  /-- The share file of a tag is removed, or moved away. -/
  | remove (root : FilePath) (tag : ShareTag)

namespace Vault

/-- The content of a share file. -/
def share (t : FileTree) (root : FilePath) (tag : ShareTag) : Option Bytes :=
  match t[sharePath root tag]? with
  | some (.file bytes) => some bytes
  | _ => none

def perform (env : SysEnv) (self : Vault) : VaultStep → Vault
  | .put root call =>
      let out := (call.program root).run env.world self.disk
      ⟨out.state, self.written ++ ((share out.state.tree root call.tag).map (call, ·)).toList⟩
  | .place root tag source =>
      { self with disk := ⟨self.disk.tree.insert (sharePath root tag) (.file source.2), self.disk.tick⟩ }
  | .remove root tag =>
      { self with disk := ⟨self.disk.tree.erase (sharePath root tag), self.disk.tick⟩ }

/-- Calls succeed, and only what was written can be placed. -/
def Possible (env : SysEnv) (self : Vault) : VaultStep → Prop
  | .put root call => ((call.program root).run env.world self.disk).result = .ok ()
  | .place _ _ source => source ∈ self.written
  | .remove _ _ => True

/-- Some call was given the key package under the tag. -/
def Given (self : Vault) (tag : ShareTag) (kp : KeyPackage) : Prop :=
  ∃ call ∈ self.written.map Prod.fst, call.tag = tag ∧ call.keyPackage = kp

/-- A share file is only placed under a tag that its key package was given
    under. -/
def InPlace (self : Vault) : VaultStep → Prop
  | .place _ tag source => self.Given tag source.1.keyPackage
  | _ => True

/-- Every step of the list meets a condition on the state before it. -/
def Each (C : Vault → VaultStep → Prop) (env : SysEnv) : Vault → List VaultStep → Prop
  | _, [] => True
  | self, step :: steps => C self step ∧ Each C env (self.perform env step) steps

/-- Every share file holds a key package that was given under its tag. -/
structure Placed (v : Vault) : Prop where
  written : ∀ source ∈ v.written, HoldsShare source.1.passphrase source.1.keyPackage source.2
  shares : ∀ root tag bytes, v.disk.tree[sharePath root tag]? = some (.file bytes) →
    ∃ passphrase kp, HoldsShare passphrase kp bytes ∧ v.Given tag kp

variable {env : SysEnv} {self : Vault}

theorem Given.append {tag : ShareTag} {kp : KeyPackage} (h : self.Given tag kp) {d : Disk}
    (more : List (Put × Bytes)) : Given ⟨d, self.written ++ more⟩ tag kp := by
  obtain ⟨call, hcall, htag, hkp⟩ := h
  refine ⟨call, ?_, htag, hkp⟩
  rw [List.map_append]
  exact List.mem_append_left _ hcall

theorem Placed.put (hlaws : RoundTrips) (h : self.Placed) {root : FilePath} {call : Put}
    (hok : self.Possible env (.put root call)) : (self.perform env (.put root call)).Placed := by
  have hwrote := wrote_ok (call.keeps_wrote (P := Manifest.Known) hlaws (fun _ hm => hm)
    (fun _ hm => hm.finds.known) (fun _ _ hm => hm)) call.emits_files hok
  obtain ⟨content, hcontent, hwrites⟩ := hwrote.written (sharePath root call.tag) (by simp [Put.files])
  have hholds := hwrites.share rfl
  have hsource : (self.perform env (.put root call)).written = self.written ++ [(call, content)] := by
    simp [Vault.perform, share, hcontent]
  constructor
  · intro source hmem
    rw [hsource, List.mem_append, List.mem_singleton] at hmem
    rcases hmem with hmem | rfl
    · exact h.written source hmem
    · exact hholds
  · intro root' tag bytes hfile
    by_cases hpath : sharePath root' tag = sharePath root call.tag
    · obtain ⟨rfl, rfl⟩ := sharePath_inj hpath
      cases hcontent.symm.trans hfile
      refine ⟨call.passphrase, call.keyPackage, hholds, call, ?_, rfl, rfl⟩
      rw [hsource]
      simp
    · have hother : sharePath root' tag ∉ call.files root := by
        simp [Put.files, hpath, sharePath_ne_publicPath, sharePath_ne_manifestPath]
      obtain ⟨passphrase, kp, hshare, hgiven⟩ :=
        h.shares root' tag bytes ((hwrote.file_iff hother (not_temp_sharePath _ _)).mp hfile)
      exact ⟨passphrase, kp, hshare, hgiven.append _⟩

theorem Placed.perform (hlaws : RoundTrips) (h : self.Placed) {step : VaultStep}
    (hpossible : self.Possible env step) (hplace : self.InPlace step) :
    (self.perform env step).Placed := by
  cases step with
  | put root call => exact h.put hlaws hpossible
  | place root tag source =>
      refine ⟨h.written, fun root' tag' bytes hfile => ?_⟩
      simp only [Vault.perform, BTreeMap.getElem?_insert] at hfile
      split at hfile
      · next hpath =>
          obtain ⟨-, rfl⟩ := sharePath_inj hpath
          cases hfile
          exact ⟨source.1.passphrase, source.1.keyPackage, h.written source hpossible, hplace⟩
      · exact h.shares root' tag' bytes hfile
  | remove root tag =>
      refine ⟨h.written, fun root' tag' bytes hfile => ?_⟩
      simp only [Vault.perform, BTreeMap.getElem?_erase] at hfile
      split at hfile
      · cases hfile
      · exact h.shares root' tag' bytes hfile

theorem Placed.foldl (hlaws : RoundTrips) {steps : List VaultStep} (h : self.Placed)
    (hpossible : Each (Possible env) env self steps) (hplace : Each InPlace env self steps) :
    (steps.foldl (Vault.perform env) self).Placed := by
  induction steps generalizing self with
  | nil => exact h
  | cons step steps ih =>
      exact ih (h.perform hlaws hpossible.1 hplace.1) hpossible.2 hplace.2

end Vault

end Vaults

/-! ## Two seats -/

open Store.Plain

namespace Vault

def empty : Vault := ⟨⟨∅, 0⟩, []⟩

/-- The store with the share of the first seat. -/
def first : Vault := empty.perform SysEnv.calm (.put ["r"] (bothSeats false))

/-- Somebody puts the share file of the second seat in a place. -/
def placeSecond (tag : ShareTag) : VaultStep := .place ["r"] tag (bothSeats true, [9, 2, 7])

/-- The history in which somebody does. -/
def history (tag : ShareTag) : List VaultStep :=
  [.put ["r"] (bothSeats false), .put ["r"] (bothSeats true), placeSecond tag]

end Vault

end Store
