-- SUMMARY: What the loader of a signing quorum has found where it returns, root by root.
import Cheget.Cli.Sign
import Cheget.Store.Loads

namespace Cli

open Crypto Store

variable {base : FilePath} {env : SysEnv} {d : Disk}

/-! ## The selected roots -/

/-- The roots that the loader takes: the first `t` of those that are listed. -/
def selectedRoots (env : SysEnv) (d : Disk) (base : FilePath) (t : UInt16) : List FilePath :=
  match (env.act d.tick d.tree (.readDir base)).1 with
  | .ok entries => (seatRoots base entries).take t.toNat
  | .error _ => []

theorem mem_seatRoots {entries : List (Except IoError String)} {root : FilePath} :
    root ∈ seatRoots base entries ↔
      ∃ name, .ok name ∈ entries ∧ "seat-".toList <+: name.toList ∧ root = base ++ [name] := by
  simp only [seatRoots, List.mem_map, List.mem_insertionSort, List.mem_filter, List.mem_filterMap,
    Except.toOption_eq_some, List.isPrefixOf_iff_prefix]
  constructor
  · rintro ⟨name, ⟨⟨_, hmem, rfl⟩, hprefix⟩, rfl⟩
    exact ⟨name, hmem, hprefix, rfl⟩
  · rintro ⟨name, hmem, hprefix, rfl⟩
    exact ⟨name, ⟨⟨_, hmem, rfl⟩, hprefix⟩, rfl⟩

/-- A selected root is a directory entry of the base that looks like one. -/
theorem mem_selectedRoots {t : UInt16} {root : FilePath} (h : root ∈ selectedRoots env d base t) :
    ∃ name, "seat-".toList <+: name.toList ∧ root = base ++ [name] ∧ d.tree[base ++ [name]]? ≠ none := by
  unfold selectedRoots at h
  split at h
  · next entries hlist =>
      obtain ⟨name, hname, hprefix, rfl⟩ := mem_seatRoots.mp (List.mem_of_mem_take h)
      exact ⟨name, hprefix, rfl, SysEnv.act_readDir_ok hlist hname⟩
  · cases h

/-! ## The loop -/

variable [KeyCodec] [Json] [Age]

theorem loadSeat_readOnly (secret : Passphrase) (keyPackages : BTreeMap Identifier KeyPackage)
    (root : FilePath) : (loadSeat secret keyPackages root).Uses ReadOnly :=
  (ParticipantStore.loadOnlyActive_readOnly.mapError _).bind (fun _ => trivial)

/-- A round of the loop inserts the active share of its root. -/
theorem loadSeat_ok {secret : Passphrase} {keyPackages keyPackages' : BTreeMap Identifier KeyPackage}
    {root : FilePath}
    (h : ((loadSeat secret keyPackages root).run env.world d).result = .ok keyPackages') :
    ∃ seat kp, keyPackages' = keyPackages.insert seat kp ∧
      ((ParticipantStore.loadOnlyActive ⟨root, .ok secret⟩).run env.world d).result = .ok (seat, kp) := by
  obtain ⟨⟨seat, kp⟩, hload, h⟩ := Program.result_bind_ok h
  cases h
  rw [store, Program.run_mapError, Except.mapError_eq_ok] at hload
  exact ⟨seat, kp, rfl, hload⟩

/-- A loop that returns has what each of its rounds preserves; the disk stays as
    it was. -/
theorem loadSeats_ok {secret : Passphrase}
    {P : List FilePath → BTreeMap Identifier KeyPackage → Prop} {roots : List FilePath}
    {out : BTreeMap Identifier KeyPackage} (hstart : P [] ∅)
    (hround : ∀ done root keyPackages seat kp tick, root ∈ roots → P done keyPackages →
      ((ParticipantStore.loadOnlyActive ⟨root, .ok secret⟩).run env.world ⟨d.tree, tick⟩).result =
          .ok (seat, kp) →
        P (done ++ [root]) (keyPackages.insert seat kp))
    (h : ((roots.foldlM (loadSeat secret) ∅).run env.world d).result = .ok out) : P roots out := by
  have hall : ∀ (rest done : List FilePath) (keyPackages : BTreeMap Identifier KeyPackage) (tick : Nat),
      done ++ rest = roots → P done keyPackages →
      ((rest.foldlM (loadSeat secret) keyPackages).run env.world ⟨d.tree, tick⟩).result = .ok out →
      P roots out := by
    intro rest
    induction rest with
    | nil =>
        intro done keyPackages tick hroots hP h
        cases h
        rwa [← hroots, List.append_nil]
    | cons root rest ih =>
        intro done keyPackages tick hroots hP h
        rw [List.foldlM_cons] at h
        obtain ⟨keyPackages', hload, h⟩ := Program.result_bind_ok h
        have htree := readOnly_tree (loadSeat_readOnly secret keyPackages root) env ⟨d.tree, tick⟩
        generalize ((loadSeat secret keyPackages root).run env.world ⟨d.tree, tick⟩).state = d' at h htree
        obtain ⟨seat, kp, rfl, hactive⟩ := loadSeat_ok hload
        have hmem : root ∈ roots := by rw [← hroots]; simp
        apply ih (done ++ [root]) _ d'.tick (by simpa using hroots)
          (hround done root keyPackages seat kp tick hmem hP hactive)
        rw [← htree]
        exact h
  exact hall roots [] ∅ d.tick rfl hstart h

/-- What the loader has read, where it returns. -/
theorem loadPersistedShares_ok {t : UInt16} {passphrase : Except StoreError Passphrase}
    {packages : BTreeMap Identifier KeyPackage} {group : PublicKeyPackage}
    (h : ((loadPersistedShares base t passphrase).run env.world d).result = .ok (packages, group)) :
    ∃ first rest secret, selectedRoots env d base t = first :: rest ∧ (first :: rest).length = t.toNat ∧
      passphrase = .ok secret ∧
      (∃ tick, (((first :: rest).foldlM (loadSeat secret) ∅).run env.world ⟨d.tree, tick⟩).result =
        .ok packages) ∧
      ∃ tick envelope, ((ParticipantStore.loadPublicEnvelope ⟨first, .ok secret⟩ .active .genesis).run
          env.world ⟨d.tree, tick⟩).result = .ok envelope ∧
        envelope.decodePackage = .ok group := by
  unfold loadPersistedShares at h
  have hread : (sys (.readDir base) : CliM _).Uses ReadOnly := ⟨fun _ h => h, fun _ => trivial⟩
  have hlisted := readOnly_tree hread env d
  obtain ⟨listing, hlist, h⟩ := Program.result_bind_ok h
  generalize ((sys (.readDir base) : CliM _).run env.world d).state = d₁ at h hlisted
  obtain ⟨entries, hentries, h⟩ := Program.result_bind_ok h
  rw [sys, Program.run_perform] at hlist
  simp only [lift, Program.run_ofExcept, Except.mapError_eq_ok] at hentries h
  have hselected : selectedRoots env d base t = (seatRoots base entries).take t.toNat := by
    have hresp : (env.act d.tick d.tree (.readDir base)).1 = .ok entries :=
      (Except.ok.inj hlist).trans hentries
    rw [selectedRoots, hresp]
  split at h
  · cases h
  · next henough =>
      obtain ⟨secret, hsecret, h⟩ := Program.result_bind_ok h
      rw [Program.run_ofExcept, Except.mapError_eq_ok, Except.mapError_eq_ok] at hsecret
      simp only [Program.run_ofExcept] at h
      obtain ⟨keyPackages, hloop, h⟩ := Program.result_bind_ok h
      have hquiet : (((seatRoots base entries).take t.toNat).foldlM (loadSeat secret) ∅).Uses ReadOnly :=
        Program.Uses.foldlM (fun keyPackages root _ => loadSeat_readOnly secret keyPackages root) ∅
      have hloaded := readOnly_tree hquiet env d₁
      generalize (Program.run env.world _ d₁).state = d₂ at h hloaded
      rw [hselected]
      cases hroots : (seatRoots base entries).take t.toNat with
      | nil =>
          rw [hroots] at h
          cases h
      | cons first rest =>
          rw [hroots] at h hloop
          have hlength : (first :: rest).length = t.toNat := by
            rw [← hroots, List.length_take]
            omega
          obtain ⟨envelope, henvelope, h⟩ := Program.result_bind_ok h
          obtain ⟨group', hgroup, h⟩ := Program.result_bind_ok h
          rw [store, Program.run_mapError, Except.mapError_eq_ok] at henvelope
          rw [Program.run_ofExcept, Except.mapError_eq_ok] at hgroup
          cases h
          have htree : d₂.tree = d.tree := hloaded.trans hlisted
          refine ⟨first, rest, secret, rfl, hlength, hsecret, ⟨d₁.tick, ?_⟩, d₂.tick, envelope, ?_, hgroup⟩
          · rw [← hlisted]
            exact hloop
          · rw [← htree]
            exact henvelope

end Cli
