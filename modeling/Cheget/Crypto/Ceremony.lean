-- SUMMARY: What each round of the key generation leaves behind when none of its calls fails, whatever the primitives are.
import Cheget.Crypto.Keygen

/-!
# An undisturbed ceremony

A call that succeeds leaves the pool as it was, so no split into blocks is
visible. The mailboxes of round 2 hand every package to its recipient under
the name of its sender.
-/

namespace Crypto

/-! ## The seats -/

/-- The identifiers `1..=k`, in order. -/
def firstSeats (k : Nat) : List Identifier :=
  (List.range' 1 k).filterMap (fun i => Identifier.ofU16 (UInt16.ofNat i))

theorem ofU16_ofNat {i : Nat} (hpos : 0 < i) (hi : i < UInt16.size) :
    ∃ h, Identifier.ofU16 (UInt16.ofNat i) = some ⟨i, hpos, h⟩ := by
  have htoNat : (UInt16.ofNat i).toNat = i := UInt16.toNat_ofNat_of_lt' hi
  have hlt : i < secp256k1Order := htoNat ▸ Identifier.uint16_lt_order (UInt16.ofNat i)
  refine ⟨hlt, ?_⟩
  rw [Identifier.ofU16, dif_pos (by rw [htoNat]; exact hpos)]
  simp only [htoNat]

theorem firstSeats_succ {k : Nat} (hk : k + 1 < UInt16.size) :
    ∃ h, firstSeats (k + 1) = firstSeats k ++ [⟨k + 1, Nat.succ_pos k, h⟩] := by
  obtain ⟨h, hid⟩ := ofU16_ofNat (Nat.succ_pos k) hk
  refine ⟨h, ?_⟩
  have hlast : [k + 1].filterMap (fun i => Identifier.ofU16 (UInt16.ofNat i)) = [⟨k + 1, _, h⟩] :=
    List.filterMap_cons_some hid
  rw [firstSeats, firstSeats, List.range'_concat, List.filterMap_append, Nat.one_mul,
    Nat.add_comm 1 k, hlast]

theorem mem_firstSeats {k : Nat} (hk : k < UInt16.size) {id : Identifier} :
    id ∈ firstSeats k ↔ id.scalar ≤ k := by
  induction k with
  | zero =>
      have hpos := id.pos
      simp [firstSeats]
      omega
  | succ k ih =>
      obtain ⟨h, hsucc⟩ := firstSeats_succ hk
      rw [hsucc, List.mem_append, List.mem_singleton, ih (by omega),
        ← Identifier.scalar_injective.eq_iff]
      simp only
      omega

theorem pairwise_firstSeats {k : Nat} (hk : k < UInt16.size) :
    (firstSeats k).Pairwise (· < ·) := by
  induction k with
  | zero => simp [firstSeats]
  | succ k ih =>
      obtain ⟨h, hsucc⟩ := firstSeats_succ hk
      rw [hsucc, List.pairwise_append]
      refine ⟨ih (by omega), List.pairwise_singleton _ _, fun a ha b hb => ?_⟩
      rw [List.mem_singleton.mp hb, Identifier.lt_iff]
      have hle := (mem_firstSeats (by omega)).mp ha
      simp only
      omega

theorem nodup_firstSeats {k : Nat} (hk : k < UInt16.size) : (firstSeats k).Nodup :=
  (pairwise_firstSeats hk).imp (fun h => h.ne)

theorem length_firstSeats {k : Nat} (hk : k < UInt16.size) : (firstSeats k).length = k := by
  induction k with
  | zero => rfl
  | succ k ih =>
      obtain ⟨h, hsucc⟩ := firstSeats_succ hk
      rw [hsucc, List.length_append, ih (by omega), List.length_singleton]

variable [Dkg]

/-! ## Round 1 -/

/-- A first round in which seat `id` draws at the randomness `rngAt (id - 1)`. -/
theorem round1_eq_ok (minSigners maxSigners : UInt16) (rngAt : Nat → Rng)
    (secret : Identifier → R1Secret) (pkg : Identifier → R1Package)
    (hpart1 : ∀ id : Identifier, id.scalar ≤ maxSigners.toNat →
      Dkg.part1 id maxSigners minSigners (rngAt (id.scalar - 1)) =
        .ok (secret id, pkg id, rngAt id.scalar)) :
    ∃ s, round1 minSigners maxSigners (rngAt 0) = .ok s ∧
      s.secrets = (firstSeats maxSigners.toNat).map (fun id => (id, secret id)) ∧
      s.packages.Tabulates (firstSeats maxSigners.toNat) pkg := by
  have hloop : ∀ k ≤ maxSigners.toNat,
      ∃ s, ((List.range' 1 k).map UInt16.ofNat).foldlM (round1Seat minSigners maxSigners)
          ⟨[], ∅, rngAt 0⟩ = .ok s ∧
        s.secrets = (firstSeats k).map (fun id => (id, secret id)) ∧
        s.packages.Tabulates (firstSeats k) pkg ∧ s.rng = rngAt k := by
    intro k
    induction k with
    | zero =>
        intro _
        exact ⟨⟨[], ∅, rngAt 0⟩, rfl, rfl, BTreeMap.Tabulates.empty pkg, rfl⟩
    | succ k ih =>
        intro hk
        obtain ⟨s, hfold, hsecrets, hpackages, hrng⟩ := ih (by omega)
        have hsize : k + 1 < UInt16.size := Nat.lt_of_le_of_lt hk maxSigners.toNat_lt
        obtain ⟨h, hid⟩ := ofU16_ofNat (Nat.succ_pos k) hsize
        obtain ⟨_, hsucc⟩ := firstSeats_succ hsize
        let seat : Identifier := ⟨k + 1, Nat.succ_pos k, h⟩
        have hseat : Dkg.part1 seat maxSigners minSigners s.rng =
            .ok (secret seat, pkg seat, rngAt (k + 1)) := hrng ▸ hpart1 seat hk
        refine ⟨⟨s.secrets ++ [(seat, secret seat)], s.packages.insert seat (pkg seat),
          rngAt (k + 1)⟩, ?_, ?_, ?_, rfl⟩
        · rw [List.range'_concat, List.map_append, List.foldlM_append, hfold, Nat.one_mul,
            Nat.add_comm 1 k]
          have hstep : round1Seat minSigners maxSigners s (UInt16.ofNat (k + 1)) =
              .ok ⟨s.secrets ++ [(seat, secret seat)], s.packages.insert seat (pkg seat),
                rngAt (k + 1)⟩ := by
            rw [round1Seat, hid, Option.okOr_some, Except.ok_bind, hseat]
            rfl
          simp only [Except.ok_bind, List.map_cons, List.map_nil, List.foldlM_cons,
            List.foldlM_nil, hstep]
          rfl
        · rw [hsucc, List.map_append, hsecrets]
          rfl
        · rw [hsucc]
          exact hpackages.insert_snoc _
  obtain ⟨s, hfold, hsecrets, hpackages, -⟩ := hloop maxSigners.toNat (Nat.le_refl _)
  exact ⟨s, hfold, hsecrets, hpackages⟩

/-! ## Workers -/

/-- A call that succeeds leaves the pool as it was. -/
theorem withOthers_eq_ok {α β : Type} {id : Identifier}
    {call : BTreeMap Identifier α → Except (KeygenError Dkg.Error) β} {pool : BTreeMap Identifier α}
    {own : α} {result : β} (hown : pool[id]? = some own)
    (hcall : call (pool.erase id) = .ok result) :
    withOthers id call pool = some (.ok result, pool) := by
  simp only [withOthers, hown, hcall, BTreeMap.insert_erase_self hown]

/-! ## Round 2 -/

/-- The package from `sender` in the mailbox of `recipient`. -/
def received (boxes : Mailboxes) (recipient sender : Identifier) : Option R2Package :=
  (boxes[recipient]?.getD ∅)[sender]?

theorem received_fanOut_of_notMem (boxes : Mailboxes) {id recipient sender : Identifier}
    {sent : List (Identifier × R2Package)} (h : recipient ∉ sent.map Prod.fst ∨ sender ≠ id) :
    received (fanOut id boxes sent) recipient sender = received boxes recipient sender := by
  induction sent generalizing boxes with
  | nil => rfl
  | cons pkg sent ih =>
      have hrest : recipient ∉ sent.map Prod.fst ∨ sender ≠ id :=
        h.imp_left (fun hnot hmem => hnot (List.mem_cons_of_mem _ hmem))
      have hhead : pkg.1 ≠ recipient ∨ sender ≠ id :=
        h.imp_left (fun hnot heq => hnot (heq ▸ List.mem_cons_self))
      rw [fanOut, List.foldl_cons]
      refine (ih _ hrest).trans ?_
      unfold received
      by_cases hr : pkg.1 = recipient
      · subst hr
        have hs : id ≠ sender := fun heq => hhead.elim (fun hne => hne rfl) (fun hne => hne heq.symm)
        simp [hs]
      · simp [hr]

theorem received_fanOut_of_mem (boxes : Mailboxes) {id recipient : Identifier} {pkg : R2Package}
    {sent : List (Identifier × R2Package)} (hsorted : sent.Pairwise (fun a b => a.1 < b.1))
    (hmem : (recipient, pkg) ∈ sent) :
    received (fanOut id boxes sent) recipient id = some pkg := by
  induction sent generalizing boxes with
  | nil => cases hmem
  | cons head sent ih =>
      obtain ⟨hlt, htail⟩ := List.pairwise_cons.mp hsorted
      rw [fanOut, List.foldl_cons]
      rcases List.mem_cons.mp hmem with rfl | hmem
      · have hnot : recipient ∉ sent.map Prod.fst := by
          intro hin
          obtain ⟨x, hx, hfst⟩ := List.mem_map.mp hin
          exact absurd (hlt x hx) (by rw [hfst]; exact lt_irrefl _)
        refine (received_fanOut_of_notMem _ (Or.inl hnot)).trans ?_
        simp [received]
      · exact ih _ htail hmem

/-- What the mailboxes hold once a list of senders has been served. -/
theorem received_foldl_fanOut {sent : Identifier → BTreeMap Identifier R2Package}
    {senders : List Identifier} (hnodup : senders.Nodup) (recipient sender : Identifier) :
    received (senders.foldl (fun boxes id => fanOut id boxes (sent id).toList) ∅)
        recipient sender =
      if sender ∈ senders then (sent sender)[recipient]? else none := by
  induction senders using List.reverseRecOn with
  | nil => simp [received]
  | append_singleton senders id ih =>
      obtain ⟨hsenders, -, hdisjoint⟩ := List.nodup_append.mp hnodup
      rw [List.foldl_append, List.foldl_cons, List.foldl_nil]
      by_cases hid : sender = id
      · subst hid
        have hnot : sender ∉ senders := fun hin => hdisjoint sender hin sender (by simp) rfl
        rw [if_pos (by simp)]
        cases hpkg : (sent sender)[recipient]? with
        | some pkg =>
            exact received_fanOut_of_mem _ (BTreeMap.pairwise_toList _)
              (BTreeMap.mem_toList.mpr hpkg)
        | none =>
            rw [received_fanOut_of_notMem _ (Or.inl ?_), ih hsenders, if_neg hnot]
            intro hin
            obtain ⟨⟨r, pkg⟩, hmem, rfl⟩ := List.mem_map.mp hin
            rw [BTreeMap.mem_toList.mp hmem] at hpkg
            cases hpkg
      · rw [received_fanOut_of_notMem _ (Or.inr hid), ih hsenders]
        simp [hid]

theorem resolveRound2_eq_ok {secret2 : Identifier → R2Secret}
    {sent : Identifier → BTreeMap Identifier R2Package} (senders : List Identifier) :
    resolveRound2 (senders.map (fun id => .ok (id, secret2 id, sent id))) =
      .ok (senders.map (fun id => (id, secret2 id)),
        senders.foldl (fun boxes id => fanOut id boxes (sent id).toList) ∅) := by
  unfold resolveRound2
  induction senders using List.reverseRecOn with
  | nil => rfl
  | append_singleton senders id ih =>
      rw [List.map_append, List.foldlM_append, ih, List.map_append, List.foldl_append]
      rfl

/-! ## Round 3 -/

variable [DecidableEq VerifyingKey]

/-- Seats that agree on the group package pass the confirmation. -/
theorem resolveRound3_eq_ok (keyPackage : Identifier → KeyPackage) (group : PublicKeyPackage)
    {seats : List Identifier} (hseats : seats ≠ []) :
    ∃ packages, resolveRound3 (seats.map (fun id => .ok (id, keyPackage id, group))) =
        .ok (packages, group) ∧
      packages.Tabulates seats keyPackage := by
  have hloop : ∀ seats : List Identifier,
      ∃ packages, (seats.map (fun id => .ok (id, keyPackage id, group))).foldlM
          confirmSeat (∅, none) = .ok (packages, if seats = [] then none else some group) ∧
        packages.Tabulates seats keyPackage := by
    intro seats
    induction seats using List.reverseRecOn with
    | nil => exact ⟨∅, rfl, BTreeMap.Tabulates.empty keyPackage⟩
    | append_singleton seats id ih =>
        obtain ⟨packages, hfold, htab⟩ := ih
        refine ⟨packages.insert id (keyPackage id), ?_, htab.insert_snoc id⟩
        rw [List.map_append, List.foldlM_append, hfold]
        by_cases hempty : seats = []
        · simp [hempty, confirmSeat]
          rfl
        · simp [hempty, confirmSeat]
          rfl
  obtain ⟨packages, hfold, htab⟩ := hloop seats
  refine ⟨packages, ?_, htab⟩
  rw [resolveRound3, hfold, if_neg hseats]
  rfl

/-! ## The ceremony -/

/-- The seats of a ceremony of `maxSigners` other than `id`. -/
def othersOf (maxSigners : UInt16) (id : Identifier) : List Identifier :=
  (firstSeats maxSigners.toNat).filter (· ≠ id)

omit [Dkg] [DecidableEq VerifyingKey] in
theorem mem_othersOf {maxSigners : UInt16} {id : Identifier} (other : Identifier) :
    other ∈ othersOf maxSigners id ↔ other ∈ firstSeats maxSigners.toNat ∧ other ≠ id := by
  rw [othersOf, List.mem_filter, decide_eq_true_iff]

omit [DecidableEq VerifyingKey] in
/-- What every seat contributes to a ceremony in which every call succeeds. -/
structure Ceremony (minSigners maxSigners : UInt16) where
  rngAt : Nat → Rng
  secret : Identifier → R1Secret
  pkg : Identifier → R1Package
  secret2 : Identifier → R2Secret
  sent : Identifier → BTreeMap Identifier R2Package
  share : Identifier → Identifier → R2Package
  keyPackage : Identifier → KeyPackage
  group : PublicKeyPackage
  part1 : ∀ id : Identifier, id.scalar ≤ maxSigners.toNat →
    Dkg.part1 id maxSigners minSigners (rngAt (id.scalar - 1)) =
      .ok (secret id, pkg id, rngAt id.scalar)
  part2 : ∀ (id : Identifier) (others : BTreeMap Identifier R1Package),
    id.scalar ≤ maxSigners.toNat → others.Tabulates (othersOf maxSigners id) pkg →
      Dkg.part2 (secret id) others = .ok (secret2 id, sent id)
  /-- Every other seat is sent its share. -/
  sends : ∀ id : Identifier, id.scalar ≤ maxSigners.toNat →
    (sent id).Tabulates (othersOf maxSigners id) (share id)
  part3 : ∀ (id : Identifier) (others : BTreeMap Identifier R1Package)
      (inbox : BTreeMap Identifier R2Package),
    id.scalar ≤ maxSigners.toNat → others.Tabulates (othersOf maxSigners id) pkg →
      inbox.Tabulates (othersOf maxSigners id) (fun sender => share sender id) →
        ∃ kp pubkeys, Dkg.part3 (secret2 id) others inbox = .ok (kp, pubkeys) ∧
          FrostKeys.seatIntoEvenY kp = keyPackage id ∧ FrostKeys.groupIntoEvenY pubkeys = group

namespace Ceremony

variable {minSigners maxSigners : UInt16} (c : Ceremony minSigners maxSigners)
  {packages : BTreeMap Identifier R1Package}

omit [DecidableEq VerifyingKey] in
theorem round2Seat_eq_ok (hpackages : packages.Tabulates (firstSeats maxSigners.toNat) c.pkg)
    {id : Identifier} (hid : id ∈ firstSeats maxSigners.toNat) :
    round2Seat packages (id, c.secret id) = some (.ok (id, c.secret2 id, c.sent id), packages) := by
  refine withOthers_eq_ok (hpackages.getElem?_of_mem hid) ?_
  have hle := (mem_firstSeats maxSigners.toNat_lt).mp hid
  rw [c.part2 id _ hle (hpackages.erase mem_othersOf)]
  rfl

omit [DecidableEq VerifyingKey] in
/-- The mailbox of a seat holds exactly the shares that the others sent it. -/
theorem inbox {id : Identifier} (hid : id ∈ firstSeats maxSigners.toNat) :
    (((firstSeats maxSigners.toNat).foldl (fun boxes sender =>
      fanOut sender boxes (c.sent sender).toList) ∅)[id]?.getD ∅).Tabulates
        (othersOf maxSigners id) (fun sender => c.share sender id) := by
  intro sender
  refine (received_foldl_fanOut (nodup_firstSeats maxSigners.toNat_lt) id sender).trans ?_
  by_cases hsender : sender ∈ firstSeats maxSigners.toNat
  · have hle' := (mem_firstSeats maxSigners.toNat_lt).mp hsender
    rw [if_pos hsender, c.sends sender hle' id]
    simp only [mem_othersOf, hid, hsender, true_and, ne_comm (a := id)]
  · rw [if_neg hsender, if_neg]
    exact fun hmem => hsender (List.mem_filter.mp hmem).1

omit [DecidableEq VerifyingKey] in
theorem round3Seat_eq_ok (hpackages : packages.Tabulates (firstSeats maxSigners.toNat) c.pkg)
    {boxes : Mailboxes} {id : Identifier} (hid : id ∈ firstSeats maxSigners.toNat)
    (hinbox : (boxes[id]?.getD ∅).Tabulates (othersOf maxSigners id)
      (fun sender => c.share sender id)) :
    round3Seat boxes packages (id, c.secret2 id) =
      some (.ok (id, c.keyPackage id, c.group), packages) := by
  refine withOthers_eq_ok (hpackages.getElem?_of_mem hid) ?_
  have hle := (mem_firstSeats maxSigners.toNat_lt).mp hid
  obtain ⟨kp, pubkeys, hpart3, hkp, hgroup⟩ :=
    c.part3 id _ _ hle (hpackages.erase mem_othersOf) hinbox
  rw [hpart3, ← hkp, ← hgroup]
  rfl

/-- The ceremony returns the key package of every seat, however the two
    parallel rounds are split. -/
theorem run_eq_ok (split2 split3 : List Nat) (hpos : 0 < maxSigners.toNat) :
    ∃ keyPackages, runInprocessDkgWithRng split2 split3 minSigners maxSigners (c.rngAt 0) =
        .ok (keyPackages, c.group) ∧
      keyPackages.Tabulates (firstSeats maxSigners.toNat) c.keyPackage := by
  obtain ⟨s, hround1, hsecrets, hpackages⟩ :=
    round1_eq_ok minSigners maxSigners c.rngAt c.secret c.pkg c.part1
  have hround2 : Parallel.mapWith split2 round2Seat s.packages s.secrets =
      some ((firstSeats maxSigners.toNat).map (fun id => .ok (id, c.secret2 id, c.sent id))) := by
    rw [Parallel.mapWith_eq_map (g := fun seat => .ok (seat.1, c.secret2 seat.1, c.sent seat.1)),
      hsecrets, List.map_map]
    · rfl
    · intro seat hseat
      rw [hsecrets] at hseat
      obtain ⟨id, hid, rfl⟩ := List.mem_map.mp hseat
      exact c.round2Seat_eq_ok hpackages hid
  have hround3 : Parallel.mapWith split3
      (round3Seat ((firstSeats maxSigners.toNat).foldl (fun boxes sender =>
        fanOut sender boxes (c.sent sender).toList) ∅)) s.packages
        ((firstSeats maxSigners.toNat).map (fun id => (id, c.secret2 id))) =
      some ((firstSeats maxSigners.toNat).map (fun id => .ok (id, c.keyPackage id, c.group))) := by
    rw [Parallel.mapWith_eq_map (g := fun seat => .ok (seat.1, c.keyPackage seat.1, c.group)),
      List.map_map]
    · rfl
    · intro seat hseat
      obtain ⟨id, hid, rfl⟩ := List.mem_map.mp hseat
      exact c.round3Seat_eq_ok hpackages hid (c.inbox hid)
  have hseats : firstSeats maxSigners.toNat ≠ [] :=
    List.ne_nil_of_length_pos (by rwa [length_firstSeats maxSigners.toNat_lt])
  obtain ⟨keyPackages, hresolve, htab⟩ :=
    resolveRound3_eq_ok c.keyPackage c.group hseats
  refine ⟨keyPackages, ?_, htab⟩
  rw [runInprocessDkgWithRng, hround1, Except.mapError_ok, Except.ok_bind, hround2,
    Option.okOr_some, Except.ok_bind, resolveRound2_eq_ok, Except.mapError_ok, Except.ok_bind]
  simp only [hround3, Option.okOr_some, Except.ok_bind, hresolve, Except.mapError_ok]

end Ceremony

end Crypto
