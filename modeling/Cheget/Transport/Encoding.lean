-- SUMMARY: The bytes that an envelope's id hashes determine the envelope, so envelopes share an id only by a collision.
import Cheget.Base.Framing
import Cheget.Base.Hex
import Cheget.Transport.Delivery

/-!
# The encoding under the envelope id

The id is computed on the fly: no byte string is ever built, and each field goes
into the mixer by itself. What the mixer has seen in the end is still one string
of bytes, and this string frames every field of the envelope.
-/

namespace Transport

namespace Envelope

/-! ## What the mixer sees -/

section Mixer

variable {σ : Type}

/-- The body of `id` over any mixer. -/
def absorb (mix : σ → Bytes → σ) (h : σ) (env : Envelope) : σ :=
  let h := mix h [env.messageClass.tag]
  let idBytes := Bytes.utf8 env.ceremonyOrSessionId
  let h := mix h (Bytes.le64 (UInt64.ofNat idBytes.length))
  let h := mix h idBytes
  let h := mix h (Bytes.le32 env.round)
  let h := mix h (Bytes.le16 env.seat.idx)
  let h := match env.recipient with
    | some r => mix (mix h [1]) (Bytes.le16 r.idx)
    | none => mix h [0]
  let h := mix h (Bytes.le64 (UInt64.ofNat env.payload.length))
  mix h env.payload

theorem id_eq_absorb (env : Envelope) : env.id = ⟨env.absorb Bytes.fnvMix Bytes.fnvOffset⟩ := by
  cases env with
  | mk messageClass name round seat recipient payload =>
      cases recipient with
      | none => rfl
      | some r => rfl

/-- The bytes that go into the mixer, in order. -/
def fed (env : Envelope) : Bytes := env.absorb (· ++ ·) []

/-- A mixer that takes bytes one by one sees exactly these bytes. -/
theorem absorb_foldl (step : σ → UInt8 → σ) (h : σ) (env : Envelope) :
    env.absorb (fun h bytes => bytes.foldl step h) h = env.fed.foldl step h := by
  unfold fed absorb
  cases env.recipient with
  | none => simp only [List.foldl_append, List.foldl_nil]
  | some r => simp only [List.foldl_append, List.foldl_nil]

theorem id_eq_fnvMix_fed (env : Envelope) : env.id = ⟨Bytes.fnvMix Bytes.fnvOffset env.fed⟩ :=
  env.id_eq_absorb.trans (congrArg EnvelopeId.mk (env.absorb_foldl _ _))

end Mixer

/-! ## Fields -/

/-- A string and a vector of the source have a length that is a `usize`. -/
structure Sized (env : Envelope) : Prop where
  sessionId : (Bytes.utf8 env.ceremonyOrSessionId).length < 2 ^ 64
  payload : env.payload.length < 2 ^ 64

/-- A byte string after its length. -/
def encodeCounted (bytes : Bytes) : Bytes := Bytes.le64 (UInt64.ofNat bytes.length) ++ bytes

theorem fed_eq (env : Envelope) :
    env.fed = [env.messageClass.tag] ++ encodeCounted (Bytes.utf8 env.ceremonyOrSessionId) ++
      Bytes.le32 env.round ++ Bytes.le16 env.seat.idx ++
      encodeOption 1 0 (fun r : Seat => Bytes.le16 r.idx) env.recipient ++ encodeCounted env.payload := by
  unfold fed absorb
  cases env.recipient with
  | none => simp [encodeCounted, encodeOption]
  | some r => simp [encodeCounted, encodeOption]

variable {s : Set Envelope}

theorem tag_injective : Function.Injective MessageClass.tag := by
  intro c d h
  cases c with
  | _ =>
      cases d with
      | _ => first | rfl | cases h

theorem frames_tag : Frames s (fun env => [env.messageClass.tag]) messageClass := by
  apply Frames.fixedWidth
  · exact fun _ _ _ _ => rfl
  · exact fun a _ b _ h => tag_injective (List.cons.inj h).1

theorem frames_round : Frames s (fun env => Bytes.le32 env.round) round := by
  apply Frames.fixedWidth
  · exact fun _ _ _ _ => rfl
  · exact fun a _ b _ h => Bytes.le32_injective h

theorem frames_seat {α : Type} {s : Set α} (seat : α → Seat) :
    Frames s (fun a => Bytes.le16 (seat a).idx) seat := by
  apply Frames.fixedWidth
  · exact fun _ _ _ _ => rfl
  · exact fun a _ b _ h => congrArg Seat.mk (Bytes.le16_injective h)

theorem frames_counted {body : Envelope → Bytes} (hsized : ∀ env ∈ s, (body env).length < 2 ^ 64) :
    Frames s (fun env => encodeCounted (body env)) body := by
  apply Frames.counted
  apply Frames.fixedWidth
  · exact fun _ _ _ _ => rfl
  · intro a ha b hb h
    have hlen := congrArg UInt64.toNat (Bytes.le64_injective h)
    rwa [UInt64.toNat_ofNat_of_lt' (hsized a ha), UInt64.toNat_ofNat_of_lt' (hsized b hb)] at hlen

/-- The bytes under the id frame the whole envelope. -/
theorem frames_fed : Frames {env | Sized env} fed (fun env => env) := by
  have hname := frames_counted (s := {env | Sized env}) (fun env henv => Sized.sessionId henv)
  have hpayload := frames_counted (s := {env | Sized env}) (fun env henv => Sized.payload henv)
  have hrecipient := Frames.option (s := {env | Sized env}) (by decide : (1 : UInt8) ≠ 0)
    (frames_seat (fun r => r)) recipient
  have hfields := ((((frames_tag.append hname).append frames_round).append (frames_seat seat)).append
    hrecipient).append hpayload
  have hfed : fed = _ := funext fed_eq
  rw [hfed]
  apply hfields.map
  intro a _ b _ h
  simp only [Prod.mk.injEq] at h
  obtain ⟨⟨⟨⟨⟨hclass, hname⟩, hround⟩, hseat⟩, hrecipient⟩, hpayload⟩ := h
  cases a
  cases b
  cases hclass
  cases Bytes.utf8_injective hname
  cases hround
  cases hseat
  cases hrecipient
  cases hpayload
  rfl

/-! ## Ids -/

/-- Envelopes that share an id make the hash collide. -/
theorem collision_of_id_eq {a b : Envelope} (ha : a.Sized) (hb : b.Sized) (hne : a ≠ b)
    (hid : a.id = b.id) : Bytes.FnvCollision a.fed b.fed := by
  rw [id_eq_fnvMix_fed, id_eq_fnvMix_fed] at hid
  exact ⟨fun heq => hne (frames_fed.eq_of_eq ha hb heq), congrArg EnvelopeId.digest hid⟩

/-- The id is the hash of bytes that determine the envelope and neither start nor
    continue those of another one. So two envelopes share an id only through a
    collision of the hash. -/
theorem fed_unambiguous {a b : Envelope} (ha : a.Sized) (hb : b.Sized) :
    (a.id = ⟨Bytes.fnvMix Bytes.fnvOffset a.fed⟩ ∧ b.id = ⟨Bytes.fnvMix Bytes.fnvOffset b.fed⟩) ∧
    (a.fed = b.fed → a = b) ∧
    (a.fed <+: b.fed → a.fed = b.fed) ∧ (b.fed <+: a.fed → a.fed = b.fed) ∧
    (a ≠ b → a.id = b.id → Bytes.FnvCollision a.fed b.fed) := by
  refine ⟨⟨id_eq_fnvMix_fed a, id_eq_fnvMix_fed b⟩, ?_, ?_, ?_, ?_⟩
  · exact fun heq => frames_fed.eq_of_eq ha hb heq
  · exact fun hpre => frames_fed.eq_of_isPrefix ha hb hpre
  · exact fun hpre => (frames_fed.eq_of_isPrefix hb ha hpre).symm
  · exact fun hne hid => collision_of_id_eq ha hb hne hid

end Envelope

open InMemoryTransport

/-- Two commitments with one id are a collision of the hash. -/
theorem Envelope.fed_unambiguous_colliders :
    firstCollider.id = secondCollider.id ∧ Bytes.FnvCollision firstCollider.fed secondCollider.fed := by
  have hfirst : firstCollider.Sized := ⟨by decide, by decide⟩
  have hsecond : secondCollider.Sized := ⟨by decide, by decide⟩
  have hne : firstCollider ≠ secondCollider := by decide +kernel
  have hid : firstCollider.id = secondCollider.id := by decide +kernel
  obtain ⟨-, -, -, -, hcollide⟩ := fed_unambiguous hfirst hsecond
  exact ⟨hid, hcollide hne hid⟩

/-! ## Boards -/

/-- The ids tell envelopes apart exactly where the hash does. -/
theorem collisionFree_iff {envs : Set Envelope} (hsized : ∀ env ∈ envs, env.Sized) :
    CollisionFree envs ↔ ∀ a ∈ envs, ∀ b ∈ envs, ¬ Bytes.FnvCollision a.fed b.fed := by
  constructor
  · intro hfree a ha b hb hcollide
    have hid : a.id = b.id := by
      rw [Envelope.id_eq_fnvMix_fed, Envelope.id_eq_fnvMix_fed, hcollide.2]
    exact hcollide.1 (congrArg Envelope.fed (hfree ha hb hid))
  · intro hfree a ha b hb hid
    apply Classical.byContradiction
    intro hne
    exact hfree a ha b hb (Envelope.collision_of_id_eq (hsized a ha) (hsized b hb) hne hid)

/-- A published envelope that no subscription delivers collides with another
    published one. -/
theorem InMemoryTransport.collision_of_lost {envs : List Envelope} (hsized : ∀ env ∈ envs, env.Sized)
    {f : Filter} {env : Envelope} (henv : env ∈ envs) (hmatch : f.matchesEnvelope env = true)
    (hlost : env ∉ (new.publishAll envs).subscribe f) :
    ∃ other ∈ envs, Bytes.FnvCollision other.fed env.fed := by
  rw [mem_subscribe, holds_publishAll] at hlost
  cases hfirst : firstWithId envs env.id with
  | none => exact absurd rfl (firstWithId_eq_none.mp hfirst env henv)
  | some other =>
      obtain ⟨hother, hid⟩ := mem_of_firstWithId hfirst
      refine ⟨other, hother, ?_⟩
      apply Envelope.collision_of_id_eq (hsized other hother) (hsized env henv) _ hid
      intro heq
      rw [heq] at hfirst
      exact hlost ⟨hfirst, hmatch⟩

end Transport
