-- SUMMARY: What the in-memory board delivers after any sequence of publishes, and where the 64-bit id loses a message.
import Cheget.Transport.InMemory

namespace Transport

namespace InMemoryTransport

theorem publishAll_append_singleton (t : InMemoryTransport) (envs : List Envelope) (env : Envelope) :
    t.publishAll (envs ++ [env]) = ((t.publishAll envs).publish env).2 := by
  simp [publishAll]

/-- The first envelope published under an id. -/
def firstWithId (envs : List Envelope) (id : EnvelopeId) : Option Envelope :=
  envs.find? (fun e => e.id = id)

theorem firstWithId_append_singleton (envs : List Envelope) (env : Envelope) (id : EnvelopeId) :
    firstWithId (envs ++ [env]) id =
      (firstWithId envs id).or (if env.id = id then some env else none) := by
  unfold firstWithId
  rw [List.find?_append, List.find?_singleton]
  simp

theorem firstWithId_eq_none {envs : List Envelope} {id : EnvelopeId} :
    firstWithId envs id = none ↔ ∀ e ∈ envs, e.id ≠ id := by
  simp [firstWithId]

theorem mem_of_firstWithId {envs : List Envelope} {id : EnvelopeId} {env : Envelope}
    (h : firstWithId envs id = some env) : env ∈ envs ∧ env.id = id := by
  unfold firstWithId at h
  exact ⟨List.mem_of_find?_eq_some h, by simpa using List.find?_some h⟩

/-- The board holds, for every published id, the first envelope published under
    it, and nothing else. -/
theorem holds_publishAll (envs : List Envelope) (e : Envelope) :
    (new.publishAll envs).Holds e ↔ firstWithId envs e.id = some e := by
  induction envs using List.reverseRecOn generalizing e with
  | nil => simpa [publishAll, firstWithId] using holds_new e
  | append_singleton envs env ih =>
      rw [publishAll_append_singleton, holds_publish, firstWithId_append_singleton, ih]
      have hfree : (∀ e', (new.publishAll envs).Holds e' → e'.id ≠ env.id) ↔
          firstWithId envs env.id = none := by
        constructor
        · intro h
          cases hfirst : firstWithId envs env.id with
          | none => rfl
          | some e' =>
              have hid := (mem_of_firstWithId hfirst).2
              exact absurd hid (h e' ((ih e').mpr (by rw [hid, hfirst])))
        · intro h e' he' hid
          rw [ih, hid, h] at he'
          cases he'
      rw [hfree]
      constructor
      · rintro (h | ⟨rfl, h⟩)
        · rw [h, Option.some_or]
        · rw [h, if_pos rfl, Option.none_or]
      · intro h
        cases hfirst : firstWithId envs e.id with
        | some e' =>
            rw [hfirst, Option.some_or] at h
            exact Or.inl h
        | none =>
            rw [hfirst, Option.none_or] at h
            split at h
            · next hid =>
                cases h
                exact Or.inr ⟨rfl, hfirst⟩
            · cases h

/-- Where ids tell the published envelopes apart, the first envelope under an id
    is the only one. -/
theorem firstWithId_of_collisionFree {envs : List Envelope} {e : Envelope}
    (hfree : CollisionFree {env | env ∈ envs}) :
    firstWithId envs e.id = some e ↔ e ∈ envs := by
  constructor
  · intro h
    exact (mem_of_firstWithId h).1
  · intro he
    cases hfirst : firstWithId envs e.id with
    | none => exact absurd rfl (firstWithId_eq_none.mp hfirst e he)
    | some e' =>
        obtain ⟨hmem, hid⟩ := mem_of_firstWithId hfirst
        rw [hfree hmem he hid]

/-- After any sequence of publishes a subscription delivers, once each, the
    matching envelopes that were the first of their id. An envelope of a new id
    is always deliverable. Where no two distinct published envelopes share an
    id, that is every published match, in an order that only the published set
    determines. -/
theorem subscribe_publishAll (envs : List Envelope) (f : Filter) :
    ((new.publishAll envs).subscribe f).Nodup ∧
    (∀ env, env ∈ (new.publishAll envs).subscribe f ↔
      firstWithId envs env.id = some env ∧ f.matchesEnvelope env = true) ∧
    (∀ env, (∀ e ∈ envs, e.id ≠ env.id) → f.matchesEnvelope env = true →
      env ∈ (new.publishAll (envs ++ [env])).subscribe f) ∧
    (CollisionFree {env | env ∈ envs} →
      (∀ env, env ∈ (new.publishAll envs).subscribe f ↔
        env ∈ envs ∧ f.matchesEnvelope env = true) ∧
      ∀ envs', (∀ env, env ∈ envs' ↔ env ∈ envs) →
        (new.publishAll envs').subscribe f = (new.publishAll envs).subscribe f) := by
  refine ⟨nodup_subscribe _ f, ?_, ?_, ?_⟩
  · intro env
    rw [mem_subscribe, holds_publishAll]
  · intro env hnew hmatch
    rw [mem_subscribe, holds_publishAll, firstWithId_append_singleton,
      firstWithId_eq_none.mpr hnew, if_pos rfl, Option.none_or]
    exact ⟨rfl, hmatch⟩
  · intro hfree
    refine ⟨fun env => ?_, fun envs' hsame => ?_⟩
    · rw [mem_subscribe, holds_publishAll, firstWithId_of_collisionFree hfree]
    · have hfree' : CollisionFree {env | env ∈ envs'} :=
        hfree.mono (fun env henv => (hsame env).mp henv)
      apply subscribe_congr
      intro env
      rw [holds_publishAll, holds_publishAll, firstWithId_of_collisionFree hfree,
        firstWithId_of_collisionFree hfree', hsame]

/-! ## A collision

Two commitments of one seat on one topic that differ only in their payload and
hash alike. -/

def collidingCommitments (payload : Bytes) : Envelope :=
  .broadcast .commitments "s" 1 ⟨1⟩ payload

def firstCollider : Envelope :=
  collidingCommitments [0xd5, 0x61, 0x50, 0x42, 0xdc, 0x08, 0xb6, 0x01]

def secondCollider : Envelope :=
  collidingCommitments [0xdf, 0xb3, 0x7b, 0x5c, 0xcd, 0x6b, 0x21, 0x4f]

/-- The second of two distinct published envelopes is lost to every
    subscription, and which of the two is lost depends on the order. -/
theorem publish_drops_collider :
    secondCollider ≠ firstCollider ∧
    Filter.all.matchesEnvelope secondCollider = true ∧
    secondCollider ∉ (new.publishAll [firstCollider, secondCollider]).subscribe Filter.all ∧
    (new.publishAll [firstCollider, secondCollider]).subscribe Filter.all ≠
      (new.publishAll [secondCollider, firstCollider]).subscribe Filter.all := by
  exact ⟨by decide, by decide, by decide +kernel, by decide +kernel⟩

end InMemoryTransport

end Transport
