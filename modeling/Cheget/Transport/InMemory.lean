-- SUMMARY: Subscription filters and the in-memory message board: publishing keeps the first envelope of an id, subscribing lists the matches by id.
import Cheget.Base.BTreeMap
import Cheget.Transport.Envelope

namespace Transport

/-! ## Filters -/

/-- A subscription filter. A field that is absent matches anything. -/
structure Filter where
  messageClass : Option MessageClass
  ceremonyOrSessionId : Option String
  round : Option UInt32
  seat : Option Seat
  recipient : Option Seat
  deriving DecidableEq, Repr

namespace Filter

def all : Filter := ⟨none, none, none, none, none⟩

def withClass (f : Filter) (messageClass : MessageClass) : Filter :=
  { f with messageClass := some messageClass }

def withCeremony (f : Filter) (id : String) : Filter :=
  { f with ceremonyOrSessionId := some id }

def withRound (f : Filter) (round : UInt32) : Filter := { f with round := some round }

def withSeat (f : Filter) (seat : Seat) : Filter := { f with seat := some seat }

def withRecipient (f : Filter) (recipient : Seat) : Filter :=
  { f with recipient := some recipient }

/-- A directed envelope matches only a filter that selects its recipient; a
    broadcast ignores the filter's recipient. -/
def matchesEnvelope (f : Filter) (env : Envelope) : Bool :=
  if f.messageClass.any (· != env.messageClass) then false
  else if f.ceremonyOrSessionId.any (· != env.ceremonyOrSessionId) then false
  else if f.round.any (· != env.round) then false
  else if f.seat.any (· != env.seat) then false
  else
    match env.recipient with
    | some recipient => f.recipient == some recipient
    | none => true

private theorem any_ne_eq_false {α : Type} [DecidableEq α] {o : Option α} {a : α} :
    o.any (· != a) = false ↔ ∀ b, o = some b → b = a := by
  cases o <;> simp

/-- A filter matches an envelope that agrees with each of its fields and, if it
    is directed, is directed to the filter's recipient. -/
theorem matchesEnvelope_eq_true {f : Filter} {env : Envelope} :
    f.matchesEnvelope env = true ↔
      (∀ c, f.messageClass = some c → c = env.messageClass) ∧
      (∀ id, f.ceremonyOrSessionId = some id → id = env.ceremonyOrSessionId) ∧
      (∀ r, f.round = some r → r = env.round) ∧
      (∀ s, f.seat = some s → s = env.seat) ∧
      ∀ r, env.recipient = some r → f.recipient = some r := by
  have hrecipient : (match env.recipient with
      | some recipient => f.recipient == some recipient
      | none => true) = true ↔ ∀ r, env.recipient = some r → f.recipient = some r := by
    cases env.recipient <;> simp
  unfold matchesEnvelope
  simp only [← any_ne_eq_false, ← hrecipient, ← Bool.not_eq_true]
  split
  · next h => simp [h]
  · next hclass =>
      split
      · next h => simp [h]
      · next hceremony =>
          split
          · next h => simp [h]
          · next hround =>
              split
              · next h => simp [h]
              · next hseat => simp [hclass, hceremony, hround, hseat]

end Filter

/-! ## The board -/

/-- A single-process message board. Every envelope is held under its own id. -/
structure InMemoryTransport where
  store : BTreeMap EnvelopeId Envelope
  keyed : ∀ id (env : Envelope), store[id]? = some env → env.id = id

namespace InMemoryTransport

def new : InMemoryTransport where
  store := ∅
  keyed := by
    intro id env h
    simp at h

/-- Hold the envelope under its id, unless something is held there already. -/
def publish (t : InMemoryTransport) (env : Envelope) : EnvelopeId × InMemoryTransport :=
  (env.id,
    { store := t.store.insertIfNew env.id env
      keyed := by
        intro id e h
        rw [BTreeMap.getElem?_insertIfNew] at h
        split at h
        · next hnew => cases h; exact hnew.1
        · exact t.keyed id e h })

/-- The envelopes that match, in ascending id order. -/
def subscribe (t : InMemoryTransport) (f : Filter) : List Envelope :=
  (t.store.toList.map Prod.snd).filter f.matchesEnvelope

/-- The board after a sequence of publishes. -/
def publishAll (t : InMemoryTransport) (envs : List Envelope) : InMemoryTransport :=
  envs.foldl (fun t env => (t.publish env).2) t

/-! ## What the board holds -/

def Holds (t : InMemoryTransport) (env : Envelope) : Prop := t.store[env.id]? = some env

theorem holds_new (env : Envelope) : ¬ new.Holds env := by
  simp [Holds, new]

/-- A publish is dropped exactly when something is held under its id. -/
theorem holds_publish {t : InMemoryTransport} {env e : Envelope} :
    (t.publish env).2.Holds e ↔ t.Holds e ∨ (e = env ∧ ∀ e', t.Holds e' → e'.id ≠ env.id) := by
  have hfree : t.store[env.id]? = none ↔ ∀ e', t.Holds e' → e'.id ≠ env.id := by
    constructor
    · intro hnone e' he' hid
      rw [Holds, hid, hnone] at he'
      cases he'
    · intro hall
      cases hsome : t.store[env.id]? with
      | none => rfl
      | some e' =>
          have hid : e'.id = env.id := t.keyed _ _ hsome
          exact absurd hid (hall e' (by rw [Holds, hid, hsome]))
  unfold Holds publish
  rw [BTreeMap.getElem?_insertIfNew]
  constructor
  · intro h
    split at h
    · next hnew => exact Or.inr ⟨(Option.some.inj h).symm, hfree.mp hnew.2⟩
    · exact Or.inl h
  · rintro (h | ⟨rfl, hall⟩)
    · rw [if_neg, h]
      rintro ⟨hid, hnone⟩
      rw [hid, h] at hnone
      cases hnone
    · rw [if_pos ⟨rfl, hfree.mpr hall⟩]

theorem Holds.publish {t : InMemoryTransport} {env e : Envelope} (h : t.Holds e) :
    (t.publish env).2.Holds e :=
  holds_publish.mpr (Or.inl h)

/-- Among envelopes whose ids tell them apart, nothing is dropped. -/
theorem holds_publish_of_collisionFree {t : InMemoryTransport} {env : Envelope} {envs : Set Envelope}
    (hfree : CollisionFree envs) (hheld : ∀ e, t.Holds e → e ∈ envs) (henv : env ∈ envs)
    {e : Envelope} : (t.publish env).2.Holds e ↔ t.Holds e ∨ e = env := by
  rw [holds_publish]
  constructor
  · rintro (h | ⟨rfl, _⟩)
    · exact Or.inl h
    · exact Or.inr rfl
  · rintro (h | rfl)
    · exact Or.inl h
    · by_cases hin : t.Holds e
      · exact Or.inl hin
      · refine Or.inr ⟨rfl, fun e' he' hid => hin ?_⟩
        rwa [← hfree (hheld e' he') henv hid]

/-- A sequence of publishes adds at most what it publishes, and keeps the rest. -/
theorem holds_publishAll_sub {t : InMemoryTransport} {envs : List Envelope} {e : Envelope}
    (h : (t.publishAll envs).Holds e) : t.Holds e ∨ e ∈ envs := by
  induction envs generalizing t with
  | nil => exact Or.inl h
  | cons env envs ih =>
      rcases ih h with h | h
      · rcases holds_publish.mp h with h | ⟨rfl, -⟩
        · exact Or.inl h
        · exact Or.inr List.mem_cons_self
      · exact Or.inr (List.mem_cons_of_mem _ h)

/-- Among envelopes whose ids tell them apart, a sequence of publishes adds
    exactly what it publishes. -/
theorem holds_publishAll_of_collisionFree {t : InMemoryTransport} {pub : List Envelope}
    {envs : Set Envelope} (hfree : CollisionFree envs) (hheld : ∀ e, t.Holds e → e ∈ envs)
    (hpub : ∀ e ∈ pub, e ∈ envs) {e : Envelope} :
    (t.publishAll pub).Holds e ↔ t.Holds e ∨ e ∈ pub := by
  induction pub generalizing t with
  | nil => simp [publishAll]
  | cons env pub ih =>
      have henv : env ∈ envs := hpub env List.mem_cons_self
      have hstep : ∀ e, (t.publish env).2.Holds e ↔ t.Holds e ∨ e = env :=
        fun e => holds_publish_of_collisionFree hfree hheld henv
      have hcons : t.publishAll (env :: pub) = (t.publish env).2.publishAll pub := rfl
      rw [hcons, ih ?_ (fun e he => hpub e (List.mem_cons_of_mem _ he)), hstep, or_assoc,
        List.mem_cons]
      intro e he
      rcases (hstep e).mp he with h | rfl
      · exact hheld e h
      · exact henv

/-- Publishing what is held changes nothing. -/
theorem publish_of_holds {t : InMemoryTransport} {env : Envelope} (h : t.Holds env) :
    (t.publish env).2 = t := by
  have hstore : t.store.insertIfNew env.id env = t.store := by
    apply BTreeMap.ext_getElem?
    intro id
    rw [BTreeMap.getElem?_insertIfNew, if_neg]
    rintro ⟨-, hnone⟩
    rw [Holds, hnone] at h
    cases h
  obtain ⟨store, keyed⟩ := t
  exact (InMemoryTransport.mk.injEq _ _ _ _).mpr hstore

theorem publishAll_of_holds {t : InMemoryTransport} {envs : List Envelope} (h : ∀ e ∈ envs, t.Holds e) :
    t.publishAll envs = t := by
  induction envs with
  | nil => rfl
  | cons env envs ih =>
      have hcons : t.publishAll (env :: envs) = (t.publish env).2.publishAll envs := rfl
      rw [hcons, publish_of_holds (h env List.mem_cons_self)]
      exact ih (fun e he => h e (List.mem_cons_of_mem env he))

/-! ## What a subscription returns -/

@[simp] theorem mem_subscribe {t : InMemoryTransport} {f : Filter} {env : Envelope} :
    env ∈ t.subscribe f ↔ t.Holds env ∧ f.matchesEnvelope env = true := by
  unfold subscribe
  rw [List.mem_filter, List.mem_map]
  constructor
  · rintro ⟨⟨⟨id, e⟩, hmem, rfl⟩, hmatch⟩
    have hstore := BTreeMap.mem_toList.mp hmem
    refine ⟨?_, hmatch⟩
    rw [Holds, t.keyed _ _ hstore]
    exact hstore
  · rintro ⟨hheld, hmatch⟩
    exact ⟨⟨(env.id, env), BTreeMap.mem_toList.mpr hheld, rfl⟩, hmatch⟩

/-- Deliveries are in strictly ascending id order. -/
theorem pairwise_subscribe (t : InMemoryTransport) (f : Filter) :
    (t.subscribe f).Pairwise (fun a b => a.id < b.id) := by
  unfold subscribe
  apply List.Pairwise.filter
  rw [List.pairwise_map]
  refine (BTreeMap.pairwise_toList t.store).imp_of_mem ?_
  rintro ⟨ida, a⟩ ⟨idb, b⟩ ha hb hlt
  rw [t.keyed _ _ (BTreeMap.mem_toList.mp ha), t.keyed _ _ (BTreeMap.mem_toList.mp hb)]
  exact hlt

theorem nodup_subscribe (t : InMemoryTransport) (f : Filter) : (t.subscribe f).Nodup :=
  (pairwise_subscribe t f).imp (fun h heq => absurd (congrArg Envelope.id heq) h.ne)

/-- Two boards that hold the same matching envelopes deliver the same list. -/
theorem subscribe_congr {t t' : InMemoryTransport} {f f' : Filter}
    (h : ∀ e, (t.Holds e ∧ f.matchesEnvelope e = true) ↔
      (t'.Holds e ∧ f'.matchesEnvelope e = true)) :
    t.subscribe f = t'.subscribe f' := by
  have hperm : (t.subscribe f).Perm (t'.subscribe f') := by
    rw [List.perm_ext_iff_of_nodup (nodup_subscribe t f) (nodup_subscribe t' f')]
    intro e
    simpa using h e
  exact hperm.eq_of_pairwise (fun a b _ _ hab hba => absurd hab hba.asymm)
    (pairwise_subscribe t f) (pairwise_subscribe t' f')

/-! ## Reading back what was published -/

section ReadBack

variable {κ ε α : Type} {board : InMemoryTransport} {pub : List Envelope} {envs : Set Envelope}
  {filter : Filter} {key : Envelope → Option κ}

/-- Where the board held nothing that has a key, what a subscription returns
    under a key after a sequence of publishes is one of them. -/
theorem mem_of_readBack (hfresh : ∀ e ∈ board.subscribe filter, key e = none) {e : Envelope}
    {k : κ} (he : e ∈ (board.publishAll pub).subscribe filter) (hkey : key e = some k) :
    e ∈ pub := by
  obtain ⟨hholds, hmatch⟩ := mem_subscribe.mp he
  rcases holds_publishAll_sub hholds with h | h
  · rw [hfresh e (mem_subscribe.mpr ⟨h, hmatch⟩)] at hkey
    cases hkey
  · exact h

variable [LinearOrder κ]

/-- Reading back then succeeds if every published envelope decodes. -/
theorem collect_readBack_ok (decode : Envelope → Except ε α)
    (hfresh : ∀ e ∈ board.subscribe filter, key e = none) (hdecode : ∀ e ∈ pub, ∃ v, decode e = .ok v) :
    ∃ m, BTreeMap.collect key decode ((board.publishAll pub).subscribe filter) = .ok m := by
  refine BTreeMap.collect_ok ?_
  intro e he hsome
  obtain ⟨k, hk⟩ := Option.isSome_iff_exists.mp hsome
  exact hdecode e (mem_of_readBack hfresh he hk)

/-- Reading back yields, under each key, the one published envelope of that
    key. -/
theorem collect_readBack {decode : Envelope → Except ε α} (hfree : CollisionFree envs) (hheld : ∀ e, board.Holds e → e ∈ envs)
    (hpub : ∀ e ∈ pub, e ∈ envs) (hfresh : ∀ e ∈ board.subscribe filter, key e = none)
    {m : BTreeMap κ α}
    (hm : BTreeMap.collect key decode ((board.publishAll pub).subscribe filter) = .ok m) {k : κ} :
    (∀ env, env ∈ pub → filter.matchesEnvelope env = true → key env = some k →
      (∀ e ∈ pub, key e = some k → e = env) → m[k]? = (decode env).toOption) ∧
    ((∀ e ∈ pub, key e ≠ some k) → m[k]? = none) := by
  constructor
  · intro env henv hmatch hkey hunique
    rw [BTreeMap.collect_getElem? hm k, BTreeMap.lastUnder_eq_some
      (pairwise_subscribe _ filter) ?_ hkey, Option.bind_some]
    · intro e he hk
      rw [hunique e (mem_of_readBack hfresh he hk) hk]
    · exact mem_subscribe.mpr
        ⟨(holds_publishAll_of_collisionFree hfree hheld hpub).mpr (Or.inr henv), hmatch⟩
  · intro hnone
    rw [BTreeMap.collect_getElem? hm k, BTreeMap.lastUnder_eq_none, Option.bind_none]
    intro e he hk
    exact hnone e (mem_of_readBack hfresh he hk) hk

end ReadBack

end InMemoryTransport

end Transport
