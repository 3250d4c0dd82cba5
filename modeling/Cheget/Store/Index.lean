-- SUMMARY: The manifest is a finite map from share tags to entries.
import Cheget.Base.Keyed
import Cheget.Store.Paths

/-!
# The manifest as a map

Entries are inserted by comparing the strings that they store, and looked up and
removed by tags that are spelled out again. The spelling of a tag determines it.
-/

namespace Store

open Crypto

namespace ShareEntry

/-- The tag of an entry, as it is stored. -/
def key (self : ShareEntry) : String × UInt64 × String := (self.keyId, self.epoch, self.seat)

/-- Whether an entry carries exactly this tag. -/
def matchesTag (self : ShareEntry) (keyId : KeyId) (epoch : Epoch) (seat : SeatId) : Bool :=
  self.keyId == keyId.label && self.epoch == epoch.number && self.seat == seatHex seat

theorem sameTag_iff {a b : ShareEntry} : a.sameTag b = true ↔ a.key = b.key := by
  simp [sameTag, key, and_assoc]

end ShareEntry

/-- How a tag is stored. -/
def ShareTag.key (tag : ShareTag) : String × UInt64 × String :=
  (tag.keyId.label, tag.epoch.number, seatHex tag.seat)

/-- Different tags are stored differently. -/
theorem ShareTag.key_injective : Function.Injective ShareTag.key := by
  rintro ⟨keyId, ⟨epoch⟩, seat⟩ ⟨keyId', ⟨epoch'⟩, seat'⟩ h
  obtain ⟨hkey, hrest⟩ := Prod.mk.inj h
  obtain ⟨hepoch, hseat⟩ := Prod.mk.inj hrest
  cases KeyId.label_injective hkey
  cases seatHex_injective hseat
  cases hepoch
  rfl

theorem ShareEntry.matchesTag_iff {e : ShareEntry} {tag : ShareTag} :
    e.matchesTag tag.keyId tag.epoch tag.seat = true ↔ e.key = tag.key := by
  simp [matchesTag, key, ShareTag.key, and_assoc]

namespace Manifest

/-- Find the entry that carries a tag. -/
def lookup (self : Manifest) (keyId : KeyId) (epoch : Epoch) (seat : SeatId) : Option ShareEntry :=
  self.shares.find? (fun e => e.matchesTag keyId epoch seat)

/-- Remove the entry that carries a tag; whether there was one. -/
def remove (self : Manifest) (keyId : KeyId) (epoch : Epoch) (seat : SeatId) : Bool × Manifest :=
  let shares := self.shares.filter (fun e => !e.matchesTag keyId epoch seat)
  (shares.length != self.shares.length, { self with shares })

/-! ## Operations -/

inductive Edit where
  | add (entry : ShareEntry)
  | remove (tag : ShareTag)

def edit (self : Manifest) : Edit → Manifest
  | .add entry => self.addEntry entry
  | .remove tag => (self.remove tag.keyId tag.epoch tag.seat).2

/-- What was added last for a tag, since it was last removed. -/
def lastAdded (tag : ShareTag) (edits : List Edit) : Option ShareEntry :=
  edits.foldl (fun last op =>
    match op with
    | .add entry => if entry.key = tag.key then some entry else last
    | .remove tag' => if tag' = tag then none else last) none

/-! ## The manifest is keyed by its tags -/

variable {m : Manifest} {entry : ShareEntry} {tag : ShareTag}

theorem insertEntry_eq (entry : ShareEntry) (es : List ShareEntry) :
    insertEntry entry es = Keyed.put ShareEntry.key entry es := by
  induction es with
  | nil => rfl
  | cons e es ih =>
      unfold insertEntry Keyed.put
      simp only [ShareEntry.sameTag_iff, ih]

theorem lookup_eq (m : Manifest) (tag : ShareTag) :
    m.lookup tag.keyId tag.epoch tag.seat = Keyed.lookup ShareEntry.key tag.key m.shares := by
  unfold lookup Keyed.lookup
  congr 1
  funext e
  exact Bool.eq_iff_iff.mpr (by simpa using ShareEntry.matchesTag_iff)

theorem remove_eq (m : Manifest) (tag : ShareTag) :
    m.remove tag.keyId tag.epoch tag.seat =
      ((Keyed.remove ShareEntry.key tag.key m.shares).length != m.shares.length,
        { m with shares := Keyed.remove ShareEntry.key tag.key m.shares }) := by
  have hfilter : m.shares.filter (fun e => !e.matchesTag tag.keyId tag.epoch tag.seat) =
      Keyed.remove ShareEntry.key tag.key m.shares := by
    unfold Keyed.remove
    congr 1
    funext e
    refine Bool.eq_iff_iff.mpr ?_
    rw [Bool.not_eq_true', decide_eq_true_eq, ← Bool.not_eq_true, ShareEntry.matchesTag_iff]
  unfold remove
  rw [hfilter]

/-! ## Runs of operations -/

theorem unique_edit (h : Keyed.Unique ShareEntry.key m.shares) (op : Edit) :
    Keyed.Unique ShareEntry.key (m.edit op).shares := by
  cases op with
  | add entry =>
      have hshares : (m.edit (.add entry)).shares = Keyed.put ShareEntry.key entry m.shares :=
        insertEntry_eq entry m.shares
      rw [hshares]
      exact h.put
  | remove tag =>
      rw [edit, remove_eq]
      exact h.remove tag.key

theorem unique_foldl (edits : List Edit) (h : Keyed.Unique ShareEntry.key m.shares) :
    Keyed.Unique ShareEntry.key (edits.foldl edit m).shares := by
  induction edits generalizing m with
  | nil => exact h
  | cons op edits ih => exact ih (unique_edit h op)

/-- The lookups of one tag after an operation, from those before. -/
theorem lookup_edit (m : Manifest) (tag : ShareTag) (op : Edit) :
    (m.edit op).lookup tag.keyId tag.epoch tag.seat =
      match op with
      | .add entry => if entry.key = tag.key then some entry else m.lookup tag.keyId tag.epoch tag.seat
      | .remove tag' => if tag' = tag then none else m.lookup tag.keyId tag.epoch tag.seat := by
  cases op with
  | add entry =>
      have hshares : (m.edit (.add entry)).shares = Keyed.put ShareEntry.key entry m.shares :=
        insertEntry_eq entry m.shares
      rw [lookup_eq, lookup_eq, hshares, Keyed.lookup_put]
  | remove tag' =>
      rw [lookup_eq, lookup_eq, edit, remove_eq, Keyed.lookup_remove]
      simp only [ShareTag.key_injective.eq_iff]

theorem lookup_foldl (edits : List Edit) (tag : ShareTag) :
    (edits.foldl edit new).lookup tag.keyId tag.epoch tag.seat = lastAdded tag edits := by
  induction edits using List.reverseRecOn with
  | nil => rfl
  | append_singleton edits op ih =>
      rw [List.foldl_append, List.foldl_cons, List.foldl_nil, lookup_edit, ih, lastAdded, lastAdded,
        List.foldl_append, List.foldl_cons, List.foldl_nil]

/-- Adding an entry puts it in the place of the one with its tag, or at the end. -/
theorem addEntry_cases (h : Keyed.Unique ShareEntry.key m.shares) (entry : ShareEntry) :
    (∃ before old after, m.shares = before ++ old :: after ∧ old.key = entry.key ∧
        (m.addEntry entry).shares = before ++ entry :: after) ∨
      ((∀ e ∈ m.shares, e.key ≠ entry.key) ∧ (m.addEntry entry).shares = m.shares ++ [entry]) := by
  have hshares : (m.addEntry entry).shares = Keyed.put ShareEntry.key entry m.shares :=
    insertEntry_eq entry m.shares
  rw [hshares]
  cases hlookup : Keyed.lookup ShareEntry.key entry.key m.shares with
  | some old =>
      obtain ⟨before, after, hsplit, hold, hothers⟩ := Keyed.lookup_split h hlookup
      refine Or.inl ⟨before, old, after, hsplit, hold, ?_⟩
      rw [hsplit]
      exact Keyed.put_split hold (fun y hy => hothers y (List.mem_append_left after hy))
  | none =>
      have hnone := Keyed.lookup_eq_none.mp hlookup
      exact Or.inr ⟨hnone, Keyed.put_of_forall_ne hnone⟩

/-- Removing a tag takes out its entry, if there is one, and nothing else. -/
theorem remove_cases (h : Keyed.Unique ShareEntry.key m.shares) (tag : ShareTag) :
    (∃ before old after, m.shares = before ++ old :: after ∧ old.key = tag.key ∧
        m.remove tag.keyId tag.epoch tag.seat = (true, { m with shares := before ++ after })) ∨
      ((∀ e ∈ m.shares, e.key ≠ tag.key) ∧ m.remove tag.keyId tag.epoch tag.seat = (false, m)) := by
  rw [remove_eq]
  cases hlookup : Keyed.lookup ShareEntry.key tag.key m.shares with
  | some old =>
      obtain ⟨before, after, hsplit, hold, hothers⟩ := Keyed.lookup_split h hlookup
      refine Or.inl ⟨before, old, after, hsplit, hold, ?_⟩
      rw [hsplit, Keyed.remove_split hold hothers]
      simp
  | none =>
      have hnone := Keyed.lookup_eq_none.mp hlookup
      refine Or.inr ⟨hnone, ?_⟩
      rw [Keyed.remove_of_forall_ne hnone]
      simp

/-- After any edits of a new manifest no two entries carry the same tag, and a tag
    is looked up as what was added for it last since its last removal. Adding an
    entry and removing a tag change the entry of that tag only, and keep the
    others in their order. -/
theorem edits_isMap (edits : List Edit) :
    (edits.foldl edit new).shares.Pairwise (fun a b => a.sameTag b = false) ∧
      (∀ tag : ShareTag,
        (edits.foldl edit new).lookup tag.keyId tag.epoch tag.seat = lastAdded tag edits) ∧
      (∀ entry : ShareEntry,
        (∃ before old after, (edits.foldl edit new).shares = before ++ old :: after ∧
          old.key = entry.key ∧
          ((edits.foldl edit new).addEntry entry).shares = before ++ entry :: after) ∨
        ((∀ e ∈ (edits.foldl edit new).shares, e.key ≠ entry.key) ∧
          ((edits.foldl edit new).addEntry entry).shares = (edits.foldl edit new).shares ++ [entry])) ∧
      ∀ tag : ShareTag,
        (∃ before old after, (edits.foldl edit new).shares = before ++ old :: after ∧
          old.key = tag.key ∧ (edits.foldl edit new).remove tag.keyId tag.epoch tag.seat =
            (true, { edits.foldl edit new with shares := before ++ after })) ∨
        ((∀ e ∈ (edits.foldl edit new).shares, e.key ≠ tag.key) ∧
          (edits.foldl edit new).remove tag.keyId tag.epoch tag.seat = (false, edits.foldl edit new)) := by
  have hunique : Keyed.Unique ShareEntry.key (edits.foldl edit new).shares :=
    unique_foldl edits Keyed.unique_nil
  refine ⟨hunique.imp (fun hne => ?_), lookup_foldl edits, addEntry_cases hunique, remove_cases hunique⟩
  exact Bool.eq_false_iff.mpr (fun hsame => hne (ShareEntry.sameTag_iff.mp hsame))

end Manifest

end Store
