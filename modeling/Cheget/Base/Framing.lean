-- SUMMARY: Encodings that can be split off the front of any longer string in one way, and how they are put together.
import Mathlib.Data.Set.Basic

/-!
# Framing

An encoder frames a field of a value if its output, followed by anything, can be
read in one way: the string determines the field and where the output ends.
Writing framed fields one after the other frames all of them, and a string of
any length is framed by its length before it.
-/

section Framing

variable {α β γ δ : Type} {s : Set α} {f g : α → List β} {p : α → γ} {q : α → δ}

/-- On the values of a set, the encoder `f` frames the field `p`. -/
def Frames (s : Set α) (f : α → List β) (p : α → γ) : Prop :=
  ∀ ⦃a⦄, a ∈ s → ∀ ⦃b⦄, b ∈ s → ∀ ⦃x y : List β⦄, f a ++ x = f b ++ y → p a = p b ∧ x = y

namespace Frames

/-! ## What is framed -/

theorem eq_of_eq (h : Frames s f p) {a b : α} (ha : a ∈ s) (hb : b ∈ s) (heq : f a = f b) : p a = p b :=
  (h ha hb (congrArg (· ++ []) heq)).1

theorem eq_of_isPrefix (h : Frames s f p) {a b : α} (ha : a ∈ s) (hb : b ∈ s) (hpre : f a <+: f b) :
    f a = f b := by
  obtain ⟨x, hx⟩ := hpre
  have hsplit : f a ++ x = f b ++ [] := by rw [hx, List.append_nil]
  obtain ⟨-, hnil⟩ := h ha hb hsplit
  rw [← hx, hnil, List.append_nil]

/-- What the field determines is framed with it. -/
theorem map (h : Frames s f p) (hq : ∀ ⦃a⦄, a ∈ s → ∀ ⦃b⦄, b ∈ s → p a = p b → q a = q b) :
    Frames s f q := by
  intro a ha b hb x y heq
  obtain ⟨hp, htail⟩ := h ha hb heq
  exact ⟨hq ha hb hp, htail⟩

/-! ## Fields -/

/-- A field of fixed width is framed by any encoding that tells its values apart. -/
theorem fixedWidth (hlength : ∀ a ∈ s, ∀ b ∈ s, (f a).length = (f b).length)
    (hinj : ∀ ⦃a⦄, a ∈ s → ∀ ⦃b⦄, b ∈ s → f a = f b → p a = p b) : Frames s f p := by
  intro a ha b hb x y heq
  obtain ⟨hf, htail⟩ := List.append_inj heq (hlength a ha b hb)
  exact ⟨hinj ha hb hf, htail⟩

/-- A second field may be framed only where the first is known. -/
theorem append_of (hf : Frames s f p) (hg : ∀ c, Frames {a ∈ s | p a = c} g q) :
    Frames s (fun a => f a ++ g a) (fun a => (p a, q a)) := by
  intro a ha b hb x y heq
  simp only [List.append_assoc] at heq
  obtain ⟨hp, hrest⟩ := hf ha hb heq
  obtain ⟨hq, htail⟩ := hg (p b) ⟨ha, hp⟩ ⟨hb, rfl⟩ hrest
  exact ⟨Prod.ext hp hq, htail⟩

theorem append (hf : Frames s f p) (hg : Frames s g q) :
    Frames s (fun a => f a ++ g a) (fun a => (p a, q a)) :=
  hf.append_of (fun _ _ ha _ hb _ _ heq => hg ha.1 hb.1 heq)

/-- A string after its length. -/
theorem counted {len body : α → List β} (hlen : Frames s len (fun a => (body a).length)) :
    Frames s (fun a => len a ++ body a) body := by
  have hbody : ∀ n, Frames {a ∈ s | (body a).length = n} body body := by
    intro n
    apply fixedWidth
    · exact fun a ha b hb => ha.2.trans hb.2.symm
    · exact fun a _ b _ heq => heq
  exact (hlen.append_of hbody).map (fun _ _ _ _ heq => (Prod.ext_iff.mp heq).2)

end Frames

/-- A field that may be missing, after a mark of its presence. -/
def encodeOption (present absent : β) (e : γ → List β) : Option γ → List β
  | some c => present :: e c
  | none => [absent]

theorem Frames.option {present absent : β} (hmark : present ≠ absent) {e : γ → List β}
    (he : Frames Set.univ e (fun c => c)) (o : α → Option γ) :
    Frames s (fun a => encodeOption present absent e (o a)) o := by
  intro a _ b _ x y heq
  dsimp only at heq
  cases ha : o a with
  | none =>
      cases hb : o b with
      | none =>
          rw [ha, hb] at heq
          exact ⟨rfl, (List.cons.inj heq).2⟩
      | some c =>
          rw [ha, hb] at heq
          exact absurd (List.cons.inj heq).1.symm hmark
  | some c =>
      cases hb : o b with
      | none =>
          rw [ha, hb] at heq
          exact absurd (List.cons.inj heq).1 hmark
      | some d =>
          rw [ha, hb] at heq
          obtain ⟨hc, htail⟩ := he (Set.mem_univ c) (Set.mem_univ d) (List.cons.inj heq).2
          exact ⟨congrArg some hc, htail⟩

end Framing
