-- SUMMARY: Rely-guarantee reasoning for programs that take turns on one shared state.
import Cheget.Base.Crash
import Cheget.Base.Interleave

/-!
# Rely and guarantee

A program that shares its state with others can be judged alone: it keeps a
common invariant and its guarantee with every step of its own, as long as what
happens between its steps stays within its rely. Programs whose guarantees are
within the relies of the others keep the invariant over every schedule.
-/

namespace Program

variable {Op : Type} {Resp : Op → Type} {ε ε' α β γ σ : Type}

/-- From `s`, every step keeps `I` and is within `G`, and a return leaves `Q`,
    whatever happens between the steps within `R`. -/
def Respects (h : Handler Op Resp σ) (I : σ → Prop) (R G : σ → σ → Prop) (Q : α → σ → Prop) :
    Program Op Resp ε α → σ → Prop
  | .done a, s => Q a s
  | .fail _, _ => True
  | .exec op k, s => ∀ s', I s' → R s s' → I (h op s').2 ∧ G s' (h op s').2 ∧
      (k (h op s').1).Respects h I R G Q (h op s').2

variable {h : Handler Op Resp σ} {I : σ → Prop} {R G : σ → σ → Prop}

/-! ## Rules -/

theorem respects_ofExcept {Q : α → σ → Prop} {x : Except ε α} {s : σ} (hQ : ∀ a, x = .ok a → Q a s) :
    (ofExcept x : Program Op Resp ε α).Respects h I R G Q s := by
  cases x with
  | ok a => exact hQ a rfl
  | error e => trivial

theorem Respects.bind {Q : α → σ → Prop} {Q' : β → σ → Prop} {p : Program Op Resp ε α}
    {f : α → Program Op Resp ε β} {s : σ} (hp : p.Respects h I R G Q s)
    (hf : ∀ a s', Q a s' → (f a).Respects h I R G Q' s') : (p >>= f).Respects h I R G Q' s := by
  induction p generalizing s with
  | done a => exact hf a s hp
  | fail e => trivial
  | exec op k ih =>
      intro s' hs' hrely
      obtain ⟨hinv, hguar, hrest⟩ := hp s' hs' hrely
      exact ⟨hinv, hguar, ih _ hrest⟩

theorem Respects.mono {Q Q' : α → σ → Prop} {p : Program Op Resp ε α} {s : σ}
    (hp : p.Respects h I R G Q s) (hQ : ∀ a s', Q a s' → Q' a s') : p.Respects h I R G Q' s := by
  induction p generalizing s with
  | done a => exact hQ a s hp
  | fail e => trivial
  | exec op k ih =>
      intro s' hs' hrely
      obtain ⟨hinv, hguar, hrest⟩ := hp s' hs' hrely
      exact ⟨hinv, hguar, ih _ hrest⟩

theorem Respects.attempt {Q : α → σ → Prop} {p : Program Op Resp ε α} {s : σ}
    (hp : p.Respects h I R G Q s) :
    (p.attempt : Program Op Resp ε' (Except ε α)).Respects h I R G
      (fun r s' => ∀ a, r = .ok a → Q a s') s := by
  induction p generalizing s with
  | done a =>
      intro b hb
      cases hb
      exact hp
  | fail e => exact fun b hb => nomatch hb
  | exec op k ih =>
      intro s' hs' hrely
      obtain ⟨hinv, hguar, hrest⟩ := hp s' hs' hrely
      exact ⟨hinv, hguar, ih _ hrest⟩

/-- What every step extends, in the program and around it, the run extends. -/
theorem Respects.extends {E : σ → σ → Prop} (hrefl : ∀ s, E s s)
    (htrans : ∀ s s' s'', E s s' → E s' s'' → E s s'') (hrely : ∀ s s', R s s' → E s s')
    (hguar : ∀ s s', G s s' → E s s') {Q : α → σ → Prop} {p : Program Op Resp ε α} {s : σ}
    (hp : p.Respects h I R G Q s) : p.Respects h I R G (fun a s' => E s s' ∧ Q a s') s := by
  induction p generalizing s with
  | done a => exact ⟨hrefl s, hp⟩
  | fail e => trivial
  | exec op k ih =>
      intro s' hs' hR
      obtain ⟨hinv, hG, hrest⟩ := hp s' hs' hR
      have hfirst : E s (h op s').2 := htrans _ _ _ (hrely s s' hR) (hguar s' _ hG)
      exact ⟨hinv, hG, (ih _ hrest).mono (fun a s'' hQ => ⟨htrans _ _ _ hfirst hQ.1, hQ.2⟩)⟩

/-- A program whose operations all keep a stable fact. -/
theorem Uses.respects {P : Op → Prop} {F : σ → Prop} {p : Program Op Resp ε α} (hp : p.Uses P)
    (hstep : ∀ op s, P op → I s → F s → I (h op s).2 ∧ G s (h op s).2 ∧ F (h op s).2)
    (hstable : ∀ s s', R s s' → F s → F s') {s : σ} (hs : F s) :
    p.Respects h I R G (fun _ => F) s := by
  induction p generalizing s with
  | done a => exact hs
  | fail e => trivial
  | exec op k ih =>
      intro s' hs' hrely
      obtain ⟨hinv, hguar, hfact⟩ := hstep op s' hp.1 hs' (hstable s s' hrely hs)
      exact ⟨hinv, hguar, ih _ (hp.2 _) hfact⟩

namespace Crew

variable {ι : Type} [DecidableEq ι]

/-! ## Schedules -/

/-- The terms on which programs share a state: `R k` is what `k` relies on, and
    `G k` what it guarantees to the others. -/
structure Terms (R G : ι → σ → σ → Prop) : Prop where
  refl : ∀ k s, R k s s
  trans : ∀ k s s' s'', R k s s' → R k s' s'' → R k s s''
  others : ∀ j k s s', j ≠ k → G j s s' → R k s s'

/-- The invariant holds, and every program respects the terms from where it was
    last at. -/
def Respectful (h : ι → Handler Op Resp σ) (I : σ → Prop) (R G : ι → σ → σ → Prop)
    (Q : ι → α → σ → Prop) (crew : Crew ι Op Resp σ ε α) : Prop :=
  I crew.state ∧ ∀ k, ∃ s, R k s crew.state ∧ (crew.programs k).Respects (h k) I (R k) (G k) (Q k) s

variable {h : ι → Handler Op Resp σ} {I : σ → Prop} {R G : ι → σ → σ → Prop}
  {Q : ι → α → σ → Prop} {crew : Crew ι Op Resp σ ε α}

theorem Respectful.step (hterms : Terms R G) (hcrew : crew.Respectful h I R G Q) (j : ι) :
    (crew.step h j).Respectful h I R G Q := by
  obtain ⟨hinv, hprograms⟩ := hcrew
  unfold Crew.step
  split
  · next op cont hj =>
      obtain ⟨s, hrely, hown⟩ := hprograms j
      rw [hj] at hown
      obtain ⟨hinv', hguar, hrest⟩ := hown _ hinv hrely
      refine ⟨hinv', fun k => ?_⟩
      by_cases hjk : j = k
      · subst hjk
        refine ⟨_, hterms.refl j _, ?_⟩
        simpa using hrest
      · obtain ⟨s', hrely', hother⟩ := hprograms k
        refine ⟨s', hterms.trans k _ _ _ hrely' (hterms.others j k _ _ hjk hguar), ?_⟩
        simpa [Function.update_of_ne (Ne.symm hjk)] using hother
  · exact ⟨hinv, hprograms⟩
  · exact ⟨hinv, hprograms⟩

/-- Over any schedule, the invariant holds. -/
theorem Respectful.after (hterms : Terms R G) (hcrew : crew.Respectful h I R G Q)
    (schedule : List ι) : (crew.after h schedule).Respectful h I R G Q := by
  induction schedule generalizing crew with
  | nil => exact hcrew
  | cons j schedule ih => exact ih (hcrew.step hterms j)

/-! ## Recorded turns -/

/-- Keeping a record of the turns changes nothing else. -/
theorem after_record {h : Handler Op Resp σ} {note : ι → Event Op Resp → Option β}
    (programs : ι → Program Op Resp ε α) (s : σ × List β) (schedule : List ι) :
    ((⟨programs, s⟩ : Crew ι Op Resp (σ × List β) ε α).after (fun k => record h (note k))
        schedule).programs =
      ((⟨programs, s.1⟩ : Crew ι Op Resp σ ε α).after (fun _ => h) schedule).programs ∧
    ((⟨programs, s⟩ : Crew ι Op Resp (σ × List β) ε α).after (fun k => record h (note k))
        schedule).state.1 =
      ((⟨programs, s.1⟩ : Crew ι Op Resp σ ε α).after (fun _ => h) schedule).state := by
  induction schedule generalizing programs s with
  | nil => exact ⟨rfl, rfl⟩
  | cons j schedule ih =>
      simp only [Crew.after, List.foldl_cons, Crew.step]
      cases hj : programs j with
      | done a => exact ih programs s
      | fail e => exact ih programs s
      | exec op cont => exact ih _ (record h (note j) op s).2

end Crew

end Program
