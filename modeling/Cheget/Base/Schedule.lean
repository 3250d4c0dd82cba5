-- SUMMARY: Programs that follow a schedule: a run sends a beginning of it, and all of it where it returns.
import Cheget.Base.Program
import Mathlib.Data.List.Forall2

/-!
# Schedules

A schedule lists the messages a program is to send, in order. A run that stops
early has sent a beginning of the schedule. The rules establish that from the
parts of a program, whatever the handler answers.
-/

namespace Program

variable {Op : Type} {Resp : Op → Type} {ε α β γ σ E M : Type}

/-- The run from `s` sends a beginning of the schedule, and where it returns all
    of it, with a value that `Q` holds of. `note` reads what an event sends, and
    `Carries` which messages that is. -/
def Follows (h : Handler Op Resp σ) (note : Event Op Resp → Option E) (Carries : M → E → Prop)
    (schedule : List M) (Q : α → Prop) (p : Program Op Resp ε α) (s : σ) : Prop :=
  ∃ sent, List.Forall₂ Carries sent ((p.run h s).trace.filterMap note) ∧ sent <+: schedule ∧
    ∀ a, (p.run h s).result = .ok a → sent = schedule ∧ Q a

variable {h : Handler Op Resp σ} {note : Event Op Resp → Option E} {Carries : M → E → Prop}
  {schedule schedule' : List M} {s : σ}

theorem follows_done {Q : α → Prop} {a : α} (ha : Q a) :
    (.done a : Program Op Resp ε α).Follows h note Carries [] Q s := by
  refine ⟨[], .nil, List.nil_prefix, fun b hb => ?_⟩
  cases hb
  exact ⟨rfl, ha⟩

theorem follows_fail (e : ε) (schedule : List M) (Q : α → Prop) :
    (.fail e : Program Op Resp ε α).Follows h note Carries schedule Q s :=
  ⟨[], .nil, List.nil_prefix, by intro a ha; cases ha⟩

theorem follows_ofExcept {Q : α → Prop} {x : Except ε α} (hx : ∀ a, x = .ok a → Q a) :
    (ofExcept x : Program Op Resp ε α).Follows h note Carries [] Q s := by
  cases x with
  | ok a => exact follows_done (hx a rfl)
  | error e => exact follows_fail e [] Q

theorem follows_silent {op : Op} (hnote : ∀ r, note ⟨op, r⟩ = none) :
    (perform op : Program Op Resp ε _).Follows h note Carries [] (fun _ => True) s := by
  refine ⟨[], ?_, List.nil_prefix, fun _ _ => ⟨rfl, trivial⟩⟩
  rw [run_perform, List.filterMap_cons_none (hnote _)]
  exact .nil

theorem follows_send {op : Op} {m : M} (hnote : ∀ r, ∃ e, note ⟨op, r⟩ = some e ∧ Carries m e) :
    (perform op : Program Op Resp ε _).Follows h note Carries [m] (fun _ => True) s := by
  obtain ⟨e, he, hcarries⟩ := hnote (h op s).1
  refine ⟨[m], ?_, List.prefix_rfl, fun _ _ => ⟨rfl, trivial⟩⟩
  rw [run_perform, List.filterMap_cons_some he]
  exact .cons hcarries .nil

theorem Follows.mono {Q R : α → Prop} {p : Program Op Resp ε α} (hp : p.Follows h note Carries schedule Q s)
    (hQR : ∀ a, Q a → R a) : p.Follows h note Carries schedule R s := by
  obtain ⟨sent, hsent, hprefix, hall⟩ := hp
  refine ⟨sent, hsent, hprefix, fun a ha => ?_⟩
  obtain ⟨heq, hQ⟩ := hall a ha
  exact ⟨heq, hQR a hQ⟩

/-- The value that comes out is the one that the run returns. -/
theorem Follows.result {Q : α → Prop} {p : Program Op Resp ε α} (hp : p.Follows h note Carries schedule Q s) :
    p.Follows h note Carries schedule (fun a => (p.run h s).result = .ok a ∧ Q a) s := by
  obtain ⟨sent, hsent, hprefix, hall⟩ := hp
  refine ⟨sent, hsent, hprefix, fun a ha => ?_⟩
  obtain ⟨heq, hQ⟩ := hall a ha
  exact ⟨heq, ha, hQ⟩

theorem Follows.bind {Q : α → Prop} {R : β → Prop} {p : Program Op Resp ε α} {f : α → Program Op Resp ε β}
    (hp : p.Follows h note Carries schedule Q s)
    (hf : ∀ a s', Q a → (f a).Follows h note Carries schedule' R s') :
    (p >>= f).Follows h note Carries (schedule ++ schedule') R s := by
  obtain ⟨sent, hsent, hprefix, hall⟩ := hp
  unfold Follows
  rw [run_bind]
  cases hresult : (p.run h s).result with
  | error e =>
      simp only [Run.andThen, hresult]
      exact ⟨sent, hsent, hprefix.trans (List.prefix_append _ _), by intro b hb; cases hb⟩
  | ok a =>
      obtain ⟨rfl, hQ⟩ := hall a hresult
      obtain ⟨sent', hsent', hprefix', hall'⟩ := hf a (p.run h s).state hQ
      simp only [Run.andThen, hresult]
      refine ⟨sent ++ sent', ?_, (List.prefix_append_right_inj sent).mpr hprefix', fun b hb => ?_⟩
      · rw [List.filterMap_append]
        exact List.rel_append hsent hsent'
      · obtain ⟨rfl, hR⟩ := hall' b hb
        exact ⟨rfl, hR⟩

theorem Follows.silent_bind {Q : α → Prop} {R : β → Prop} {p : Program Op Resp ε α}
    {f : α → Program Op Resp ε β} (hp : p.Follows h note Carries [] Q s)
    (hf : ∀ a s', Q a → (f a).Follows h note Carries schedule R s') :
    (p >>= f).Follows h note Carries schedule R s :=
  hp.bind hf

theorem Follows.bind_silent {Q : α → Prop} {R : β → Prop} {p : Program Op Resp ε α}
    {f : α → Program Op Resp ε β} (hp : p.Follows h note Carries schedule Q s)
    (hf : ∀ a s', Q a → (f a).Follows h note Carries [] R s') :
    (p >>= f).Follows h note Carries schedule R s :=
  List.append_nil schedule ▸ hp.bind hf

/-- A loop sends what its rounds send, one after the other. -/
theorem Follows.foldlM {f : γ → β → Program Op Resp ε γ} {inv : γ → Prop} {plan : β → List M} {xs : List β}
    (hf : ∀ x ∈ xs, ∀ c s, inv c → (f c x).Follows h note Carries (plan x) inv s) {c : γ} (hc : inv c) :
    (xs.foldlM f c).Follows h note Carries (xs.flatMap plan) inv s := by
  induction xs generalizing c s with
  | nil => exact follows_done hc
  | cons x xs ih =>
      rw [List.foldlM_cons, List.flatMap_cons]
      exact (hf x List.mem_cons_self c s hc).bind
        (fun c s hc => ih (fun x hx => hf x (List.mem_cons_of_mem _ hx)) hc)

theorem Follows.forM {f : β → Program Op Resp ε PUnit} {plan : β → List M} {xs : List β}
    (hf : ∀ x ∈ xs, ∀ s, (f x).Follows h note Carries (plan x) (fun _ => True) s) :
    (xs.forM f).Follows h note Carries (xs.flatMap plan) (fun _ => True) s := by
  induction xs generalizing s with
  | nil => exact follows_done trivial
  | cons x xs ih =>
      have hcons : (x :: xs).forM f = (f x >>= fun _ => xs.forM f) := rfl
      rw [hcons, List.flatMap_cons]
      exact (hf x List.mem_cons_self s).bind (fun _ s _ => ih (fun x hx => hf x (List.mem_cons_of_mem _ hx)))

end Program
