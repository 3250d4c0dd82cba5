-- SUMMARY: Tokens that may be spent once: ledgers over the trace of a run, and triples for what programs hold.
import Cheget.Base.Crash
import Cheget.Base.List
import Mathlib.Data.List.Perm.Basic
import Mathlib.Data.List.Perm.Subperm
import Mathlib.Logic.Function.Basic

/-!
# Affine tokens

Some operations of a program mint the material for a token, and some spend one.
A ledger of a run assigns to every token that is held, and to every spending,
the minting it goes back to, no two of them to the same. The triple says what a
program holds before and after, and that there is a ledger at every moment.
-/

/-- What mints material, what spends a token, and what is made from what. -/
structure Mint (Op : Type) (Resp : Op → Type) (M T : Type) where
  mints : Event Op Resp → Option M
  spends : Event Op Resp → Bool
  Made : M → T → Prop
  Spends : T → Event Op Resp → Prop

namespace Mint

variable {Op : Type} {Resp : Op → Type} {M T : Type} (mint : Mint Op Resp M T)

/-- A token that is made from what is minted at a position of the past. -/
def MadeAt (past : List (Event Op Resp)) (t : T) (i : Nat) : Prop :=
  ∃ ev m, past[i]? = some ev ∧ mint.mints ev = some m ∧ mint.Made m t

/-- A token is spent at a position of the past. -/
def SpendsAt (past : List (Event Op Resp)) (i : Nat) (ev : Event Op Resp) : Prop :=
  past[i]? = some ev ∧ mint.spends ev = true

/-- Every spending has a source: an earlier minting that the token is made from,
    and no other spending has the same. -/
structure Accounts (past : List (Event Op Resp)) (source : Nat → Nat) : Prop where
  made : ∀ {i ev}, mint.SpendsAt past i ev →
    source i < i ∧ ∃ t, mint.MadeAt past t (source i) ∧ mint.Spends t ev
  distinct : ∀ {i j ev ev'}, mint.SpendsAt past i ev → mint.SpendsAt past j ev' → source i = source j → i = j

/-- The mintings behind the tokens in the bag and behind what has been spent, no
    two the same. -/
def Ledger (bag : List T) (past : List (Event Op Resp)) : Prop :=
  ∃ (held : List Nat) (source : Nat → Nat), held.Nodup ∧ List.Forall₂ (mint.MadeAt past) bag held ∧
    mint.Accounts past source ∧ ∀ i ev, mint.SpendsAt past i ev → source i ∉ held

/-! ## Ledgers -/

variable {mint} {bag bag' : List T} {past : List (Event Op Resp)} {ev : Event Op Resp} {t : T} {i : Nat}

theorem MadeAt.lt (h : mint.MadeAt past t i) : i < past.length := by
  obtain ⟨ev, m, hev, -, -⟩ := h
  exact (List.getElem?_eq_some_iff.mp hev).1

theorem MadeAt.concat (h : mint.MadeAt past t i) (ev : Event Op Resp) : mint.MadeAt (past ++ [ev]) t i := by
  have hlt := h.lt
  obtain ⟨ev', m, hev, hm, hmade⟩ := h
  exact ⟨ev', m, by rw [List.getElem?_append_left hlt, hev], hm, hmade⟩

theorem SpendsAt.lt {ev : Event Op Resp} (h : mint.SpendsAt past i ev) : i < past.length :=
  (List.getElem?_eq_some_iff.mp h.1).1

/-- What a longer past spends: what it did, or its last event. -/
theorem SpendsAt.of_concat {ev' : Event Op Resp} (h : mint.SpendsAt (past ++ [ev]) i ev') :
    mint.SpendsAt past i ev' ∨ i = past.length ∧ ev' = ev ∧ mint.spends ev = true := by
  obtain ⟨hev, hspends⟩ := h
  rcases Nat.lt_or_ge i past.length with hlt | hge
  · rw [List.getElem?_append_left hlt] at hev
    exact Or.inl ⟨hev, hspends⟩
  · rw [List.getElem?_append_right hge, List.getElem?_singleton] at hev
    split at hev
    · cases hev
      exact Or.inr ⟨by omega, rfl, hspends⟩
    · cases hev

theorem SpendsAt.of_idle {ev' : Event Op Resp} (h : mint.SpendsAt (past ++ [ev]) i ev')
    (hspends : mint.spends ev = false) : mint.SpendsAt past i ev' := by
  rcases h.of_concat with h | ⟨-, -, hev⟩
  · exact h
  · rw [hspends] at hev
    cases hev

theorem Accounts.concat {source : Nat → Nat} (h : mint.Accounts past source)
    (hspends : mint.spends ev = false) : mint.Accounts (past ++ [ev]) source := by
  constructor
  · intro i ev' hat
    obtain ⟨hlt, t, hmade, htoken⟩ := h.made (hat.of_idle hspends)
    exact ⟨hlt, t, hmade.concat ev, htoken⟩
  · intro i j ev' ev'' hi hj hsource
    exact h.distinct (hi.of_idle hspends) (hj.of_idle hspends) hsource

/-- A spending after the past gets a source that no other has. -/
theorem Accounts.spending {source : Nat → Nat} {n : Nat} (h : mint.Accounts past source)
    (hmade : mint.MadeAt past t n) (htoken : mint.Spends t ev)
    (hfresh : ∀ i ev', mint.SpendsAt past i ev' → source i ≠ n) :
    mint.Accounts (past ++ [ev]) (Function.update source past.length n) := by
  have hnow : Function.update source past.length n past.length = n := Function.update_self ..
  have hthen : ∀ {i ev'}, mint.SpendsAt past i ev' → Function.update source past.length n i = source i :=
    fun hat => Function.update_of_ne hat.lt.ne _ _
  constructor
  · intro i ev' hat
    rcases hat.of_concat with hat | ⟨rfl, rfl, -⟩
    · obtain ⟨hlt, t', hmade', htoken'⟩ := h.made hat
      rw [hthen hat]
      exact ⟨hlt, t', hmade'.concat ev, htoken'⟩
    · rw [hnow]
      exact ⟨hmade.lt, t, hmade.concat ev', htoken⟩
  · intro i j ev' ev'' hi hj hsource
    rcases hi.of_concat with hi | ⟨rfl, -, -⟩ <;> rcases hj.of_concat with hj | ⟨rfl, -, -⟩
    · rw [hthen hi, hthen hj] at hsource
      exact h.distinct hi hj hsource
    · rw [hthen hi, hnow] at hsource
      exact absurd hsource (hfresh i ev' hi)
    · rw [hthen hj, hnow] at hsource
      exact absurd hsource.symm (hfresh j ev'' hj)
    · rfl

/-- Nothing has happened, and nothing is held. -/
theorem ledger_nil : mint.Ledger [] [] := by
  refine ⟨[], id, List.nodup_nil, .nil, ⟨fun hat => ?_, fun hat => ?_⟩, fun i ev hat => ?_⟩
  all_goals exact absurd hat.lt (Nat.not_lt_zero _)

/-- Tokens may be dropped, and their order does not matter. -/
theorem Ledger.subperm (h : mint.Ledger bag past) (hbag : bag'.Subperm bag) : mint.Ledger bag' past := by
  obtain ⟨held, source, hnodup, hheld, haccounts, hfree⟩ := h
  obtain ⟨kept, hperm, hsub⟩ := hbag
  obtain ⟨held', hsub', hkept⟩ := hheld.exists_sublist hsub
  obtain ⟨held'', hbag', hperm'⟩ := List.perm_comp_forall₂ hperm.symm hkept
  refine ⟨held'', source, hperm'.nodup_iff.mpr (hnodup.sublist hsub'), hbag', haccounts, ?_⟩
  intro i ev hat hmem
  exact hfree i ev hat (hsub'.subset (hperm'.subset hmem))

/-- What neither mints nor spends. -/
theorem Ledger.idle (h : mint.Ledger bag past) (hspends : mint.spends ev = false) :
    mint.Ledger bag (past ++ [ev]) := by
  obtain ⟨held, source, hnodup, hheld, haccounts, hfree⟩ := h
  refine ⟨held, source, hnodup, hheld.imp (fun _ _ h => h.concat ev), haccounts.concat hspends, ?_⟩
  exact fun i ev' hat => hfree i ev' (hat.of_idle hspends)

/-- New material makes a new token. -/
theorem Ledger.minting (h : mint.Ledger bag past) {m : M} (hmints : mint.mints ev = some m)
    (hspends : mint.spends ev = false) (hmade : mint.Made m t) : mint.Ledger (t :: bag) (past ++ [ev]) := by
  obtain ⟨held, source, hnodup, hheld, haccounts, hfree⟩ := h
  have hnew : mint.MadeAt (past ++ [ev]) t past.length := ⟨ev, m, by simp, hmints, hmade⟩
  have hold : ∀ i ∈ held, i < past.length := by
    intro i hi
    obtain ⟨t', -, hfrom⟩ := hheld.exists_left hi
    exact hfrom.lt
  have hfresh : past.length ∉ held := fun hmem => Nat.lt_irrefl _ (hold _ hmem)
  refine ⟨past.length :: held, source, List.nodup_cons.mpr ⟨hfresh, hnodup⟩,
    .cons hnew (hheld.imp (fun _ _ h => h.concat ev)), haccounts.concat hspends, ?_⟩
  intro i ev' hat
  replace hat := hat.of_idle hspends
  obtain ⟨hbefore, -⟩ := haccounts.made hat
  have hsource : source i ≠ past.length := (hbefore.trans hat.lt).ne
  exact List.not_mem_cons_of_ne_of_not_mem hsource (hfree i ev' hat)

/-- Spending takes the token away. -/
theorem Ledger.spending (h : mint.Ledger (t :: bag) past) (htoken : mint.Spends t ev) :
    mint.Ledger bag (past ++ [ev]) := by
  obtain ⟨_, source, hnodup, hheld, haccounts, hfree⟩ := h
  cases hheld with
  | @cons _ n _ held hmade hheld =>
      obtain ⟨hn, hnodup⟩ := List.nodup_cons.mp hnodup
      have hfresh : ∀ i ev', mint.SpendsAt past i ev' → source i ≠ n :=
        fun i ev' hat hsource => hfree i ev' hat (hsource ▸ List.mem_cons_self)
      refine ⟨held, Function.update source past.length n, hnodup, hheld.imp (fun _ _ h => h.concat ev),
        haccounts.spending hmade htoken hfresh, ?_⟩
      intro i ev' hat
      rcases hat.of_concat with hat | ⟨rfl, -, -⟩
      · rw [Function.update_of_ne hat.lt.ne]
        exact fun hmem => hfree i ev' hat (List.mem_cons_of_mem _ hmem)
      · rwa [Function.update_self]

/-! ## Triples -/

section Triples

variable {σ ε ε' α β γ : Type} {h : Handler Op Resp σ}

/-- Holding the bag, and others a frame, the program keeps a ledger with the frame
    at every moment, and holds another bag where it returns. -/
def Triple (mint : Mint Op Resp M T) (h : Handler Op Resp σ) (bag : List T) (p : Program Op Resp ε α)
    (post : α → List T) : Prop :=
  ∀ frame (s : σ × List (Event Op Resp)), mint.Ledger (bag ++ frame) s.2 →
    p.Keeps (Program.record h some) (fun s => mint.Ledger frame s.2)
      (fun a s => mint.Ledger (post a ++ frame) s.2) s

theorem Ledger.frame (bag : List T) {frame : List T} (hl : mint.Ledger (bag ++ frame) past) :
    mint.Ledger frame past :=
  hl.subperm (List.sublist_append_right bag frame).subperm

theorem triple_done (a : α) (post : α → List T) :
    mint.Triple h (post a) (.done a : Program Op Resp ε α) post :=
  fun _ _ hl => ⟨hl.frame _, hl⟩

theorem triple_return {a : α} {post : α → List T} (hpost : post a = bag) :
    mint.Triple h bag (.done a : Program Op Resp ε α) post :=
  hpost ▸ triple_done a post

theorem triple_fail (e : ε) (bag : List T) (post : α → List T) :
    mint.Triple h bag (.fail e : Program Op Resp ε α) post :=
  fun _ _ hl => hl.frame _

theorem triple_ofExcept {x : Except ε α} {post : α → List T} (hpost : ∀ a, x = .ok a → post a = bag) :
    mint.Triple h bag (.ofExcept x : Program Op Resp ε α) post := by
  cases x with
  | ok a => exact hpost a rfl ▸ triple_done a post
  | error e => exact triple_fail e bag post

/-- Holding less before, or more after. -/
theorem Triple.weaken {p : Program Op Resp ε α} {post post' : α → List T} (hp : mint.Triple h bag p post)
    (hbag : bag.Subperm bag') (hpost : ∀ a, (post' a).Subperm (post a)) : mint.Triple h bag' p post' := by
  intro frame s hl
  have hl' := hl.subperm ((List.subperm_append_right frame).mpr hbag)
  exact (hp frame s hl').mono (fun a s hl => hl.subperm ((List.subperm_append_right frame).mpr (hpost a)))

/-- What the program does not use stays in the bag. -/
theorem Triple.framed {p : Program Op Resp ε α} {post : α → List T} (hp : mint.Triple h bag p post)
    (extra : List T) : mint.Triple h (bag ++ extra) p (fun a => post a ++ extra) := by
  intro frame s hl
  rw [List.append_assoc] at hl
  refine ((hp (extra ++ frame) s hl).weaken (fun _ hl => hl.frame _)).mono (fun a s hl => ?_)
  rwa [List.append_assoc]

theorem Triple.bind {p : Program Op Resp ε α} {f : α → Program Op Resp ε β} {mid : α → List T}
    {post : β → List T} (hp : mint.Triple h bag p mid) (hf : ∀ a, mint.Triple h (mid a) (f a) post) :
    mint.Triple h bag (p >>= f) post :=
  fun frame s hl => (hp frame s hl).bind (fun a s _ hl => hf a frame s hl)

/-- A failure loses what the program holds. -/
theorem Triple.attempt {p : Program Op Resp ε α} {post : α → List T} (hp : mint.Triple h bag p post) :
    mint.Triple h bag (p.attempt : Program Op Resp ε' (Except ε α))
      (fun r => match r with | .ok a => post a | .error _ => []) := by
  intro frame s hl
  refine (hp frame s hl).attempt_or.mono (fun r s hr => ?_)
  cases r with
  | ok a => exact hr
  | error e => exact hr

theorem Triple.foldlM {f : γ → β → Program Op Resp ε γ} {inv : γ → List T} {xs : List β}
    (hf : ∀ c, ∀ x ∈ xs, mint.Triple h (inv c) (f c x) inv) (c : γ) :
    mint.Triple h (inv c) (xs.foldlM f c) inv := by
  induction xs generalizing c with
  | nil => exact triple_done c inv
  | cons x xs ih =>
      rw [List.foldlM_cons]
      exact (hf c x List.mem_cons_self).bind
        (fun c => ih (fun c x hx => hf c x (List.mem_cons_of_mem _ hx)) c)

theorem Triple.loop {f : β → Program Op Resp ε PUnit} {xs : List β}
    (hf : ∀ x ∈ xs, mint.Triple h bag (f x) (fun _ => bag)) :
    mint.Triple h bag (xs.forM f) (fun _ => bag) := by
  induction xs with
  | nil => exact triple_done _ (fun _ => bag)
  | cons x xs ih =>
      have hcons : (x :: xs).forM f = (f x >>= fun _ => xs.forM f) := rfl
      rw [hcons]
      exact (hf x List.mem_cons_self).bind (fun _ => ih (fun x hx => hf x (List.mem_cons_of_mem _ hx)))

/-- One token for each round of a loop. -/
theorem Triple.forM {f : β → Program Op Resp ε PUnit} {token : β → T} {xs : List β}
    (hf : ∀ x ∈ xs, mint.Triple h [token x] (f x) (fun _ => [])) :
    mint.Triple h (xs.map token) (xs.forM f) (fun _ => []) := by
  induction xs with
  | nil => exact triple_done _ (fun _ => [])
  | cons x xs ih =>
      have hcons : (x :: xs).forM f = (f x >>= fun _ => xs.forM f) := rfl
      rw [hcons]
      exact ((hf x List.mem_cons_self).framed (xs.map token)).bind
        (fun _ => ih (fun x hx => hf x (List.mem_cons_of_mem _ hx)))

/-! ### Operations -/

theorem triple_idle {op : Op} (hspends : ∀ r, mint.spends ⟨op, r⟩ = false) :
    mint.Triple h [] (Program.perform op : Program Op Resp ε _) (fun _ => []) :=
  fun _ _ hl => ⟨hl, hl.idle (hspends _), hl.idle (hspends _)⟩

theorem triple_mint {op : Op} {material : Resp op → M} {token : Resp op → T}
    (hmints : ∀ r, mint.mints ⟨op, r⟩ = some (material r)) (hspends : ∀ r, mint.spends ⟨op, r⟩ = false)
    (hmade : ∀ r, mint.Made (material r) (token r)) :
    mint.Triple h [] (Program.perform op : Program Op Resp ε _) (fun r => [token r]) := by
  intro frame s hl
  have hminted := hl.minting (hmints _) (hspends _) (hmade (h op s.1).1)
  exact ⟨hl, hminted.frame [token (h op s.1).1], hminted⟩

theorem triple_spend {op : Op} {t : T}
    (htoken : ∀ r, mint.Spends t ⟨op, r⟩) :
    mint.Triple h [t] (Program.perform op : Program Op Resp ε _) (fun _ => []) := by
  intro frame s hl
  have hspent : mint.Ledger frame (Program.record h some op s).2.2 := hl.spending (htoken _)
  exact ⟨hl.frame [t], hspent, hspent⟩

/-! ### Runs -/

/-- A run continues the ledger: with what is held if it returns, and without it if
    it fails. -/
theorem Triple.ledger {p : Program Op Resp ε α} {post : α → List T} (hp : mint.Triple h bag p post)
    {frame : List T} (hl : mint.Ledger (bag ++ frame) past) (s : σ) :
    match (p.run h s).result with
    | .ok a => mint.Ledger (post a ++ frame) (past ++ (p.run h s).trace)
    | .error _ => mint.Ledger frame (past ++ (p.run h s).trace) := by
  have hkeeps := hp frame (s, past) hl
  have hlog : (p.run (Program.record h some) (s, past)).state.2 = past ++ (p.run h s).trace.filterMap some :=
    Program.run_record_log p (s, past)
  obtain ⟨-, hresult, -⟩ : _ ∧ (p.run (Program.record h some) (s, past)).result = (p.run h s).result ∧ _ :=
    Program.run_record p (s, past)
  rw [List.filterMap_some] at hlog
  rw [← hlog]
  split
  · next a ha => exact hkeeps.result (hresult.trans ha)
  · exact hkeeps.state

end Triples

end Mint
