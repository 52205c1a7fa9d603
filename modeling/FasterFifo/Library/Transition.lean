import Mathlib.Data.List.Chain

/-! Traces of a labelled transition relation, with the states before and after every step.
Invariants, history properties and simulations are each proved once, by induction on the trace. -/
namespace Transition
variable {σ ℓ τ κ : Type*}

structure Move (σ ℓ : Type*) where
  pre : σ
  label : ℓ
  post : σ

inductive Trace (step : σ → ℓ → σ → Prop) (s : σ) : List (Move σ ℓ) → σ → Prop
  | nil : Trace step s [] s
  | snoc {t u : σ} {moves : List (Move σ ℓ)} {l : ℓ} :
      Trace step s moves t → step t l u → Trace step s (moves ++ [⟨t, l, u⟩]) u

/-- The states a trace passes through, its first one included. -/
def visited (s : σ) (moves : List (Move σ ℓ)) : List σ := s :: moves.map Move.post

variable {step : σ → ℓ → σ → Prop} {s t u : σ} {moves : List (Move σ ℓ)}

theorem Trace.single {l : ℓ} (h : step s l t) : Trace step s [⟨s, l, t⟩] t :=
  show Trace step s ([] ++ [⟨s, l, t⟩]) t from .snoc .nil h

theorem Trace.append {more : List (Move σ ℓ)} (h : Trace step s moves t)
    (k : Trace step t more u) : Trace step s (moves ++ more) u := by
  induction k with
  | nil => simpa using h
  | snoc _ hstep ih =>
      rw [← List.append_assoc]
      exact .snoc ih hstep

theorem Trace.mem_visited (h : Trace step s moves t) : t ∈ visited s moves := by
  cases h with
  | nil => exact List.mem_cons_self
  | snoc htr hstep => simp [visited]

theorem Trace.split (h : Trace step s moves u) {before after : List (Move σ ℓ)} {m : Move σ ℓ}
    (he : moves = before ++ m :: after) :
    Trace step s before m.pre ∧ step m.pre m.label m.post ∧ Trace step m.post after u := by
  induction h generalizing after with
  | nil => simp at he
  | snoc htr hstep ih =>
      rcases List.eq_nil_or_concat after with rfl | ⟨after, m', rfl⟩
      · obtain ⟨rfl, hlast⟩ := List.append_inj' he rfl
        cases hlast
        exact ⟨htr, hstep, .nil⟩
      · rw [List.concat_eq_append, ← List.cons_append, ← List.append_assoc] at he
        obtain ⟨rfl, hlast⟩ := List.append_inj' he rfl
        cases hlast
        obtain ⟨hbefore, hmove, hafter⟩ := ih rfl
        rw [List.concat_eq_append]
        exact ⟨hbefore, hmove, hafter.snoc hstep⟩

theorem Trace.of_mem (h : Trace step s moves t) {m : Move σ ℓ} (hm : m ∈ moves) :
    ∃ before after, moves = before ++ m :: after ∧ Trace step s before m.pre ∧
      step m.pre m.label m.post := by
  obtain ⟨before, after, he⟩ := List.append_of_mem hm
  obtain ⟨hbefore, hmove, -⟩ := h.split he
  exact ⟨before, after, he, hbefore, hmove⟩

theorem forall_before {P : Move σ ℓ → Prop} {before after : List (Move σ ℓ)} {m : Move σ ℓ}
    (h : ∀ x ∈ moves, P x) (he : moves = before ++ m :: after) : (∀ x ∈ before, P x) ∧ P m := by
  subst he
  exact ⟨fun x hx => h x (List.mem_append_left _ hx),
    h m (List.mem_append_right _ List.mem_cons_self)⟩

/-- What holds at first and is kept by every move that meets `Good` holds at the end. -/
theorem Trace.invariant {I : σ → Prop} {Good : Move σ ℓ → Prop}
    (hstep : ∀ m, Good m → step m.pre m.label m.post → I m.pre → I m.post)
    (h : Trace step s moves t) (good : ∀ m ∈ moves, Good m) (h0 : I s) : I t := by
  induction h with
  | nil => exact h0
  | @snoc t u moves l htr hl ih =>
      have hpre := ih (fun m hm => good m (List.mem_append_left _ hm))
      exact hstep ⟨t, l, u⟩ (good _ (List.mem_append_right _ (List.mem_singleton.mpr rfl))) hl hpre

theorem Trace.invariant_visited {I : σ → Prop} {Good : Move σ ℓ → Prop}
    (hstep : ∀ m, Good m → step m.pre m.label m.post → I m.pre → I m.post)
    (h : Trace step s moves t) (good : ∀ m ∈ moves, Good m) (h0 : I s) :
    ∀ v ∈ visited s moves, I v := by
  intro v hv
  rcases List.mem_cons.mp hv with rfl | hv
  · exact h0
  · obtain ⟨m, hm, rfl⟩ := List.mem_map.mp hv
    obtain ⟨before, after, he, hb, hs⟩ := h.of_mem hm
    have hgood := forall_before good he
    exact hstep m hgood.2 hs (hb.invariant hstep hgood.1 h0)

theorem Trace.last_visited (h : Trace step s moves t) : (visited s moves).getLast? = some t := by
  cases h with
  | nil => rfl
  | snoc htr hstep =>
      rw [visited, List.map_append, List.map_singleton, ← List.cons_append, List.getLast?_concat]

/-- A transitive relation that every move respects orders all the states a trace passes through. -/
theorem Trace.ordered {R : σ → σ → Prop} (htrans : ∀ a b c, R a b → R b c → R a c)
    (h : Trace step s moves t) (hmoves : ∀ m ∈ moves, R m.pre m.post) :
    (visited s moves).Pairwise R := by
  have : IsTrans σ R := ⟨htrans⟩
  rw [← List.isChain_iff_pairwise]
  induction h with
  | nil => exact .singleton s
  | @snoc t u moves l htr hl ih =>
      have hpre := ih fun m hm => hmoves m (List.mem_append_left _ hm)
      rw [visited, List.map_append, List.map_singleton, ← List.cons_append]
      refine hpre.append (.singleton u) ?_
      intro x hx y hy
      rw [htr.last_visited] at hx
      cases hx
      cases hy
      exact hmoves ⟨t, l, u⟩ (List.mem_append_right _ (List.mem_singleton.mpr rfl))

theorem Trace.project {astep : τ → κ → τ → Prop} {f : σ → τ}
    {view : Move σ ℓ → List (Move τ κ)}
    (hstep : ∀ m, step m.pre m.label m.post → Trace astep (f m.pre) (view m) (f m.post))
    (h : Trace step s moves t) : Trace astep (f s) (moves.flatMap view) (f t) := by
  induction h with
  | nil => exact .nil
  | snoc _ hl ih =>
      rw [List.flatMap_append, List.flatMap_singleton]
      exact ih.append (hstep ⟨_, _, _⟩ hl)

/-- A relation that every move carries to an abstract trace with the move's view
as its labels is carried along whole traces. -/
theorem Trace.simulate {astep : τ → κ → τ → Prop} {R : σ → τ → Prop}
    {view : Move σ ℓ → List κ} {Good : Move σ ℓ → Prop}
    (hstep : ∀ m, Good m → step m.pre m.label m.post → ∀ a, R m.pre a →
      ∃ as b, Trace astep a as b ∧ as.map Move.label = view m ∧ R m.post b)
    (h : Trace step s moves t) (good : ∀ m ∈ moves, Good m) {a : τ} (h0 : R s a) :
    ∃ as b, Trace astep a as b ∧ as.map Move.label = moves.flatMap view ∧ R t b := by
  induction h with
  | nil => exact ⟨[], a, .nil, rfl, h0⟩
  | @snoc t u moves l htr hl ih =>
      obtain ⟨as, b, has, hview, hb⟩ := ih (fun m hm => good m (List.mem_append_left _ hm))
      obtain ⟨bs, c, hbs, hview', hc⟩ := hstep ⟨t, l, u⟩
        (good _ (List.mem_append_right _ (List.mem_singleton.mpr rfl))) hl b hb
      refine ⟨as ++ bs, c, has.append hbs, ?_, hc⟩
      rw [List.map_append, hview, hview', List.flatMap_append, List.flatMap_singleton]

/-- A state with the property can be reached by at most so many steps, all of them `Own`. -/
inductive Within (step : σ → ℓ → σ → Prop) (Own : ℓ → Prop) (Goal : σ → Prop) : ℕ → σ → Prop
  | now {n : ℕ} {s : σ} (h : Goal s) : Within step Own Goal n s
  | next {n : ℕ} {s t : σ} {l : ℓ} (hstep : step s l t) (hown : Own l)
      (h : Within step Own Goal n t) : Within step Own Goal (n + 1) s

theorem Within.mono {Own : ℓ → Prop} {Goal : σ → Prop} {n k : ℕ} (h : Within step Own Goal n s)
    (hk : n ≤ k) : Within step Own Goal k s := by
  induction h generalizing k with
  | now h => exact .now h
  | next hstep hown _ ih =>
      obtain ⟨j, rfl⟩ := Nat.exists_eq_add_of_le' (Nat.one_le_of_lt hk)
      exact .next hstep hown (ih (Nat.le_of_succ_le_succ hk))

theorem Within.trace {Own : ℓ → Prop} {Goal : σ → Prop} {n : ℕ} (h : Within step Own Goal n s) :
    ∃ moves t, Trace step s moves t ∧ moves.length ≤ n ∧ (∀ m ∈ moves, Own m.label) ∧ Goal t := by
  induction h with
  | now h => exact ⟨[], _, .nil, Nat.zero_le _, fun m hm => absurd hm List.not_mem_nil, h⟩
  | @next n s t l hstep hown _ ih =>
      obtain ⟨moves, u, htrace, hlen, hall, hgoal⟩ := ih
      refine ⟨⟨s, l, t⟩ :: moves, u, (Trace.single hstep).append htrace, Nat.succ_le_succ hlen, ?_,
        hgoal⟩
      intro m hm
      rcases List.mem_cons.mp hm with rfl | hm
      · exact hown
      · exact hall m hm

end Transition
