import FasterFifo.Library.Monitor
import Mathlib.Data.List.Forall2

/-! Two monitors side by side: where related sections end in related outcomes and signal alike,
every run of the first has a run of the second that takes the same turns. -/
namespace Relational
open Transition Monitor Function

structure Correspondence (σ σ' ι ι' π π' ρ ρ' : Type*) where
  shared : σ → σ' → Prop
  call : ι → ι' → Prop
  request : π → π' → Prop
  result : ρ → ρ' → Prop

variable {T σ σ' κ ι ι' π π' γ ρ ρ' ε ε' : Type*}
variable (C : Correspondence σ σ' ι ι' π π' ρ ρ')

inductive Correspondence.Phases : Phase π → Phase π' → Prop
  | idle : Correspondence.Phases .idle .idle
  | asleep {p : π} {p' : π'} (h : C.request p p') :
      Correspondence.Phases (.asleep p) (.asleep p')
  | woken {p : π} {p' : π'} (h : C.request p p') :
      Correspondence.Phases (.woken p) (.woken p')

inductive Correspondence.Starts : Start ι π → Start ι' π' → Prop
  | enter {c : ι} {c' : ι'} (h : C.call c c') : Correspondence.Starts (.enter c) (.enter c')
  | resume {p : π} {p' : π'} (h : C.request p p') :
      Correspondence.Starts (.resume p) (.resume p')

inductive Correspondence.Exits : Exit π ρ → Exit π' ρ' → Prop
  | returned {r : ρ} {r' : ρ'} (h : C.result r r') :
      Correspondence.Exits (.returned r) (.returned r')
  | waiting {p : π} {p' : π'} (h : C.request p p') :
      Correspondence.Exits (.waiting p) (.waiting p')

structure Correspondence.Outcomes (o : Outcome σ κ π ρ) (o' : Outcome σ' κ π' ρ') : Prop where
  shared : C.shared o.shared o'.shared
  signalled : o'.signalled = o.signalled
  exit : C.Exits o.exit o'.exit

/-- The same thread takes its turn, at the same time, with related code and the same wakeup. -/
inductive Correspondence.Labels : Label T ι γ σ κ π ρ → Label T ι' γ σ' κ π' ρ' → Prop
  | crit {t : T} {start : Start ι π} {start' : Start ι' π'} {clock : γ} {o : Outcome σ κ π ρ}
      {o' : Outcome σ' κ π' ρ'} {pick : Option T} (hstart : C.Starts start start')
      (hout : C.Outcomes o o') :
      Correspondence.Labels (.crit t start clock o pick) (.crit t start' clock o' pick)
  | wake {t : T} : Correspondence.Labels (.wake t) (.wake t)

structure Correspondence.Worlds (w : World T σ π) (w' : World T σ' π') : Prop where
  shared : C.shared w.shared w'.shared
  phase : ∀ t, C.Phases (w.phase t) (w'.phase t)

/-- Related sections end alike. -/
structure Correspondence.Simulates (P : Program σ κ ι π γ ρ ε) (P' : Program σ' κ ι' π' γ ρ' ε') :
    Prop where
  cond : ∀ {p p'}, C.request p p' → P'.cond p' = P.cond p
  body : ∀ {start start' clock s s' o}, C.Starts start start' → C.shared s s' →
    P.body start clock s = .ok o → ∃ o', P'.body start' clock s' = .ok o' ∧ C.Outcomes o o'

/-- The section is of the kind `Q`. -/
def Kind (Q : Start ι π → Outcome σ κ π ρ → Prop) : Label T ι γ σ κ π ρ → Prop
  | .crit _ start _ o _ => Q start o
  | .wake _ => True

/-- Related sections end alike, if the first one is of the kind `Q`. -/
structure Correspondence.SimulatesOn (Q : Start ι π → Outcome σ κ π ρ → Prop)
    (P : Program σ κ ι π γ ρ ε) (P' : Program σ' κ ι' π' γ ρ' ε') : Prop where
  cond : ∀ {p p'}, C.request p p' → P'.cond p' = P.cond p
  body : ∀ {start start' clock s s' o}, Q start o → C.Starts start start' → C.shared s s' →
    P.body start clock s = .ok o → ∃ o', P'.body start' clock s' = .ok o' ∧ C.Outcomes o o'

variable {C} {P : Program σ κ ι π γ ρ ε} {P' : Program σ' κ ι' π' γ ρ' ε'}
  {Q : Start ι π → Outcome σ κ π ρ → Prop}
  {w v : World T σ π} {w' : World T σ' π'} {f g : T → Phase π} {f' : T → Phase π'}

theorem Correspondence.Simulates.on (h : C.Simulates P P') : C.SimulatesOn (fun _ _ => True) P P' where
  cond := h.cond
  body _ := h.body

theorem Correspondence.Exits.phases {x : Exit π ρ} {x' : Exit π' ρ'} (h : C.Exits x x') :
    C.Phases x.phase x'.phase := by
  cases h with
  | returned h => exact .idle
  | waiting h => exact .asleep h

section Steps
variable [DecidableEq T]

theorem phases_update (h : ∀ t, C.Phases (f t) (f' t)) {x : Phase π} {x' : Phase π'}
    (hx : C.Phases x x') (t u : T) : C.Phases (update f t x u) (update f' t x' u) := by
  rcases eq_or_ne u t with rfl | hne
  · rw [update_self, update_self]
    exact hx
  · rw [update_of_ne hne, update_of_ne hne]
    exact h u

theorem related_signals (hcond : ∀ {p p'}, C.request p p' → P'.cond p' = P.cond p)
    (h : ∀ t, C.Phases (f t) (f' t)) {k : Option κ} {pick : Option T}
    (hsignal : Signals P.cond f k pick g) :
    ∃ g', Signals P'.cond f' k pick g' ∧ ∀ t, C.Phases (g t) (g' t) := by
  cases hsignal with
  | silent => exact ⟨f', .silent, h⟩
  | lost k hk =>
      refine ⟨f', .lost k ?_, h⟩
      intro t p' hp'
      have ht := h t
      rw [hp'] at ht
      generalize hp : f t = x at ht
      cases ht with
      | asleep hr =>
          rw [hcond hr]
          exact hk t _ hp
  | wakes t p hp =>
      have ht := h t
      rw [hp] at ht
      generalize hp' : f' t = x at ht
      cases ht with
      | asleep hr =>
          rw [← hcond hr]
          exact ⟨_, .wakes t _ hp', phases_update h (.woken hr) t⟩

omit [DecidableEq T] in
theorem related_start (h : C.Worlds w w') {t : T} {start : Start ι π}
    (hphase : w.phase t = start.phase) (hcall : ∀ c, start = .enter c → ∃ c', C.call c c') :
    ∃ start', C.Starts start start' ∧ w'.phase t = start'.phase := by
  have ht := h.phase t
  cases start with
  | enter c =>
      obtain ⟨c', hc⟩ := hcall c rfl
      rw [show w.phase t = .idle from hphase] at ht
      generalize hx : w'.phase t = x at ht
      cases ht
      exact ⟨.enter c', .enter hc, rfl⟩
  | resume p =>
      rw [show w.phase t = .woken p from hphase] at ht
      generalize hx : w'.phase t = x at ht
      cases ht with
      | woken hr => exact ⟨.resume _, .resume hr, rfl⟩

/-- The calls that are entered have a counterpart. -/
def Correspondence.Covers (C : Correspondence σ σ' ι ι' π π' ρ ρ') : Label T ι γ σ κ π ρ → Prop
  | .crit _ (.enter c) _ _ _ => ∃ c', C.call c c'
  | _ => True

theorem related_step (hsim : C.SimulatesOn Q P P') (h : C.Worlds w w') {e : Label T ι γ σ κ π ρ}
    (hkind : Kind Q e) (hcover : C.Covers e) (hstep : Step P w e v) :
    ∃ e' v', Step P' w' e' v' ∧ C.Labels e e' ∧ C.Worlds v v' := by
  cases hstep with
  | @crit t start clock o pick g hphase hbody hsignal =>
      have hcall : ∀ c, start = .enter c → ∃ c', C.call c c' := by
        rintro c rfl
        exact hcover
      obtain ⟨start', hstart, hphase'⟩ := related_start h hphase hcall
      obtain ⟨o', hbody', hout⟩ := hsim.body hkind hstart h.shared hbody
      obtain ⟨g', hsignal', hg⟩ := related_signals hsim.cond h.phase hsignal
      rw [← hout.signalled] at hsignal'
      refine ⟨_, _, .crit hphase' hbody' hsignal', .crit hstart hout, hout.shared, ?_⟩
      exact fun u => phases_update hg hout.exit.phases t u
  | @wake t p hp =>
      have ht := h.phase t
      rw [hp] at ht
      generalize hx : w'.phase t = x at ht
      cases ht with
      | asleep hr =>
          refine ⟨_, _, .wake hx, .wake, h.shared, ?_⟩
          exact fun u => phases_update h.phase (.woken hr) t u

omit [DecidableEq T] in
theorem forall_right {α β : Type*} {R : α → β → Prop} {Q : β → Prop} (h : ∀ a b, R a b → Q b)
    {xs : List α} {ys : List β} (hxs : List.Forall₂ R xs ys) : ∀ y ∈ ys, Q y := by
  induction hxs with
  | nil => simp
  | cons hab _ ih =>
      intro y hy
      rcases List.mem_cons.mp hy with rfl | hy
      · exact h _ _ hab
      · exact ih y hy

/-- Every run of sections of the kind has a related run with the same turns. -/
theorem related_run_on (hsim : C.SimulatesOn Q P P')
    {moves : List (Move (World T σ π) (Label T ι γ σ κ π ρ))} (htrace : Trace (Step P) w moves v)
    (hkind : ∀ m ∈ moves, Kind Q m.label) (hcover : ∀ m ∈ moves, C.Covers m.label)
    (h : C.Worlds w w') :
    ∃ moves' v', Trace (Step P') w' moves' v' ∧
      List.Forall₂ (fun m m' => C.Labels m.label m'.label) moves moves' ∧ C.Worlds v v' := by
  induction htrace with
  | nil => exact ⟨[], w', .nil, .nil, h⟩
  | @snoc u v moves e htr hstep ih =>
      obtain ⟨moves', u', htr', hlabels, hu⟩ := ih (fun m hm => hkind m (List.mem_append_left _ hm))
        fun m hm => hcover m (List.mem_append_left _ hm)
      have hlast : (⟨u, e, v⟩ : Move _ _) ∈ moves ++ [⟨u, e, v⟩] :=
        List.mem_append_right _ List.mem_cons_self
      obtain ⟨e', v', hstep', hlabel, hv⟩ :=
        related_step hsim hu (hkind _ hlast) (hcover _ hlast) hstep
      refine ⟨moves' ++ [⟨u', e', v'⟩], v', htr'.snoc hstep', ?_, hv⟩
      exact List.rel_append hlabels (.cons hlabel .nil)

theorem related_run (hsim : C.Simulates P P')
    {moves : List (Move (World T σ π) (Label T ι γ σ κ π ρ))} (htrace : Trace (Step P) w moves v)
    (hcover : ∀ m ∈ moves, C.Covers m.label) (h : C.Worlds w w') :
    ∃ moves' v', Trace (Step P') w' moves' v' ∧
      List.Forall₂ (fun m m' => C.Labels m.label m'.label) moves moves' ∧ C.Worlds v v' := by
  refine related_run_on hsim.on htrace ?_ hcover h
  intro m _
  cases m.label <;> trivial

end Steps
end Relational
