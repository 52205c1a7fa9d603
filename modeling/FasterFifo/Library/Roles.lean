import FasterFifo.Library.Mutex

/-! Threads that keep to an assignment of calls, and so do their requests. A signal to a condition
on which one thread alone may wait wakes that thread. -/
namespace Monitor
open Transition

variable {T σ κ ι π γ ρ ε : Type*}

/-- The call that a section belongs to. -/
structure Belongs (P : Program σ κ ι π γ ρ ε) (call : Start ι π → ι) : Prop where
  enter : ∀ c, call (.enter c) = c
  waiting : ∀ {start clock s o p}, P.body start clock s = .ok o → o.exit = .waiting p →
    call (.resume p) = call start

/-- The call entered, if one is, is assigned to the thread. -/
def Label.Keeps (A : T → ι → Prop) : Label T ι γ σ κ π ρ → Prop
  | .crit t (.enter c) _ _ _ => A t c
  | _ => True

/-- Every request is that of an assigned call. -/
def World.Keeps (call : Start ι π → ι) (A : T → ι → Prop) (w : World T σ π) : Prop :=
  ∀ t p, w.Pending t p → A t (call (.resume p))

variable {P : Program σ κ ι π γ ρ ε} {call : Start ι π → ι} {A : T → ι → Prop} {w w' : World T σ π}
  {t : T} {start : Start ι π} {clock : γ} {o : Outcome σ κ π ρ} {pick : Option T}

theorem World.Keeps.begins (h : w.Keeps call A) (hcall : Belongs P call)
    (hphase : w.phase t = start.phase)
    (he : (Label.crit t start clock o pick : Label T ι γ σ κ π ρ).Keeps A) :
    A t (call start) := by
  cases start with
  | enter c =>
      rw [hcall.enter]
      exact he
  | resume p => exact h t p (.inr hphase)

variable [DecidableEq T]

theorem World.Keeps.step (h : w.Keeps call A) (hcall : Belongs P call)
    {e : Label T ι γ σ κ π ρ} (he : e.Keeps A) (hstep : Step P w e w') : w'.Keeps call A := by
  intro u p hu
  cases e with
  | wake t => exact h u p (hstep.wake_pending hu)
  | crit t start clock o pick =>
      rcases hstep.pending hu with ⟨-, hold⟩ | ⟨rfl, hnew⟩
      · exact h u p hold
      · obtain ⟨hphase, hbody, -⟩ := hstep.crit_inv
        rw [hcall.waiting hbody hnew]
        exact h.begins hcall hphase he

/-- A signal to a condition on which one thread alone may wait wakes that thread. -/
theorem Step.wakes_only [DecidableEq κ] {k : κ} {x : T}
    (h : Step P w (.crit t start clock o pick) w') (hk : o.signalled = some k)
    (hx : (w.phase x).asleepOn P.cond k = true)
    (honly : ∀ u p, w'.Pending u p → P.cond p = k → u = x) :
    (w'.phase x).wokenOn P.cond k = true := by
  obtain ⟨v, -, hv⟩ := h.wakes_one hk hx
  obtain ⟨p, hp, hcond⟩ := wokenOn_iff.mp hv
  rw [← honly v p (.inr hp) hcond]
  exact hv

section Small
variable {ν : Type*} {C : Code ν σ κ ι π γ ρ ε} {B : Account ν σ κ π ρ ε} {v : World T σ π}
  {l l' : Locked T σ ι π γ ν}

/-- The call whose section takes the mutex, if it is entered, is assigned to the thread. -/
def Tick.Keeps (A : T → ι → Prop) : Tick T ι γ σ κ π ρ → Prop
  | .lock t (.enter c) _ => A t c
  | _ => True

/-- Every request, and the section in progress, is that of an assigned call. -/
structure Locked.Keeps (call : Start ι π → ι) (A : T → ι → Prop) (l : Locked T σ ι π γ ν) :
    Prop where
  pending : ∀ t p, l.phase t = .asleep p ∨ l.phase t = .woken p → A t (call (.resume p))
  held : ∀ h, l.holder = some h → A h.thread (call h.start)

theorem Locked.Keeps.unlock (hl : l.Keeps call A) (hcall : Belongs P call)
    (hC : Implements C P B) (hv : Mirrors P B v l) {h : Holder T ι π γ ν}
    (hholds : l.holder = some h) (hrelease : C.advance h.point l.shared = .ok (.release o)) :
    (⟨o.shared, Function.update l.phase h.thread o.exit.phase, none⟩ :
      Locked T σ ι π γ ν).Keeps call A where
  pending := by
    intro t p ht
    dsimp only at ht
    rcases eq_or_ne t h.thread with rfl | hne
    · rw [Function.update_self] at ht
      have hbody := (hv.unlock hC hholds hrelease).crit_inv.2.1
      cases hx : o.exit with
      | returned r => rw [hx] at ht; rcases ht with ht | ht <;> cases ht
      | waiting q =>
          rw [hx] at ht
          rcases ht with ht | ht <;> cases ht
          rw [hcall.waiting hbody hx]
          exact hl.held h hholds
    · rw [Function.update_of_ne hne] at ht
      exact hl.pending t p ht
  held := by rintro h ⟨⟩

theorem Locked.Keeps.wake (hl : l.Keeps call A) {p : π} (hasleep : l.phase t = .asleep p) :
    { l with phase := Function.update l.phase t (.woken p) }.Keeps call A where
  pending := by
    intro u q hu
    dsimp only at hu
    rcases eq_or_ne u t with rfl | hne
    · rw [Function.update_self] at hu
      rcases hu with hu | hu <;> cases hu
      exact hl.pending u p (.inl hasleep)
    · rw [Function.update_of_ne hne] at hu
      exact hl.pending u q hu
  held := hl.held

theorem Locked.Keeps.step (hl : l.Keeps call A) (hcall : Belongs P call)
    (hC : Implements C P B) (hv : Mirrors P B v l) {e : Tick T ι γ σ κ π ρ}
    (he : e.Keeps A) (hstep : FineStep C l e l') : l'.Keeps call A := by
  cases hstep with
  | @lock t start clock hfree hphase =>
      refine ⟨hl.pending, ?_⟩
      rintro h ⟨⟩
      cases start with
      | enter c =>
          rw [hcall.enter]
          exact he
      | resume p => exact hl.pending t p (.inr hphase)
  | @advance h n s hholds hmore =>
      refine ⟨hl.pending, ?_⟩
      rintro h' ⟨⟩
      exact hl.held h hholds
  | @signal h k n pick g hholds hsignal hwakes =>
      refine ⟨fun t p ht => hl.pending t p (hwakes.pending ht), ?_⟩
      rintro h' ⟨⟩
      exact hl.held h hholds
  | unlock hholds hrelease => exact hl.unlock hcall hC hv hholds hrelease
  | wake hasleep => exact hl.wake hasleep

end Small

end Monitor
