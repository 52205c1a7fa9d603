import FasterFifo.Library.Census
import FasterFifo.Library.Transition

/-! Monitors with condition variables. A section runs from taking the mutex to giving it up and
signals one condition at most; a waiting thread sleeps until a signal, its timeout or a spurious
wakeup. -/
namespace Monitor
open Transition Census Function

inductive Phase (π : Type*) where
  | idle
  | asleep (p : π)
  | woken (p : π)
  deriving DecidableEq

inductive Start (ι π : Type*) where
  | enter (c : ι)
  | resume (p : π)
  deriving DecidableEq

inductive Exit (π ρ : Type*) where
  | returned (r : ρ)
  | waiting (p : π)
  deriving DecidableEq

/-- What a section does: the state it leaves, the condition it signals, how it ends. -/
structure Outcome (σ κ π ρ : Type*) where
  shared : σ
  signalled : Option κ
  exit : Exit π ρ
  deriving DecidableEq

/-- The code of the sections; `cond` is the condition that a waiting request waits on. -/
structure Program (σ κ ι π γ ρ ε : Type*) where
  cond : π → κ
  body : Start ι π → γ → σ → Except ε (Outcome σ κ π ρ)

structure World (T σ π : Type*) where
  shared : σ
  phase : T → Phase π

inductive Label (T ι γ σ κ π ρ : Type*) where
  | crit (t : T) (start : Start ι π) (clock : γ) (o : Outcome σ κ π ρ) (pick : Option T)
  | wake (t : T)

variable {T σ κ ι π γ ρ ε : Type*}

def Start.phase : Start ι π → Phase π
  | .enter _ => .idle
  | .resume p => .woken p

def Exit.phase : Exit π ρ → Phase π
  | .returned _ => .idle
  | .waiting p => .asleep p

section Predicates
variable [DecidableEq κ] (cond : π → κ) (k : κ)

def Phase.isWoken : Phase π → Bool
  | .woken _ => true
  | _ => false

def Phase.asleepOn : Phase π → Bool
  | .asleep p => decide (cond p = k)
  | _ => false

def Phase.wokenOn : Phase π → Bool
  | .woken p => decide (cond p = k)
  | _ => false

/-- The thread is inside a wait on `k`, whether or not it has been woken. -/
def Phase.waitsOn (x : Phase π) : Bool := x.asleepOn cond k || x.wokenOn cond k

@[simp] theorem waitsOn_idle : (Phase.idle : Phase π).waitsOn cond k = false := rfl

@[simp] theorem waitsOn_asleep (p : π) : (Phase.asleep p).waitsOn cond k = decide (cond p = k) :=
  Bool.or_false _

@[simp] theorem waitsOn_woken (p : π) : (Phase.woken p).waitsOn cond k = decide (cond p = k) :=
  Bool.false_or _

variable {cond k} {x : Phase π}

theorem asleepOn_iff : x.asleepOn cond k = true ↔ ∃ p, x = .asleep p ∧ cond p = k := by
  cases x <;> simp [Phase.asleepOn]

theorem wokenOn_iff : x.wokenOn cond k = true ↔ ∃ p, x = .woken p ∧ cond p = k := by
  cases x <;> simp [Phase.wokenOn]

theorem waitsOn_of_asleepOn (h : x.asleepOn cond k = true) : x.waitsOn cond k = true := by
  rw [Phase.waitsOn, h, Bool.true_or]

theorem isWoken_iff : x.isWoken = true ↔ ∃ p, x = .woken p := by
  cases x <;> simp [Phase.isWoken]

theorem isWoken_of_wokenOn (h : x.wokenOn cond k = true) : x.isWoken = true := by
  obtain ⟨p, rfl, -⟩ := wokenOn_iff.mp h
  rfl

end Predicates

variable [DecidableEq T]

/-- The effect of a signal: `pick` is the thread that leaves the wait set, if it has any. -/
inductive Signals (cond : π → κ) (f : T → Phase π) : Option κ → Option T → (T → Phase π) → Prop
  | silent : Signals cond f none none f
  | lost (k : κ) (h : ∀ t p, f t = .asleep p → cond p ≠ k) : Signals cond f (some k) none f
  | wakes (t : T) (p : π) (h : f t = .asleep p) :
      Signals cond f (some (cond p)) (some t) (update f t (.woken p))

inductive Step (P : Program σ κ ι π γ ρ ε) :
    World T σ π → Label T ι γ σ κ π ρ → World T σ π → Prop
  | crit {w : World T σ π} {t : T} {start : Start ι π} {clock : γ} {o : Outcome σ κ π ρ}
      {pick : Option T} {g : T → Phase π} (hphase : w.phase t = start.phase)
      (hbody : P.body start clock w.shared = .ok o)
      (hsignal : Signals P.cond w.phase o.signalled pick g) :
      Step P w (.crit t start clock o pick) ⟨o.shared, update g t o.exit.phase⟩
  | wake {w : World T σ π} {t : T} {p : π} (h : w.phase t = .asleep p) :
      Step P w (.wake t) { w with phase := update w.phase t (.woken p) }

section Signals
variable {cond : π → κ} {f g : T → Phase π} {k : Option κ} {pick : Option T}

theorem Signals.keeps (h : Signals cond f k pick g) {t : T} (ht : ∀ p, f t ≠ .asleep p) :
    g t = f t := by
  cases h with
  | silent => rfl
  | lost k hk => rfl
  | wakes u p hu =>
      have hne : t ≠ u := fun he => ht p (he ▸ hu)
      exact update_of_ne hne _ _

theorem Signals.asleep (h : Signals cond f k pick g) {t : T} {p : π} (ht : g t = .asleep p) :
    f t = .asleep p := by
  cases h with
  | silent => exact ht
  | lost k hk => exact ht
  | wakes u q hu =>
      rcases eq_or_ne t u with rfl | hne
      · rw [update_self] at ht
        cases ht
      · rwa [update_of_ne hne] at ht

theorem Signals.sleeps_on (h : Signals cond f k pick g) {t : T} {p : π} (ht : f t = .asleep p)
    (hk : k ≠ some (cond p)) : g t = .asleep p := by
  cases h with
  | silent => exact ht
  | lost k hk => exact ht
  | wakes u q hu =>
      have hne : t ≠ u := by
        rintro rfl
        rw [ht] at hu
        cases hu
        exact hk rfl
      rw [update_of_ne hne, ht]

theorem Signals.woken (h : Signals cond f k pick g) {t : T} {p : π} (ht : g t = .woken p) :
    f t = .woken p ∨ f t = .asleep p ∧ k = some (cond p) := by
  cases h with
  | silent => exact .inl ht
  | lost k hk => exact .inl ht
  | wakes u q hu =>
      rcases eq_or_ne t u with rfl | hne
      · rw [update_self] at ht
        cases ht
        exact .inr ⟨hu, rfl⟩
      · rw [update_of_ne hne] at ht
        exact .inl ht

theorem Signals.silent_inv (h : Signals cond f none pick g) : pick = none ∧ g = f := by
  cases h with
  | silent => exact ⟨rfl, rfl⟩

/-- A thread that wakes by itself after a signal might as well have done so before it. -/
theorem Signals.wake (h : Signals cond f k pick g) {t : T} {p : π} (ht : g t = .asleep p) :
    Signals cond (update f t (.woken p)) k pick (update g t (.woken p)) := by
  cases h with
  | silent => exact .silent
  | lost k hk =>
      refine .lost k ?_
      intro u q hu
      rcases eq_or_ne u t with rfl | hne
      · rw [update_self] at hu
        cases hu
      · rw [update_of_ne hne] at hu
        exact hk u q hu
  | wakes u q hu =>
      have hne : u ≠ t := by
        rintro rfl
        rw [update_self] at ht
        cases ht
      rw [update_comm hne]
      exact .wakes u q ((update_of_ne hne _ _).trans hu)

theorem Signals.wakes_one [DecidableEq κ] {c : κ} (h : Signals cond f (some c) pick g) {t : T}
    (ht : (f t).asleepOn cond c = true) :
    ∃ u, (f u).asleepOn cond c = true ∧ (g u).wokenOn cond c = true := by
  cases h with
  | lost k hl =>
      obtain ⟨p, hp, hc⟩ := asleepOn_iff.mp ht
      exact absurd hc (hl t p hp)
  | wakes u q hu =>
      exact ⟨u, asleepOn_iff.mpr ⟨q, hu, rfl⟩, wokenOn_iff.mpr ⟨q, update_self _ _ _, rfl⟩⟩

theorem Signals.waitsOn [DecidableEq κ] (h : Signals cond f k pick g) (c : κ) (t : T) :
    (g t).waitsOn cond c = (f t).waitsOn cond c := by
  cases h with
  | silent => rfl
  | lost k hk => rfl
  | wakes u q hu =>
      rcases eq_or_ne t u with rfl | hne
      · rw [update_self, hu, waitsOn_woken, waitsOn_asleep]
      · rw [update_of_ne hne]

end Signals

section Steps
variable {P : Program σ κ ι π γ ρ ε} {w w' : World T σ π} {t u : T} {start : Start ι π}
  {clock : γ} {o : Outcome σ κ π ρ} {pick : Option T} {p : π}

theorem start_ne_asleep (start : Start ι π) (p : π) : start.phase ≠ .asleep p := by
  cases start <;> simp [Start.phase]

theorem Step.crit_inv (h : Step P w (.crit t start clock o pick) w') :
    w.phase t = start.phase ∧ P.body start clock w.shared = .ok o ∧ w'.shared = o.shared ∧
      w'.phase t = o.exit.phase := by
  cases h with
  | crit hphase hbody _ => exact ⟨hphase, hbody, rfl, update_self _ _ _⟩

/-- Every signal has an effect. -/
theorem exists_signals (cond : π → κ) (f : T → Phase π) (k : Option κ) :
    ∃ pick g, Signals cond f k pick g := by
  cases k with
  | none => exact ⟨none, f, .silent⟩
  | some c =>
      by_cases h : ∀ t p, f t = .asleep p → cond p ≠ c
      · exact ⟨none, f, .lost c h⟩
      · push Not at h
        obtain ⟨t, p, ht, rfl⟩ := h
        exact ⟨some t, _, .wakes t p ht⟩

/-- A section that runs to its end is a step of its thread. -/
theorem exists_step (hphase : w.phase t = start.phase)
    (hbody : P.body start clock w.shared = .ok o) : ∃ pick w', Step P w (.crit t start clock o pick) w' := by
  obtain ⟨pick, g, hsignal⟩ := exists_signals P.cond w.phase o.signalled
  exact ⟨pick, _, .crit hphase hbody hsignal⟩

theorem Step.others (h : Step P w (.crit t start clock o pick) w') :
    ∃ g, Signals P.cond w.phase o.signalled pick g ∧ ∀ u, u ≠ t → w'.phase u = g u := by
  cases h with
  | crit _ _ hsignal => exact ⟨_, hsignal, fun u hu => update_of_ne hu _ _⟩

theorem Step.asleep (h : Step P w (.crit t start clock o pick) w') (hne : u ≠ t)
    (hu : w'.phase u = .asleep p) : w.phase u = .asleep p := by
  obtain ⟨g, hsignal, hg⟩ := h.others
  rw [hg u hne] at hu
  exact hsignal.asleep hu

theorem Step.keeps (h : Step P w (.crit t start clock o pick) w') (hne : u ≠ t)
    (hu : ∀ p, w.phase u ≠ .asleep p) : w'.phase u = w.phase u := by
  obtain ⟨g, hsignal, hg⟩ := h.others
  rw [hg u hne, hsignal.keeps hu]

theorem Step.isWoken (h : Step P w (.crit t start clock o pick) w') (hne : u ≠ t)
    (hu : (w.phase u).isWoken = true) : (w'.phase u).isWoken = true := by
  rwa [h.keeps hne fun p hp => by rw [hp] at hu; cases hu]

theorem Step.silent (h : Step P w (.crit t start clock o pick) w') (hk : o.signalled = none)
    (hne : u ≠ t) : w'.phase u = w.phase u := by
  obtain ⟨g, hsignal, hg⟩ := h.others
  rw [hg u hne]
  rw [hk] at hsignal
  cases hsignal
  rfl

theorem Step.sleeps_on (h : Step P w (.crit t start clock o pick) w') (hne : u ≠ t)
    (hu : w.phase u = .asleep p) (hk : o.signalled ≠ some (P.cond p)) : w'.phase u = .asleep p := by
  obtain ⟨g, hsignal, hg⟩ := h.others
  rw [hg u hne]
  exact hsignal.sleeps_on hu hk

theorem Step.woken_before (h : Step P w (.crit t start clock o pick) w') (hne : u ≠ t)
    (hu : w'.phase u = .woken p) :
    w.phase u = .woken p ∨ w.phase u = .asleep p ∧ o.signalled = some (P.cond p) := by
  obtain ⟨g, hsignal, hg⟩ := h.others
  rw [hg u hne] at hu
  exact hsignal.woken hu

theorem Step.wake_inv (h : Step P w (.wake t) w') :
    w'.shared = w.shared ∧
      ∃ p, w.phase t = .asleep p ∧ w'.phase = update w.phase t (.woken p) := by
  cases h with
  | wake ht => exact ⟨rfl, _, ht, rfl⟩

theorem Step.wake_asleep (h : Step P w (.wake t) w') (hu : w'.phase u = .asleep p) :
    w.phase u = .asleep p := by
  obtain ⟨-, q, ht, hw⟩ := h.wake_inv
  rcases eq_or_ne u t with rfl | hne
  · rw [hw, update_self] at hu
    cases hu
  · rwa [hw, update_of_ne hne] at hu

theorem Step.wake_self (h : Step P w (.wake t) w') :
    ∃ p, w.phase t = .asleep p ∧ w'.phase t = .woken p := by
  obtain ⟨-, p, ht, hw⟩ := h.wake_inv
  exact ⟨p, ht, by rw [hw, update_self]⟩

theorem Step.wake_keeps (h : Step P w (.wake t) w') (hu : ∀ p, w.phase u ≠ .asleep p) :
    w'.phase u = w.phase u := by
  obtain ⟨-, q, ht, hw⟩ := h.wake_inv
  have hne : u ≠ t := by
    rintro rfl
    exact hu q ht
  rw [hw, update_of_ne hne]

/-- The request of a thread inside a call. -/
def World.Pending (w : World T σ π) (t : T) (p : π) : Prop :=
  w.phase t = .asleep p ∨ w.phase t = .woken p

theorem Signals.pending {cond : π → κ} {f g : T → Phase π} {k : Option κ}
    (h : Signals cond f k pick g) (hu : g u = .asleep p ∨ g u = .woken p) :
    f u = .asleep p ∨ f u = .woken p := by
  cases h with
  | silent => exact hu
  | lost k hk => exact hu
  | wakes v q hv =>
      rcases eq_or_ne u v with rfl | hne
      · rw [update_self] at hu
        rcases hu with hu | hu <;> cases hu
        exact .inl hv
      · rwa [update_of_ne hne] at hu

/-- Requests are added by the waits of a section and by nothing else. -/
theorem Step.pending (h : Step P w (.crit t start clock o pick) w') (hu : w'.Pending u p) :
    u ≠ t ∧ w.Pending u p ∨ u = t ∧ o.exit = .waiting p := by
  rcases eq_or_ne u t with rfl | hne
  · refine .inr ⟨rfl, ?_⟩
    rw [World.Pending, h.crit_inv.2.2.2] at hu
    cases hx : o.exit with
    | returned r => rw [hx] at hu; rcases hu with hu | hu <;> cases hu
    | waiting q => rw [hx] at hu; rcases hu with hu | hu <;> cases hu; rfl
  · obtain ⟨g, hsignal, hg⟩ := h.others
    rw [World.Pending, hg u hne] at hu
    exact .inl ⟨hne, hsignal.pending hu⟩

theorem Step.wake_pending (h : Step P w (.wake t) w') (hu : w'.Pending u p) : w.Pending u p := by
  obtain ⟨-, q, ht, hw⟩ := h.wake_inv
  rcases eq_or_ne u t with rfl | hne
  · rw [World.Pending, hw, update_self] at hu
    rcases hu with hu | hu <;> cases hu
    exact .inl ht
  · rwa [World.Pending, hw, update_of_ne hne] at hu

theorem Signals.keeps_pending {cond : π → κ} {f g : T → Phase π} {k : Option κ}
    (h : Signals cond f k pick g) (hu : f u = .asleep p ∨ f u = .woken p) :
    g u = .asleep p ∨ g u = .woken p := by
  cases h with
  | silent => exact hu
  | lost k hk => exact hu
  | wakes v q hv =>
      rcases eq_or_ne u v with rfl | hne
      · rw [hv] at hu
        rcases hu with hu | hu <;> cases hu
        exact .inr (update_self _ _ _)
      · rwa [update_of_ne hne]

theorem Step.keeps_pending (h : Step P w (.crit t start clock o pick) w') (hne : u ≠ t)
    (hu : w.Pending u p) : w'.Pending u p := by
  obtain ⟨g, hsignal, hg⟩ := h.others
  rw [World.Pending, hg u hne]
  exact hsignal.keeps_pending hu

theorem Step.wake_keeps_pending (h : Step P w (.wake t) w') (hu : w.Pending u p) :
    w'.Pending u p := by
  obtain ⟨-, q, ht, hw⟩ := h.wake_inv
  rcases eq_or_ne u t with rfl | hne
  · rw [World.Pending, ht] at hu
    rcases hu with hu | hu <;> cases hu
    exact .inr (by rw [hw, update_self])
  · rwa [World.Pending, hw, update_of_ne hne]

section Handing
variable [DecidableEq κ] {k : κ}

theorem Step.wokenOn (h : Step P w (.crit t start clock o pick) w') (hne : u ≠ t)
    (hu : (w.phase u).wokenOn P.cond k = true) : (w'.phase u).wokenOn P.cond k = true := by
  rwa [h.keeps hne fun p hp => by rw [hp] at hu; cases hu]

theorem Step.asleepOn (h : Step P w (.crit t start clock o pick) w') (hne : u ≠ t)
    (hu : (w'.phase u).asleepOn P.cond k = true) : (w.phase u).asleepOn P.cond k = true := by
  obtain ⟨p, hp, hk⟩ := asleepOn_iff.mp hu
  exact asleepOn_iff.mpr ⟨p, h.asleep hne hp, hk⟩

theorem Step.waitsOn_before (h : Step P w (.crit t start clock o pick) w') (hne : u ≠ t)
    (hu : (w'.phase u).wokenOn P.cond k = true) : (w.phase u).waitsOn P.cond k = true := by
  obtain ⟨p, hp, hk⟩ := wokenOn_iff.mp hu
  rcases h.woken_before hne hp with hold | ⟨hold, -⟩
  · rw [hold, waitsOn_woken, hk, decide_eq_true rfl]
  · rw [hold, waitsOn_asleep, hk, decide_eq_true rfl]

/-- A signal to a wait set with members hands the wakeup to one of them. -/
theorem Step.wakes_one (h : Step P w (.crit t start clock o pick) w') (hk : o.signalled = some k)
    (hu : (w.phase u).asleepOn P.cond k = true) :
    ∃ v, v ≠ t ∧ (w'.phase v).wokenOn P.cond k = true := by
  obtain ⟨g, hsignal, hg⟩ := h.others
  rw [hk] at hsignal
  obtain ⟨v, hv, hwoken⟩ := hsignal.wakes_one hu
  have hne : v ≠ t := by
    rintro rfl
    obtain ⟨p, hp, -⟩ := asleepOn_iff.mp hv
    exact start_ne_asleep start p (h.crit_inv.1.symm.trans hp)
  exact ⟨v, hne, by rwa [hg v hne]⟩

theorem Step.awake_after_signal (h : Step P w (.crit t start clock o pick) w')
    (hk : o.signalled = some k) (hne : u ≠ t) (hu : (w'.phase u).waitsOn P.cond k = true) :
    ∃ v, v ≠ t ∧ (w'.phase v).wokenOn P.cond k = true := by
  rcases Bool.or_eq_true _ _ ▸ hu with hu | hu
  · exact h.wakes_one hk (h.asleepOn hne hu)
  · exact ⟨u, hne, hu⟩

end Handing
end Steps

section Counting
variable [Fintype T] [DecidableEq κ]

/-- How many threads have a request on `k`. -/
def World.waiting (cond : π → κ) (k : κ) (w : World T σ π) : ℕ :=
  census (Phase.waitsOn cond k) w.phase

variable {P : Program σ κ ι π γ ρ ε} {w w' : World T σ π} {t : T}

omit [DecidableEq T] in
theorem waiting_pos_iff (cond : π → κ) (k : κ) (w : World T σ π) :
    0 < w.waiting cond k ↔ ∃ t, (w.phase t).waitsOn cond k = true :=
  census_pos_iff _ _

/-- A section moves the count by its own thread only. -/
theorem Step.waiting {start : Start ι π} {clock : γ} {o : Outcome σ κ π ρ} {pick : Option T}
    (h : Step P w (.crit t start clock o pick) w') (k : κ) :
    w'.waiting P.cond k + (start.phase.waitsOn P.cond k).toNat =
      w.waiting P.cond k + (o.exit.phase.waitsOn P.cond k).toNat := by
  cases h with
  | crit hphase _ hsignal =>
      rename_i g _
      have hsame : census (Phase.waitsOn P.cond k) g = census (Phase.waitsOn P.cond k) w.phase :=
        Finset.sum_congr rfl fun u _ => by rw [hsignal.waitsOn]
      have hupdate := census_update (Phase.waitsOn P.cond k) g t o.exit.phase
      rw [hsignal.waitsOn, hphase, hsame] at hupdate
      exact hupdate

theorem Step.wake_waiting (h : Step P w (.wake t) w') (k : κ) :
    w'.waiting P.cond k = w.waiting P.cond k := by
  obtain ⟨-, p, ht, hw⟩ := h.wake_inv
  have hupdate := census_update (Phase.waitsOn P.cond k) w.phase t (.woken p)
  rw [ht, ← hw, waitsOn_asleep, waitsOn_woken] at hupdate
  exact Nat.add_right_cancel hupdate

end Counting

section Running
variable [Fintype T] [DecidableEq κ]

/-- What the scheduler may choose; the outcome of a section follows. -/
inductive Action (T ι γ : Type*) where
  | enter (t : T) (c : ι) (clock : γ) (pick : Option T)
  | resume (t : T) (clock : γ) (pick : Option T)
  | wake (t : T)

instance (cond : π → κ) (k : κ) (x : Phase π) : Decidable (∀ p, x = .asleep p → cond p ≠ k) :=
  match x with
  | .idle => isTrue (by simp)
  | .woken _ => isTrue (by simp)
  | .asleep p =>
      if h : cond p = k then isFalse fun hk => hk p rfl h
      else isTrue fun _ hp => by cases hp; exact h

def signal (cond : π → κ) (f : T → Phase π) : Option κ → Option T → Option (T → Phase π)
  | none, none => some f
  | some k, none => if ∀ t p, f t = .asleep p → cond p ≠ k then some f else none
  | none, some _ => none
  | some k, some t =>
      match f t with
      | .asleep p => if cond p = k then some (update f t (.woken p)) else none
      | _ => none

def Program.crit (P : Program σ κ ι π γ ρ ε) (w : World T σ π) (t : T) (start : Start ι π)
    (clock : γ) (pick : Option T) : Option (Move (World T σ π) (Label T ι γ σ κ π ρ)) :=
  match P.body start clock w.shared with
  | .error _ => none
  | .ok o => (signal P.cond w.phase o.signalled pick).map fun g =>
      ⟨w, .crit t start clock o pick, ⟨o.shared, update g t o.exit.phase⟩⟩

def Program.next (P : Program σ κ ι π γ ρ ε) (w : World T σ π) :
    Action T ι γ → Option (Move (World T σ π) (Label T ι γ σ κ π ρ))
  | .enter t c clock pick =>
      match w.phase t with
      | .idle => P.crit w t (.enter c) clock pick
      | _ => none
  | .resume t clock pick =>
      match w.phase t with
      | .woken p => P.crit w t (.resume p) clock pick
      | _ => none
  | .wake t =>
      match w.phase t with
      | .asleep p => some ⟨w, .wake t, { w with phase := update w.phase t (.woken p) }⟩
      | _ => none

/-- The moves of a schedule. -/
def Program.run (P : Program σ κ ι π γ ρ ε) (w : World T σ π) :
    List (Action T ι γ) → Option (List (Move (World T σ π) (Label T ι γ σ κ π ρ)) × World T σ π)
  | [] => some ([], w)
  | a :: as =>
      match P.next w a with
      | none => none
      | some m => (P.run m.post as).map fun r => (m :: r.1, r.2)

theorem signal_sound {cond : π → κ} {f g : T → Phase π} {k : Option κ} {pick : Option T}
    (h : signal cond f k pick = some g) : Signals cond f k pick g := by
  unfold signal at h
  split at h
  · cases h
    exact .silent
  · split at h
    · cases h
      exact .lost _ ‹_›
    · cases h
  · cases h
  · split at h
    · rename_i hf
      split at h
      · rename_i hk
        cases h
        subst hk
        exact .wakes _ _ hf
      · cases h
    · cases h

variable {P : Program σ κ ι π γ ρ ε} {w w' : World T σ π}

theorem crit_sound {t : T} {start : Start ι π} {clock : γ} {pick : Option T}
    {m : Move (World T σ π) (Label T ι γ σ κ π ρ)} (hphase : w.phase t = start.phase)
    (h : P.crit w t start clock pick = some m) : m.pre = w ∧ Step P w m.label m.post := by
  unfold Program.crit at h
  split at h
  · cases h
  · rename_i o hbody
    obtain ⟨g, hg, rfl⟩ := Option.map_eq_some_iff.mp h
    exact ⟨rfl, .crit hphase hbody (signal_sound hg)⟩

theorem crit_label {t : T} {start : Start ι π} {clock : γ} {pick : Option T}
    {m : Move (World T σ π) (Label T ι γ σ κ π ρ)} (h : P.crit w t start clock pick = some m) :
    ∃ o, m.label = .crit t start clock o pick := by
  unfold Program.crit at h
  split at h
  · cases h
  · obtain ⟨g, -, rfl⟩ := Option.map_eq_some_iff.mp h
    exact ⟨_, rfl⟩

theorem next_sound {a : Action T ι γ} {m : Move (World T σ π) (Label T ι γ σ κ π ρ)}
    (h : P.next w a = some m) : m.pre = w ∧ Step P w m.label m.post := by
  cases a with
  | enter t c clock pick =>
      simp only [Program.next] at h
      split at h
      · rename_i hphase
        exact crit_sound (show w.phase t = (Start.enter c).phase from hphase) h
      · cases h
  | resume t clock pick =>
      simp only [Program.next] at h
      split at h
      · rename_i p hphase
        exact crit_sound (show w.phase t = (Start.resume p).phase from hphase) h
      · cases h
  | wake t =>
      simp only [Program.next] at h
      split at h
      · cases h
        exact ⟨rfl, .wake ‹_›⟩
      · cases h

theorem next_enter {t : T} {c : ι} {clock : γ} {pick : Option T}
    {m : Move (World T σ π) (Label T ι γ σ κ π ρ)} (h : P.next w (.enter t c clock pick) = some m) :
    ∃ o, m.label = .crit t (.enter c) clock o pick := by
  simp only [Program.next] at h
  split at h
  · exact crit_label h
  · cases h

theorem next_resume {t : T} {clock : γ} {pick : Option T}
    {m : Move (World T σ π) (Label T ι γ σ κ π ρ)} (h : P.next w (.resume t clock pick) = some m) :
    ∃ p o, m.label = .crit t (.resume p) clock o pick := by
  simp only [Program.next] at h
  split at h
  · exact ⟨_, crit_label h⟩
  · cases h

theorem next_wake {t : T} {m : Move (World T σ π) (Label T ι γ σ κ π ρ)}
    (h : P.next w (.wake t) = some m) : m.label = .wake t := by
  simp only [Program.next] at h
  split at h
  · cases h
    rfl
  · cases h

/-- A schedule that runs is a trace. -/
theorem run_sound {as : List (Action T ι γ)}
    {moves : List (Move (World T σ π) (Label T ι γ σ κ π ρ))}
    (h : P.run w as = some (moves, w')) : Trace (Step P) w moves w' := by
  induction as generalizing w moves with
  | nil =>
      cases h
      exact .nil
  | cons a as ih =>
      simp only [Program.run] at h
      split at h
      · cases h
      · rename_i m hm
        obtain ⟨⟨moves', w''⟩, hrun, hr⟩ := Option.map_eq_some_iff.mp h
        cases hr
        obtain ⟨rfl, hstep⟩ := next_sound hm
        exact (Trace.single hstep).append (ih hrun)

theorem reach_of_run {as : List (Action T ι γ)}
    {p : List (Move (World T σ π) (Label T ι γ σ κ π ρ)) × World T σ π → Bool}
    (h : (P.run w as).any p = true) :
    ∃ moves w', Trace (Step P) w moves w' ∧ p (moves, w') = true := by
  obtain ⟨⟨moves, w'⟩, hrun, hp⟩ := (Option.any_eq_true _ _).mp h
  exact ⟨moves, w', run_sound hrun, hp⟩

end Running
end Monitor
