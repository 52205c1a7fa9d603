import FasterFifo.Library.Monitor

/-! Sections in small steps: the thread that has the mutex moves, signals and at last gives the
mutex up, while the others sleep, wake and wait for it. Code that keeps an account of what is left
of a section has the runs of the program whose sections are atomic, and all of them. -/
namespace Monitor
open Transition Function

/-- A small step inside a section: onwards, with a signal, or out of it. -/
inductive Advance (ν σ κ π ρ : Type*) where
  | more (point : ν) (shared : σ)
  | signal (k : κ) (point : ν)
  | release (o : Outcome σ κ π ρ)

/-- The code of the sections in small steps; a point is a place in the code with its locals. -/
structure Code (ν σ κ ι π γ ρ ε : Type*) where
  cond : π → κ
  begins : Start ι π → γ → ν
  advance : ν → σ → Except ε (Advance ν σ κ π ρ)

/-- The thread that has the mutex, how its section began, where it is and whom its signal woke. -/
structure Holder (T ι π γ ν : Type*) where
  thread : T
  start : Start ι π
  clock : γ
  point : ν
  pick : Option T

structure Locked (T σ ι π γ ν : Type*) where
  shared : σ
  phase : T → Phase π
  holder : Option (Holder T ι π γ ν)

inductive Tick (T ι γ σ κ π ρ : Type*) where
  | lock (t : T) (start : Start ι π) (clock : γ)
  | advance (t : T)
  | signal (t : T) (k : κ) (pick : Option T)
  | unlock (t : T) (start : Start ι π) (clock : γ) (o : Outcome σ κ π ρ) (pick : Option T)
  | wake (t : T)

variable {T ν σ κ ι π γ ρ ε : Type*}

/-- Nobody has the mutex. -/
def World.unlocked (v : World T σ π) : Locked T σ ι π γ ν := ⟨v.shared, v.phase, none⟩

/-- The sections that a small step ends, and the wakeups. -/
def Tick.labels : Tick T ι γ σ κ π ρ → List (Label T ι γ σ κ π ρ)
  | .unlock t start clock o pick => [.crit t start clock o pick]
  | .wake t => [.wake t]
  | _ => []

variable [DecidableEq T]

inductive FineStep (C : Code ν σ κ ι π γ ρ ε) :
    Locked T σ ι π γ ν → Tick T ι γ σ κ π ρ → Locked T σ ι π γ ν → Prop
  | lock {w : Locked T σ ι π γ ν} {t : T} {start : Start ι π} {clock : γ}
      (hfree : w.holder = none) (hphase : w.phase t = start.phase) :
      FineStep C w (.lock t start clock)
        { w with holder := some ⟨t, start, clock, C.begins start clock, none⟩ }
  | advance {w : Locked T σ ι π γ ν} {h : Holder T ι π γ ν} {l : ν} {s : σ}
      (hholds : w.holder = some h) (hmore : C.advance h.point w.shared = .ok (.more l s)) :
      FineStep C w (.advance h.thread)
        { w with shared := s, holder := some { h with point := l } }
  | signal {w : Locked T σ ι π γ ν} {h : Holder T ι π γ ν} {k : κ} {l : ν} {pick : Option T}
      {g : T → Phase π} (hholds : w.holder = some h)
      (hsignal : C.advance h.point w.shared = .ok (.signal k l))
      (hwakes : Signals C.cond w.phase (some k) pick g) :
      FineStep C w (.signal h.thread k pick)
        { w with phase := g, holder := some { h with point := l, pick := pick } }
  | unlock {w : Locked T σ ι π γ ν} {h : Holder T ι π γ ν} {o : Outcome σ κ π ρ}
      (hholds : w.holder = some h) (hrelease : C.advance h.point w.shared = .ok (.release o)) :
      FineStep C w (.unlock h.thread h.start h.clock o h.pick)
        ⟨o.shared, update w.phase h.thread o.exit.phase, none⟩
  | wake {w : Locked T σ ι π γ ν} {t : T} {p : π} (hasleep : w.phase t = .asleep p) :
      FineStep C w (.wake t) { w with phase := update w.phase t (.woken p) }

/-- At every point of the code: what is left of the section, what it has signalled so far, and
how many steps it still takes at most. -/
structure Account (ν σ κ π ρ ε : Type*) where
  rest : ν → σ → Except ε (Outcome σ κ π ρ)
  sent : ν → Option κ
  left : ν → ℕ

/-- The account stays right in a step. -/
def Account.Keeps (A : Account ν σ κ π ρ ε) (l : ν) (s : σ) :
    Except ε (Advance ν σ κ π ρ) → Prop
  | .ok (.more l' s') => A.rest l' s' = A.rest l s ∧ A.sent l' = A.sent l ∧ A.left l' < A.left l
  | .ok (.signal k l') =>
      A.rest l' s = A.rest l s ∧ (A.sent l = none ∧ A.sent l' = some k) ∧ A.left l' < A.left l
  | .ok (.release o) => A.rest l s = .ok o ∧ o.signalled = A.sent l
  | .error e => A.rest l s = .error e

structure Implements (C : Code ν σ κ ι π γ ρ ε) (P : Program σ κ ι π γ ρ ε)
    (A : Account ν σ κ π ρ ε) : Prop where
  cond : C.cond = P.cond
  begins : ∀ start clock s, A.rest (C.begins start clock) s = P.body start clock s
  silent : ∀ start clock, A.sent (C.begins start clock) = none
  keeps : ∀ l s, A.Keeps l s (C.advance l s)

/-- The atomic program in the same state, the section in progress not yet begun. -/
structure Mirrors (P : Program σ κ ι π γ ρ ε) (A : Account ν σ κ π ρ ε) (v : World T σ π)
    (w : Locked T σ ι π γ ν) : Prop where
  free : w.holder = none → v.phase = w.phase ∧ v.shared = w.shared
  held : ∀ h, w.holder = some h → v.phase h.thread = h.start.phase ∧
    Signals P.cond v.phase (A.sent h.point) h.pick w.phase ∧
    A.rest h.point w.shared = P.body h.start h.clock v.shared

section Steps
variable {C : Code ν σ κ ι π γ ρ ε} {P : Program σ κ ι π γ ρ ε} {A : Account ν σ κ π ρ ε}
  {v : World T σ π} {w w' : Locked T σ ι π γ ν} {h : Holder T ι π γ ν} {t : T}
  {start : Start ι π} {clock : γ} {o : Outcome σ κ π ρ} {pick : Option T} {g : T → Phase π}
  {k : κ} {l : ν} {s : σ} {p : π}

omit [DecidableEq T] in
theorem Implements.more (hC : Implements C P A) {l' : ν} {s' : σ}
    (h : C.advance l s = .ok (.more l' s')) :
    A.rest l' s' = A.rest l s ∧ A.sent l' = A.sent l ∧ A.left l' < A.left l := by
  have hkeeps := hC.keeps l s
  rwa [h] at hkeeps

omit [DecidableEq T] in
theorem Implements.signal (hC : Implements C P A) {l' : ν}
    (h : C.advance l s = .ok (.signal k l')) :
    A.rest l' s = A.rest l s ∧ (A.sent l = none ∧ A.sent l' = some k) ∧ A.left l' < A.left l := by
  have hkeeps := hC.keeps l s
  rwa [h] at hkeeps

omit [DecidableEq T] in
theorem Implements.release (hC : Implements C P A) (h : C.advance l s = .ok (.release o)) :
    A.rest l s = .ok o ∧ o.signalled = A.sent l := by
  have hkeeps := hC.keeps l s
  rwa [h] at hkeeps

omit [DecidableEq T] in
theorem Implements.fault (hC : Implements C P A) {e : ε} (h : C.advance l s = .error e) :
    A.rest l s = .error e := by
  have hkeeps := hC.keeps l s
  rwa [h] at hkeeps

omit [DecidableEq T] in
theorem Implements.not_fault (hC : Implements C P A) {e : ε} (hrest : A.rest l s = .ok o)
    (h : C.advance l s = .error e) : False := by
  have hfault := hC.fault h
  rw [hrest] at hfault
  cases hfault

theorem mirrors_unlocked (v : World T σ π) :
    Mirrors P A v (v.unlocked : Locked T σ ι π γ ν) where
  free _ := ⟨rfl, rfl⟩
  held := by rintro h ⟨⟩

theorem Mirrors.lock (hv : Mirrors P A v w) (hC : Implements C P A) (hfree : w.holder = none)
    (hphase : w.phase t = start.phase) :
    Mirrors P A v { w with holder := some ⟨t, start, clock, C.begins start clock, none⟩ } where
  free := by rintro ⟨⟩
  held := by
    rintro h ⟨⟩
    obtain ⟨hsame, hshared⟩ := hv.free hfree
    rw [hsame, hshared]
    refine ⟨hphase, ?_, hC.begins start clock w.shared⟩
    rw [hC.silent]
    exact .silent

theorem Mirrors.advance (hv : Mirrors P A v w) (hC : Implements C P A)
    (hholds : w.holder = some h) (hmore : C.advance h.point w.shared = .ok (.more l s)) :
    Mirrors P A v { w with shared := s, holder := some { h with point := l } } where
  free := by rintro ⟨⟩
  held := by
    rintro h' ⟨⟩
    obtain ⟨hphase, hsignals, hrest⟩ := hv.held h hholds
    obtain ⟨hkept, hsent, -⟩ := hC.more hmore
    refine ⟨hphase, ?_, hkept.trans hrest⟩
    rw [hsent]
    exact hsignals

/-- Nothing had been signalled before, so the signal finds the threads of the atomic program. -/
theorem Mirrors.signal (hv : Mirrors P A v w) (hC : Implements C P A)
    (hholds : w.holder = some h) (hsignal : C.advance h.point w.shared = .ok (.signal k l))
    (hwakes : Signals C.cond w.phase (some k) pick g) :
    Mirrors P A v { w with phase := g, holder := some { h with point := l, pick := pick } } where
  free := by rintro ⟨⟩
  held := by
    rintro h' ⟨⟩
    obtain ⟨hphase, hsignals, hrest⟩ := hv.held h hholds
    obtain ⟨hkept, ⟨hnone, hsome⟩, -⟩ := hC.signal hsignal
    rw [hnone] at hsignals
    rw [hC.cond, hsignals.silent_inv.2] at hwakes
    refine ⟨hphase, ?_, hkept.trans hrest⟩
    rw [hsome]
    exact hwakes

theorem Mirrors.unlock (hv : Mirrors P A v w) (hC : Implements C P A)
    (hholds : w.holder = some h) (hrelease : C.advance h.point w.shared = .ok (.release o)) :
    Step P v (.crit h.thread h.start h.clock o h.pick)
      ⟨o.shared, update w.phase h.thread o.exit.phase⟩ := by
  obtain ⟨hphase, hsignals, hrest⟩ := hv.held h hholds
  obtain ⟨hends, hsent⟩ := hC.release hrelease
  rw [← hsent] at hsignals
  exact .crit hphase (hrest.symm.trans hends) hsignals

theorem Mirrors.asleep (hv : Mirrors P A v w) (ht : w.phase t = .asleep p) :
    v.phase t = .asleep p := by
  cases hholder : w.holder with
  | none => rwa [(hv.free hholder).1]
  | some h => exact (hv.held h hholder).2.1.asleep ht

theorem Mirrors.wake (hv : Mirrors P A v w) (hasleep : w.phase t = .asleep p) :
    Mirrors P A { v with phase := update v.phase t (.woken p) }
      { w with phase := update w.phase t (.woken p) } where
  free := by
    intro hfree
    obtain ⟨hsame, hshared⟩ := hv.free hfree
    exact ⟨by rw [hsame], hshared⟩
  held := by
    intro h hholds
    obtain ⟨hphase, hsignals, hrest⟩ := hv.held h hholds
    refine ⟨?_, hsignals.wake hasleep, hrest⟩
    have hne : h.thread ≠ t := by
      rintro rfl
      rw [hv.asleep hasleep] at hphase
      exact start_ne_asleep h.start p hphase.symm
    exact (update_of_ne hne _ _).trans hphase

theorem Mirrors.step (hv : Mirrors P A v w) (hC : Implements C P A) {e : Tick T ι γ σ κ π ρ}
    (hstep : FineStep C w e w') :
    ∃ moves v', Trace (Step P) v moves v' ∧ moves.map Move.label = e.labels ∧ Mirrors P A v' w' := by
  cases hstep with
  | lock hfree hphase => exact ⟨[], v, .nil, rfl, hv.lock hC hfree hphase⟩
  | advance hholds hmore => exact ⟨[], v, .nil, rfl, hv.advance hC hholds hmore⟩
  | signal hholds hsignal hwakes => exact ⟨[], v, .nil, rfl, hv.signal hC hholds hsignal hwakes⟩
  | unlock hholds hrelease =>
      exact ⟨_, _, .single (hv.unlock hC hholds hrelease), rfl, mirrors_unlocked ⟨_, _⟩⟩
  | wake hasleep => exact ⟨_, _, .single (.wake (hv.asleep hasleep)), rfl, hv.wake hasleep⟩

end Steps

section Runs
variable {C : Code ν σ κ ι π γ ρ ε} {P : Program σ κ ι π γ ρ ε} {A : Account ν σ κ π ρ ε}
  {v v' : World T σ π} {w : Locked T σ ι π γ ν} {t : T} {start : Start ι π} {clock : γ}
  {o : Outcome σ κ π ρ} {pick : Option T} {f g : T → Phase π} {l : ν} {s : σ}

/-- A run in small steps is a run of the atomic program, up to the section in progress. -/
theorem atomic_of_fine (hC : Implements C P A)
    {ticks : List (Move (Locked T σ ι π γ ν) (Tick T ι γ σ κ π ρ))}
    (h : Trace (FineStep C) v.unlocked ticks w) :
    ∃ moves v', Trace (Step P) v moves v' ∧
      moves.map Move.label = ticks.flatMap (fun m => m.label.labels) ∧ Mirrors P A v' w := by
  have hstep : ∀ m : Move (Locked T σ ι π γ ν) (Tick T ι γ σ κ π ρ), True →
      FineStep C m.pre m.label m.post → ∀ v, Mirrors P A v m.pre →
      ∃ moves v', Trace (Step P) v moves v' ∧ moves.map Move.label = m.label.labels ∧
        Mirrors P A v' m.post := by
    intro m _ hm v hv
    exact hv.step hC hm
  exact h.simulate (R := fun w v => Mirrors P A v w) hstep (fun _ _ => trivial)
    (mirrors_unlocked v)

omit [DecidableEq T] in
theorem Implements.signalled (hC : Implements C P A) {k : κ} (hsent : A.sent l = some k)
    (hrest : A.rest l s = .ok o) : o.signalled = some k := by
  induction hn : A.left l using Nat.strong_induction_on generalizing l s with
  | h n ih =>
      subst hn
      cases hadvance : C.advance l s with
      | error e => exact (hC.not_fault hrest hadvance).elim
      | ok a =>
          cases a with
          | more l' s' =>
              obtain ⟨hkept, hsame, hless⟩ := hC.more hadvance
              exact ih _ hless (hsame.trans hsent) (hkept.trans hrest) rfl
          | signal k' l' =>
              obtain ⟨-, ⟨hnone, -⟩, -⟩ := hC.signal hadvance
              rw [hsent] at hnone
              cases hnone
          | release o' =>
              obtain ⟨hends, hlast⟩ := hC.release hadvance
              cases hrest.symm.trans hends
              exact hlast.trans hsent

theorem fine_end (f : T → Phase π) (pick : Option T) (hC : Implements C P A)
    (hsent : o.signalled = A.sent l) (hrest : A.rest l s = .ok o) :
    ∃ ticks : List (Move (Locked T σ ι π γ ν) (Tick T ι γ σ κ π ρ)),
      Trace (FineStep C) ⟨s, f, some ⟨t, start, clock, l, pick⟩⟩ ticks
        ⟨o.shared, update f t o.exit.phase, none⟩ ∧
      ticks.flatMap (fun m => m.label.labels) = [.crit t start clock o pick] := by
  induction hn : A.left l using Nat.strong_induction_on generalizing l s with
  | h n ih =>
      subst hn
      cases hadvance : C.advance l s with
      | error e => exact (hC.not_fault hrest hadvance).elim
      | ok a =>
          cases a with
          | more l' s' =>
              obtain ⟨hkept, hsame, hless⟩ := hC.more hadvance
              obtain ⟨ticks, htrace, hlabels⟩ :=
                ih _ hless (hsent.trans hsame.symm) (hkept.trans hrest) rfl
              have hfirst : FineStep C (⟨s, f, some ⟨t, start, clock, l, pick⟩⟩ : Locked T σ ι π γ ν)
                  (.advance t) ⟨s', f, some ⟨t, start, clock, l', pick⟩⟩ :=
                .advance (h := ⟨t, start, clock, l, pick⟩) rfl hadvance
              exact ⟨_, (Trace.single hfirst).append htrace, hlabels⟩
          | signal k l' =>
              obtain ⟨hkept, ⟨hnone, hsome⟩, -⟩ := hC.signal hadvance
              have hsignalled := hC.signalled hsome (hkept.trans hrest)
              rw [hsent, hnone] at hsignalled
              cases hsignalled
          | release o' =>
              cases hrest.symm.trans (hC.release hadvance).1
              have hlast : FineStep C (⟨s, f, some ⟨t, start, clock, l, pick⟩⟩ : Locked T σ ι π γ ν)
                  (.unlock t start clock o pick) ⟨o.shared, update f t o.exit.phase, none⟩ :=
                .unlock (h := ⟨t, start, clock, l, pick⟩) rfl hadvance
              exact ⟨_, .single hlast, rfl⟩

/-- A section that runs to its end does so in small steps, its signal among them. -/
theorem fine_section (hC : Implements C P A) (hsignals : Signals P.cond f o.signalled pick g)
    (hsent : A.sent l = none) (hrest : A.rest l s = .ok o) :
    ∃ ticks : List (Move (Locked T σ ι π γ ν) (Tick T ι γ σ κ π ρ)),
      Trace (FineStep C) ⟨s, f, some ⟨t, start, clock, l, none⟩⟩ ticks
        ⟨o.shared, update g t o.exit.phase, none⟩ ∧
      ticks.flatMap (fun m => m.label.labels) = [.crit t start clock o pick] := by
  induction hn : A.left l using Nat.strong_induction_on generalizing l s with
  | h n ih =>
      subst hn
      cases hadvance : C.advance l s with
      | error e => exact (hC.not_fault hrest hadvance).elim
      | ok a =>
          cases a with
          | more l' s' =>
              obtain ⟨hkept, hsame, hless⟩ := hC.more hadvance
              obtain ⟨ticks, htrace, hlabels⟩ :=
                ih _ hless (hsame.trans hsent) (hkept.trans hrest) rfl
              have hfirst : FineStep C (⟨s, f, some ⟨t, start, clock, l, none⟩⟩ : Locked T σ ι π γ ν)
                  (.advance t) ⟨s', f, some ⟨t, start, clock, l', none⟩⟩ :=
                .advance (h := ⟨t, start, clock, l, none⟩) rfl hadvance
              exact ⟨_, (Trace.single hfirst).append htrace, hlabels⟩
          | signal k l' =>
              obtain ⟨hkept, ⟨-, hsome⟩, -⟩ := hC.signal hadvance
              have hsignalled := hC.signalled hsome (hkept.trans hrest)
              rw [hsignalled, ← hC.cond] at hsignals
              obtain ⟨ticks, htrace, hlabels⟩ :=
                fine_end g pick hC (hsignalled.trans hsome.symm) (hkept.trans hrest)
              have hfirst : FineStep C (⟨s, f, some ⟨t, start, clock, l, none⟩⟩ : Locked T σ ι π γ ν)
                  (.signal t k pick) ⟨s, g, some ⟨t, start, clock, l', pick⟩⟩ :=
                .signal (h := ⟨t, start, clock, l, none⟩) rfl hadvance hsignals
              exact ⟨_, (Trace.single hfirst).append htrace, hlabels⟩
          | release o' =>
              obtain ⟨hends, hlast⟩ := hC.release hadvance
              cases hrest.symm.trans hends
              rw [hlast, hsent] at hsignals
              obtain ⟨rfl, rfl⟩ := hsignals.silent_inv
              have hunlock : FineStep C
                  (⟨s, g, some ⟨t, start, clock, l, none⟩⟩ : Locked T σ ι π γ ν)
                  (.unlock t start clock o none) ⟨o.shared, update g t o.exit.phase, none⟩ :=
                .unlock (h := ⟨t, start, clock, l, none⟩) rfl hadvance
              exact ⟨_, .single hunlock, rfl⟩

/-- Every run of the atomic program is one of the code in small steps. -/
theorem fine_of_atomic (hC : Implements C P A)
    {moves : List (Move (World T σ π) (Label T ι γ σ κ π ρ))} (h : Trace (Step P) v moves v') :
    ∃ ticks : List (Move (Locked T σ ι π γ ν) (Tick T ι γ σ κ π ρ)),
      Trace (FineStep C) v.unlocked ticks v'.unlocked ∧
      ticks.flatMap (fun m => m.label.labels) = moves.map Move.label := by
  induction h with
  | nil => exact ⟨[], .nil, rfl⟩
  | @snoc v₁ v₂ moves e htrace hstep ih =>
      obtain ⟨ticks, hticks, hlabels⟩ := ih
      have hlast : ∃ more : List (Move (Locked T σ ι π γ ν) (Tick T ι γ σ κ π ρ)),
          Trace (FineStep C) v₁.unlocked more v₂.unlocked ∧
          more.flatMap (fun m => m.label.labels) = [e] := by
        cases hstep with
        | @crit t start clock o pick g hphase hbody hsignal =>
            have hlock : FineStep C (v₁.unlocked : Locked T σ ι π γ ν) (.lock t start clock)
                ⟨v₁.shared, v₁.phase, some ⟨t, start, clock, C.begins start clock, none⟩⟩ :=
              .lock rfl hphase
            have hwhole : A.rest (C.begins start clock) v₁.shared = .ok _ :=
              (hC.begins start clock v₁.shared).trans hbody
            obtain ⟨more, hmore, hcrit⟩ :=
              fine_section hC hsignal (hC.silent start clock) hwhole
            exact ⟨_, (Trace.single hlock).append hmore, hcrit⟩
        | @wake t p hasleep => exact ⟨_, .single (.wake hasleep), rfl⟩
      obtain ⟨more, hmore, hone⟩ := hlast
      refine ⟨ticks ++ more, hticks.append hmore, ?_⟩
      rw [List.flatMap_append, hlabels, hone, List.map_append]
      rfl

/-- The holder of the mutex, some steps further and before its signal. -/
def Code.advances (C : Code ν σ κ ι π γ ρ ε) : ℕ → ν → σ → Option (ν × σ)
  | 0, l, s => some (l, s)
  | n+1, l, s =>
      match C.advance l s with
      | .ok (.more l' s') => C.advances n l' s'
      | _ => none

theorem trace_of_advances {n : ℕ} {l' : ν} {s' : σ} (h : C.advances n l s = some (l', s')) :
    ∃ ticks : List (Move (Locked T σ ι π γ ν) (Tick T ι γ σ κ π ρ)),
      Trace (FineStep C) ⟨s, f, some ⟨t, start, clock, l, pick⟩⟩ ticks
        ⟨s', f, some ⟨t, start, clock, l', pick⟩⟩ ∧ ∀ m ∈ ticks, m.label = .advance t := by
  induction n generalizing l s with
  | zero =>
      cases h
      exact ⟨[], .nil, fun m hm => absurd hm List.not_mem_nil⟩
  | succ n ih =>
      rw [Code.advances] at h
      split at h
      · rename_i l₁ s₁ hmore
        obtain ⟨ticks, htrace, hticks⟩ := ih h
        have hfirst : FineStep C (⟨s, f, some ⟨t, start, clock, l, pick⟩⟩ : Locked T σ ι π γ ν)
            (.advance t) ⟨s₁, f, some ⟨t, start, clock, l₁, pick⟩⟩ :=
          .advance (h := ⟨t, start, clock, l, pick⟩) rfl hmore
        refine ⟨_, (Trace.single hfirst).append htrace, ?_⟩
        intro m hm
        rcases List.mem_append.mp hm with hm | hm
        · rw [List.mem_singleton.mp hm]
        · exact hticks m hm
      · cases h

/-- The outcome of the section, if it ends after that many steps without a signal. -/
def Code.ends (C : Code ν σ κ ι π γ ρ ε) (n : ℕ) (l : ν) (s : σ) : Option (Outcome σ κ π ρ) :=
  (C.advances n l s).bind fun r =>
    match C.advance r.1 r.2 with
    | .ok (.release o) => some o
    | _ => none

omit [DecidableEq T] in
theorem advances_of_ends {n : ℕ} (h : C.ends n l s = some o) :
    ∃ l' s', C.advances n l s = some (l', s') ∧ C.advance l' s' = .ok (.release o) := by
  obtain ⟨⟨l', s'⟩, hadvances, hend⟩ := Option.bind_eq_some_iff.mp h
  refine ⟨l', s', hadvances, ?_⟩
  dsimp only at hend
  split at hend
  · rename_i hrelease
    cases hend
    exact hrelease
  · cases hend

end Runs
end Monitor
