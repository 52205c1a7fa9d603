import FasterFifo.Timeouts

/-! A call pays for its timeout with the time between going to wait and waking, and with nothing
else; once its deadline has passed it returns without the help of any other thread. -/
namespace FasterFifo
open Transition Monitor

variable {T : Type}

/-- The time between going to wait and waking, summed over the readings of a call. -/
def slept : List Timeval → ℤ
  | now :: woke :: rest => woke.micros - now.micros + slept rest
  | _ => 0

example : slept [⟨5, 999999⟩, ⟨6, 999998⟩, ⟨7, 0⟩, ⟨7, 1⟩] = 1000000 := by decide

/-- The readings of finished waits come in pairs. -/
def Paired (readings : List Timeval) : Prop := readings.length % 2 = 0

theorem slept_append {xs : List Timeval} (h : Paired xs) (ys : List Timeval) :
    slept (xs ++ ys) = slept xs + slept ys := by
  induction xs using slept.induct with
  | case1 now woke rest ih =>
      have hrest : Paired rest := by
        simp only [Paired, List.length_cons] at h ⊢
        omega
      rw [List.cons_append, List.cons_append, slept, ih hrest, slept, add_assoc]
  | case2 xs hxs =>
      cases xs with
      | nil => exact (zero_add _).symm
      | cons x xs =>
          cases xs with
          | nil => cases h
          | cons y ys => exact absurd rfl (hxs x y ys)

theorem Paired.pair {xs : List Timeval} (h : Paired xs) (now woke : Timeval) :
    Paired (xs ++ [now, woke]) := by
  simp only [Paired, List.length_append, List.length_cons, List.length_nil] at h ⊢
  omega

/-- What a request has left when it goes to wait: its timeout less the time slept. -/
structure Budget (c : Call) (call : List (Move (System T) (Event T))) (r : Request) : Prop where
  own : r.call = c
  blocks : c.block = true
  normalised : r.waitUntil.Normalised
  left : ∃ before now, callReadings call = before ++ [now] ∧ Paired before ∧
    r.waitUntil.micros =
      now.micros + ((floatSecondsToTimeval c.timeout).micros - slept before)

section Sections
variable [DecidableEq T] {w w' : System T} {t : T} {clock : Clock} {o : Section} {pick : Option T}
  {c : Call} {x : Exit Request Result} {call : List (Move (System T) (Event T))} {r : Request}

omit [DecidableEq T] in
/-- Of its time a woken call has left what it has not slept. -/
theorem Budget.remaining (h : Budget c call r) (woke : Timeval) :
    (timersub r.waitUntil woke).micros =
      (floatSecondsToTimeval c.timeout).micros - slept (callReadings call ++ [woke]) := by
  obtain ⟨before, now, hreadings, hpaired, hleft⟩ := h.left
  have hsum : slept (callReadings call ++ [woke]) =
      slept before + (woke.micros - now.micros) := by
    rw [hreadings, List.append_assoc, slept_append hpaired]
    simp [slept]
  rw [micros_timersub, hleft, hsum]
  ring

theorem CallSections.budget (h : CallSections c call x)
    (hclock : ∀ t ∈ callReadings call, t.Normalised) (hx : x = .waiting r) : Budget c call r := by
  induction h generalizing r with
  | @enter w w' t clock o pick hstep =>
      obtain ⟨rfl, hblock, -⟩ := waiting_section hstep.crit_inv.2.1 hx
      obtain ⟨-, hreadings⟩ := section_waiting w w' t (.enter c) clock pick hx
      rw [hreadings] at hclock
      constructor
      · rfl
      · exact hblock
      · exact normalised_timeradd (hclock _ (by simp)) (normalised_floatSecondsToTimeval _)
      · refine ⟨[], clock.now, hreadings, rfl, ?_⟩
        rw [micros_timeradd]
        exact congrArg _ (sub_zero _).symm
  | @resume call q w w' t clock o pick h hcall hstep ih =>
      obtain ⟨rfl, hblock, -⟩ := waiting_section hstep.crit_inv.2.1 hx
      obtain ⟨-, hreadings⟩ := section_waiting w w' t (.resume q) clock pick hx
      rw [callReadings_append, hreadings] at hclock
      have hold := ih (fun y hy => hclock y (List.mem_append_left _ hy)) rfl
      have hwoke : clock.woke.Normalised := hclock _ (by simp)
      have hnow : clock.now.Normalised := hclock _ (by simp)
      obtain ⟨before, now, hbefore, hpaired, hleft⟩ := hold.left
      constructor
      · exact hcall
      · exact hold.blocks
      · exact normalised_timeradd hnow (normalised_timersub hold.normalised hwoke)
      · refine ⟨before ++ [now, clock.woke], clock.now, ?_, hpaired.pair _ _, ?_⟩
        · rw [callReadings_append, hreadings, hbefore]
          simp
        · rw [micros_timeradd, startRemaining, micros_timersub, hleft, slept_append hpaired]
          simp only [slept]
          ring

theorem CallSections.steps (h : CallSections c call x) :
    ∀ m ∈ call, Step program m.pre m.label m.post := by
  induction h with
  | enter hstep =>
      intro m hm
      rw [List.mem_singleton.mp hm]
      exact hstep
  | resume h hcall hstep ih =>
      intro m hm
      rcases List.mem_append.mp hm with hm | hm
      · exact ih m hm
      · rw [List.mem_singleton.mp hm]
        exact hstep

theorem CallSections.woken_budget (h : CallSections c call x)
    (hclock : ∀ t ∈ callReadings call, t.Normalised)
    {before after : List (Move (System T) (Event T))}
    (he : call = before ++ ⟨w, .crit t (.resume r) clock o pick, w'⟩ :: after) :
    Budget c before r ∧ clock.woke.Normalised := by
  rw [he, callReadings_append] at hclock
  constructor
  · exact (h.before_wakeup he).budget (fun y hy => hclock y (List.mem_append_left _ hy)) rfl
  · refine hclock _ (List.mem_append_right _ ?_)
    simp [callReadings, readings]

end Sections

section Runs
variable [DecidableEq T] {M N : ℕ} {buffer : Bytes} {moves : List (Move (System T) (Event T))}
  {w : System T} {t : T}

/-- At every wakeup of a call, after it has slept for `asleep` in all and whatever the clock has
done: its remaining time is exactly what it has not slept, it waits again only while it has slept
less than its timeout, it gives up only when it has slept all of it, and it has slept longer than
its timeout by no more than this wakeup was late. -/
theorem timeout_paid_asleep (h : Trace (Step program) (System.init T M N buffer) moves w)
    (hclock : ∀ x ∈ callReadings (callMoves t moves), x.Normalised)
    {before after : List (Move (System T) (Event T))} {m : Move (System T) (Event T)} {r : Request}
    {clock : Clock} {o : Section} {pick : Option T}
    (he : callMoves t moves = before ++ m :: after)
    (hlabel : m.label = .crit t (.resume r) clock o pick) :
    ∃ asleep, asleep = slept (callReadings before ++ [clock.woke]) ∧
      (timersub r.waitUntil clock.woke).micros =
        (floatSecondsToTimeval r.call.timeout).micros - asleep ∧
      (∀ r', o.exit = .waiting r' →
        asleep < (floatSecondsToTimeval r.call.timeout).micros) ∧
      (∀ res, o.exit = .returned res → res.status = .full ∨ res.status = .empty →
        (floatSecondsToTimeval r.call.timeout).micros ≤ asleep) ∧
      ∀ late, clock.woke.micros ≤ r.waitUntil.micros + late →
        asleep ≤ (floatSecondsToTimeval r.call.timeout).micros + late := by
  obtain ⟨w₁, e, w₂⟩ := m
  obtain rfl : e = .crit t (.resume r) clock o pick := hlabel
  rcases callSections_of_trace h (fun _ => rfl) t with hnone | ⟨c, x, hcall⟩
  · rw [hnone] at he
    cases before <;> cases he
  · obtain ⟨hbudget, hwoke⟩ := hcall.woken_budget hclock he
    obtain rfl := hbudget.own
    have hstep := hcall.steps _ (he ▸ List.mem_append_right _ List.mem_cons_self)
    have hbody := hstep.crit_inv.2.1
    have hleft := hbudget.remaining clock.woke
    have htimer := timerPositive_iff (normalised_timersub hbudget.normalised hwoke)
    rw [hleft] at htimer
    refine ⟨_, rfl, hleft, ?_, ?_, ?_⟩
    · intro r' hx
      have hpositive := htimer.mp (waiting_section hbody hx).2.2
      omega
    · intro res hx hstatus
      rcases givesUp_section hbody hx hstatus with hnever | hpassed
      · exact absurd (hnever.symm.trans hbudget.blocks) (by decide)
      · by_contra hlt
        have hpositive := htimer.mpr (by omega)
        rw [startRemaining, hpositive] at hpassed
        cases hpassed
    · intro late hlate
      rw [micros_timersub] at hleft
      omega

/-- A call that wakes with no time left returns. -/
theorem late_section_returns (h : BoundedRun M N buffer moves w) {r : Request}
    (hphase : w.phase t = .woken r) {clock : Clock}
    (hlate : timerPositive (timersub r.waitUntil clock.woke) = false) :
    ∃ m, BoundedRun M N buffer (moves ++ [m]) m.post ∧
      (∃ o pick, m.label = .crit t (.resume r) clock o pick) ∧ m.post.phase t = .idle := by
  obtain ⟨f, hf⟩ := h.sound
  have hcall : (startCall (.resume r)).Bounded := hf.pending t r (.inr hphase)
  obtain ⟨o, hbody⟩ := section_ok hf.represents hcall clock
  have hstart : w.phase t = (Start.resume r : Start Call Request).phase := hphase
  obtain ⟨pick, w', hstep⟩ := exists_step hstart hbody
  refine ⟨⟨w, _, w'⟩, h.snoc hstep trivial, ⟨o, pick, rfl⟩, ?_⟩
  rw [hstep.crit_inv.2.2.2]
  cases hx : o.exit with
  | returned res => rfl
  | waiting r' =>
      have hpositive := (waiting_section hbody hx).2.2
      rw [startRemaining, hlate] at hpositive
      cases hpositive

/-- A call whose deadline has passed returns by itself: in every reachable state, and for every
reading of the clock that leaves the call no time, its thread goes on by at most a wakeup and the
section that reads this clock, and ends the call. For proper clocks, a reading leaves no time
exactly if it is not before the deadline. -/
theorem late_call_returns (h : BoundedRun M N buffer moves w) {r : Request}
    (hr : w.Pending t r) :
    (∀ clock : Clock, timerPositive (timersub r.waitUntil clock.woke) = false →
      ∃ wakes m, BoundedRun M N buffer (moves ++ (wakes ++ [m])) m.post ∧ wakes.length ≤ 1 ∧
        (∀ n ∈ wakes, n.label = .wake t) ∧
        (∃ o pick, m.label = .crit t (.resume r) clock o pick) ∧ m.post.phase t = .idle) ∧
    ((∀ x ∈ callReadings (callMoves t moves), x.Normalised) → ∀ clock : Clock,
      clock.woke.Normalised →
      (timerPositive (timersub r.waitUntil clock.woke) = false ↔
        r.waitUntil.micros ≤ clock.woke.micros)) := by
  constructor
  · intro clock hlate
    rcases hr with hasleep | hwoken
    · have hwake := h.snoc (.wake hasleep) trivial
      obtain ⟨m, hrun, hreads, hidle⟩ :=
        late_section_returns hwake (Function.update_self _ _ _) hlate
      rw [List.append_assoc] at hrun
      refine ⟨_, m, hrun, le_rfl, ?_, hreads, hidle⟩
      intro n hn
      rw [List.mem_singleton.mp hn]
    · obtain ⟨m, hrun, hreads, hidle⟩ := late_section_returns h hwoken hlate
      exact ⟨[], m, hrun, Nat.zero_le 1, fun n hn => absurd hn List.not_mem_nil, hreads, hidle⟩
  · intro hclock clock hwoke
    have hcall := callSections_of_pending h.trace (fun _ => rfl) hr
    have hnormalised := (hcall.budget hclock rfl).normalised
    rw [← Bool.not_eq_true, timerPositive_iff (normalised_timersub hnormalised hwoke),
      micros_timersub]
    omega

end Runs

theorem timeout_paid_asleep_expiring :
    ∃ (moves before : List (Move (System (Fin 1)) (Event (Fin 1)))) (w : System (Fin 1))
      (m : Move (System (Fin 1)) (Event (Fin 1))) (r : Request) (o : Section) (asleep : ℤ),
      Trace (Step program) (System.init (Fin 1) 24 5 (List.replicate 24 0)) moves w ∧
      callMoves 0 moves = before ++ [m] ∧
      m.label = .crit 0 (.resume r) ⟨⟨7, 1⟩, ⟨7, 1⟩⟩ o none ∧
      o.exit = .returned (.get ⟨.empty, 0, 0, 0, List.replicate 32 0⟩) ∧
      asleep = slept (callReadings before ++ [⟨7, 1⟩]) ∧
      (timersub r.waitUntil ⟨7, 1⟩).micros = (floatSecondsToTimeval 1000000).micros - asleep ∧
      (floatSecondsToTimeval 1000000).micros ≤ asleep ∧
      asleep ≤ (floatSecondsToTimeval 1000000).micros + 0 := by
  obtain ⟨moves, before, w, m, r, o, htrace, hclock, -, hcall, hget, huntil, hlabel, hx⟩ :=
    expiring_run
  obtain ⟨asleep, hasleep, hleft, -, hpaid, hbound⟩ :=
    timeout_paid_asleep htrace hclock.1 hcall hlabel
  have htimeout : r.call.timeout = 1000000 := by rw [hget]; rfl
  rw [htimeout] at hleft hpaid hbound
  exact ⟨moves, before, w, m, r, o, asleep, htrace, hcall, hlabel, hx, hasleep, hleft,
    hpaid _ hx (.inr rfl), hbound 0 (by rw [huntil]; decide)⟩

theorem late_call_returns_expiring :
    ∃ (moves wakes : List (Move (System (Fin 1)) (Event (Fin 1))))
      (m : Move (System (Fin 1)) (Event (Fin 1))) (r : Request),
      BoundedRun 24 5 (List.replicate 24 0) (moves ++ (wakes ++ [m])) m.post ∧
      r.waitUntil.micros ≤ Timeval.micros ⟨7, 0⟩ ∧ wakes.length ≤ 1 ∧
      (∀ n ∈ wakes, n.label = .wake 0) ∧
      (∃ o pick, m.label = .crit 0 (.resume r) ⟨⟨7, 0⟩, ⟨7, 0⟩⟩ o pick) ∧
      m.post.phase 0 = .idle := by
  have hrun : (program.run (System.init (Fin 1) 24 5 (List.replicate 24 0))
      ((expiringSchedule 0).take 1)).any (fun r => decide
        ((∀ m ∈ r.1, BoundedEvent m.label) ∧
        Timely (callReadings (callMoves 0 r.1)) ∧ r.2.phase 0 = .asleep
          ⟨.get ⟨List.replicate 32 0, 1, 24, true, 1000000⟩, ⟨6, 999999⟩⟩)) = true := by
    decide +kernel
  obtain ⟨moves, w, htrace, hw⟩ := reach_of_run hrun
  obtain ⟨hbounded, hclock, hasleep⟩ := of_decide_eq_true hw
  have hnew : BoundedRun 24 5 (List.replicate 24 0) moves w :=
    ⟨by decide, rfl, htrace, hbounded⟩
  obtain ⟨hreturns, hproper⟩ := late_call_returns hnew (.inl hasleep)
  have hpast : Timeval.micros ⟨6, 999999⟩ ≤ Timeval.micros ⟨7, 0⟩ := by decide
  have hlate := (hproper hclock.1 ⟨⟨7, 0⟩, ⟨7, 0⟩⟩ (by decide)).mpr hpast
  obtain ⟨wakes, m, hrun', hlen, hwakes, hreads, hidle⟩ := hreturns _ hlate
  exact ⟨moves, wakes, m, _, hrun', hpast, hlen, hwakes, hreads, hidle⟩

end FasterFifo
