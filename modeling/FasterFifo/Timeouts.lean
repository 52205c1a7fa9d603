import FasterFifo.Contracts

/-! Every wait turns the remaining time into a deadline and back, each with a fresh reading of the
clock. In microseconds both are exact, so a deadline never moves backwards. -/
namespace FasterFifo
open Transition Monitor

section Timevals

def Timeval.micros (t : Timeval) : ℤ := t.sec * 1000000 + t.usec

def Timeval.Normalised (t : Timeval) : Prop := 0 ≤ t.usec ∧ t.usec < 1000000

def Timespec.nanos (t : Timespec) : ℤ := t.sec * 1000000000 + t.nsec

def Timespec.Normalised (t : Timespec) : Prop := 0 ≤ t.nsec ∧ t.nsec < 1000000000

instance (t : Timeval) : Decidable t.Normalised := inferInstanceAs (Decidable (_ ∧ _))

variable {a b t : Timeval}

@[simp] theorem micros_timeradd (a b : Timeval) : (timeradd a b).micros = a.micros + b.micros := by
  unfold timeradd
  split <;> simp only [Timeval.micros] <;> ring

@[simp] theorem micros_timersub (a b : Timeval) : (timersub a b).micros = a.micros - b.micros := by
  unfold timersub
  split <;> simp only [Timeval.micros] <;> ring

theorem normalised_timeradd (ha : a.Normalised) (hb : b.Normalised) :
    (timeradd a b).Normalised := by
  unfold timeradd
  split <;> simp only [Timeval.Normalised] at * <;> omega

theorem normalised_timersub (ha : a.Normalised) (hb : b.Normalised) :
    (timersub a b).Normalised := by
  unfold timersub
  split <;> simp only [Timeval.Normalised] at * <;> omega

theorem normalised_floatSecondsToTimeval (waitUs : ℕ) :
    (floatSecondsToTimeval waitUs).Normalised := by
  have h : waitUs % million < million := Nat.mod_lt _ (by decide)
  simp only [floatSecondsToTimeval, Timeval.Normalised, million] at *
  omega

@[simp] theorem micros_floatSecondsToTimeval (waitUs : ℕ) :
    (floatSecondsToTimeval waitUs).micros = waitUs := by
  have hparts := Nat.div_add_mod waitUs million
  simp only [floatSecondsToTimeval, Timeval.micros, million] at *
  omega

/-- Every normalised timeout is the conversion of its microseconds. -/
theorem floatSecondsToTimeval_micros (ht : t.Normalised) (hsec : 0 ≤ t.sec) :
    floatSecondsToTimeval t.micros.toNat = t := by
  obtain ⟨sec, usec⟩ := t
  simp only [floatSecondsToTimeval, Timeval.micros, Timeval.Normalised, million] at *
  have hnat : (sec * 1000000 + usec).toNat = sec.toNat * 1000000 + usec.toNat := by omega
  rw [hnat]
  congr 1 <;> omega

/-- A remaining time of -1 us is stored as -1 s and 999999 us, and is not positive. -/
theorem timerPositive_iff (ht : t.Normalised) : timerPositive t = true ↔ 0 < t.micros := by
  simp only [timerPositive, Bool.or_eq_true, Bool.and_eq_true, decide_eq_true_eq, Timeval.micros,
    Timeval.Normalised] at *
  omega

theorem timerPositive_floatSecondsToTimeval (waitUs : ℕ) :
    timerPositive (floatSecondsToTimeval waitUs) = true ↔ 0 < waitUs := by
  rw [timerPositive_iff (normalised_floatSecondsToTimeval waitUs), micros_floatSecondsToTimeval,
    Int.natCast_pos]

theorem nsec_waitUntilTs (ht : t.Normalised) : t.waitUntilTs.nsec = t.usec * 1000 := by
  obtain ⟨hlow, hhigh⟩ := ht
  apply Int.bmod_eq_of_le <;> simp only [sizeModulus] <;> omega

theorem normalised_waitUntilTs (ht : t.Normalised) : t.waitUntilTs.Normalised := by
  rw [Timespec.Normalised, nsec_waitUntilTs ht]
  simp only [Timeval.Normalised] at ht
  omega

theorem nanos_waitUntilTs (ht : t.Normalised) : t.waitUntilTs.nanos = t.micros * 1000 := by
  rw [Timespec.nanos, nsec_waitUntilTs ht, Timeval.micros]
  simp only [Timeval.waitUntilTs]
  ring

end Timevals

variable {T : Type}

/-- The readings of `gettimeofday` in a section, in order. -/
def readings : Event T → List Timeval
  | .crit _ start clock o _ =>
      (match start with
        | .enter _ => []
        | .resume _ => [clock.woke]) ++
      (match o.exit with
        | .returned _ => []
        | .waiting _ => [clock.now])
  | .wake _ => []

/-- The deadline that a section passes to `pthread_cond_timedwait`, if it waits. -/
def deadlines : Event T → List Timespec
  | .crit _ _ _ o _ =>
      match o.exit with
      | .returned _ => []
      | .waiting r => [r.waitUntil.waitUntilTs]
  | .wake _ => []

def callReadings (call : List (Move (System T) (Event T))) : List Timeval :=
  call.flatMap fun m => readings m.label

def callDeadlines (call : List (Move (System T) (Event T))) : List Timespec :=
  call.flatMap fun m => deadlines m.label

/-- Normalised readings of a clock that does not go back. -/
def Timely (clock : List Timeval) : Prop :=
  (∀ t ∈ clock, t.Normalised) ∧ clock.Pairwise fun a b => a.micros ≤ b.micros

instance (clock : List Timeval) : Decidable (Timely clock) :=
  inferInstanceAs (Decidable (_ ∧ _))

section Sections
variable {w w' : System T} {t : T} {start : Start Call Request} {clock : Clock} {o : Section}
  {pick : Option T} {call : List (Move (System T) (Event T))}

theorem callReadings_append (call more : List (Move (System T) (Event T))) :
    callReadings (call ++ more) = callReadings call ++ callReadings more := List.flatMap_append

theorem callDeadlines_append (call more : List (Move (System T) (Event T))) :
    callDeadlines (call ++ more) = callDeadlines call ++ callDeadlines more := List.flatMap_append

theorem section_waiting (w w' : System T) (t : T) (start : Start Call Request) (clock : Clock)
    (pick : Option T) {r : Request} (hx : o.exit = .waiting r) :
    callDeadlines [⟨w, .crit t start clock o pick, w'⟩] = [r.waitUntil.waitUntilTs] ∧
      callReadings [⟨w, .crit t start clock o pick, w'⟩] =
        (match start with
          | .enter _ => []
          | .resume _ => [clock.woke]) ++ [clock.now] := by
  simp [callDeadlines, callReadings, deadlines, readings, hx]

theorem section_returned (w w' : System T) (t : T) (start : Start Call Request) (clock : Clock)
    (pick : Option T) {res : Result} (hx : o.exit = .returned res) :
    callDeadlines [⟨w, .crit t start clock o pick, w'⟩] = [] ∧
      callReadings [⟨w, .crit t start clock o pick, w'⟩] =
        (match start with
          | .enter _ => []
          | .resume _ => [clock.woke]) := by
  simp [callDeadlines, callReadings, deadlines, readings, hx]

theorem Timely.left {xs ys : List Timeval} (h : Timely (xs ++ ys)) : Timely xs :=
  ⟨fun t ht => h.1 t (List.mem_append_left ys ht), (List.pairwise_append.mp h.2).1⟩

theorem Timely.right {xs ys : List Timeval} (h : Timely (xs ++ ys)) : Timely ys :=
  ⟨fun t ht => h.1 t (List.mem_append_right xs ht), (List.pairwise_append.mp h.2).2.1⟩

variable [DecidableEq T] {c : Call} {x : Exit Request Result}

/-- What has happened on the clock when a call goes to wait: the deadline is the last one passed
on, none was later, and it leaves the call its whole time from the first reading on. -/
structure Armed (c : Call) (call : List (Move (System T) (Event T))) (r : Request) : Prop where
  normalised : r.waitUntil.Normalised
  passed : (callDeadlines call).getLast? = some r.waitUntil.waitUntilTs
  latest : ∀ d ∈ callDeadlines call, d.nanos ≤ r.waitUntil.waitUntilTs.nanos
  begun : ∃ first, (callReadings call).head? = some first ∧
    first.micros + (floatSecondsToTimeval c.timeout).micros ≤ r.waitUntil.micros

theorem CallSections.armed (h : CallSections c call x) (hclock : Timely (callReadings call))
    {r : Request} (hx : x = .waiting r) : Armed c call r := by
  induction h generalizing r with
  | @enter w w' t clock o pick hstep =>
      obtain ⟨rfl, -⟩ := waiting_section hstep.crit_inv.2.1 hx
      obtain ⟨hdeadlines, hreadings⟩ := section_waiting w w' t (.enter c) clock pick hx
      rw [hreadings] at hclock
      have hnow : clock.now.Normalised := hclock.1 clock.now (by simp)
      constructor
      · exact normalised_timeradd hnow (normalised_floatSecondsToTimeval _)
      · rw [hdeadlines]
        rfl
      · intro d hd
        rw [hdeadlines] at hd
        rw [List.mem_singleton.mp hd]
      · refine ⟨clock.now, by rw [hreadings]; rfl, ?_⟩
        rw [micros_timeradd]
        exact le_rfl
  | @resume call q w w' t clock o pick h hcall hstep ih =>
      obtain ⟨rfl, -⟩ := waiting_section hstep.crit_inv.2.1 hx
      obtain ⟨hdeadlines, hreadings⟩ := section_waiting w w' t (.resume q) clock pick hx
      rw [callReadings_append] at hclock
      have harmed := ih hclock.left rfl
      obtain ⟨first, hfirst, hbegun⟩ := harmed.begun
      have hlast := hclock.right
      rw [hreadings] at hlast
      have hwoke : clock.woke.Normalised := hlast.1 clock.woke (by simp)
      have hnow : clock.now.Normalised := hlast.1 clock.now (by simp)
      have hforth : clock.woke.micros ≤ clock.now.micros := by simpa using hlast.2
      have hnormalised : (timeradd clock.now (timersub q.waitUntil clock.woke)).Normalised :=
        normalised_timeradd hnow (normalised_timersub harmed.normalised hwoke)
      -- the deadline moves by the time between waking and going to wait again
      have hmoved : q.waitUntil.micros ≤
          (timeradd clock.now (timersub q.waitUntil clock.woke)).micros := by
        rw [micros_timeradd, micros_timersub]
        omega
      constructor
      · exact hnormalised
      · rw [callDeadlines_append, hdeadlines, List.getLast?_append]
        rfl
      · intro d hd
        rw [callDeadlines_append, hdeadlines] at hd
        rcases List.mem_append.mp hd with hold | hnew
        · have hle := harmed.latest d hold
          rw [nanos_waitUntilTs harmed.normalised] at hle
          change d.nanos ≤ (timeradd clock.now (timersub q.waitUntil clock.woke)).waitUntilTs.nanos
          rw [nanos_waitUntilTs hnormalised]
          omega
        · rw [List.mem_singleton.mp hnew]
      · refine ⟨first, ?_, hbegun.trans hmoved⟩
        rw [callReadings_append, List.head?_append, hfirst]
        rfl

theorem CallSections.deadlines_forward (h : CallSections c call x)
    (hclock : Timely (callReadings call)) :
    (callDeadlines call).Pairwise (fun d e => d.nanos ≤ e.nanos) ∧
      ∀ d ∈ callDeadlines call, d.Normalised := by
  induction h with
  | @enter w w' t clock o pick hstep =>
      cases hx : o.exit with
      | returned res =>
          rw [(section_returned w w' t (.enter c) clock pick hx).1]
          exact ⟨.nil, fun d hd => absurd hd List.not_mem_nil⟩
      | waiting r =>
          have harmed := (CallSections.enter hstep).armed hclock hx
          rw [(section_waiting w w' t (.enter c) clock pick hx).1]
          refine ⟨List.pairwise_singleton _ _, ?_⟩
          intro d hd
          rw [List.mem_singleton.mp hd]
          exact normalised_waitUntilTs harmed.normalised
  | @resume call q w w' t clock o pick h hcall hstep ih =>
      have hbefore : Timely (callReadings call) := by
        rw [callReadings_append] at hclock
        exact hclock.left
      obtain ⟨hsorted, hnormalised⟩ := ih hbefore
      cases hx : o.exit with
      | returned res =>
          rw [callDeadlines_append, (section_returned w w' t (.resume q) clock pick hx).1,
            List.append_nil]
          exact ⟨hsorted, hnormalised⟩
      | waiting r =>
          have harmed := (CallSections.resume h hcall hstep).armed hclock hx
          have hlatest := harmed.latest
          rw [callDeadlines_append, (section_waiting w w' t (.resume q) clock pick hx).1]
            at hlatest ⊢
          constructor
          · refine List.pairwise_append.mpr ⟨hsorted, List.pairwise_singleton _ _, ?_⟩
            intro d hd e he
            rw [List.mem_singleton.mp he]
            exact hlatest d (List.mem_append_left _ hd)
          · intro d hd
            rcases List.mem_append.mp hd with hold | hnew
            · exact hnormalised d hold
            · rw [List.mem_singleton.mp hnew]
              exact normalised_waitUntilTs harmed.normalised

theorem CallSections.before_wakeup (h : CallSections c call x)
    {before after : List (Move (System T) (Event T))} {r : Request}
    (he : call = before ++ ⟨w, .crit t (.resume r) clock o pick, w'⟩ :: after) :
    CallSections c before (.waiting r) := by
  induction h generalizing after with
  | enter hstep =>
      cases before with
      | nil => cases he
      | cons m before => simp at he
  | resume h hcall hstep ih =>
      rcases List.eq_nil_or_concat after with rfl | ⟨after, m, rfl⟩
      · obtain ⟨rfl, hlast⟩ := List.append_inj' he rfl
        cases hlast
        exact h
      · rw [List.concat_eq_append, ← List.cons_append, ← List.append_assoc] at he
        exact ih (List.append_inj' he rfl).1

omit [DecidableEq T] in
/-- On waking, the remaining time is positive exactly before the deadline passed on. -/
theorem Armed.remaining_iff {r : Request} (h : Armed c call r) {woke : Timeval}
    (hwoke : woke.Normalised) :
    timerPositive (timersub r.waitUntil woke) = true ↔
      woke.micros * 1000 < r.waitUntil.waitUntilTs.nanos := by
  rw [timerPositive_iff (normalised_timersub h.normalised hwoke), micros_timersub,
    nanos_waitUntilTs h.normalised]
  omega

/-- A call that gives up has used its whole time. -/
theorem CallSections.used_up (h : CallSections c call x) (hclock : Timely (callReadings call))
    (hblock : c.block = true) (hpositive : 0 < c.timeout) {res : Result}
    (hx : x = .returned res) (hstatus : res.status = .full ∨ res.status = .empty) :
    ∃ first last, (callReadings call).head? = some first ∧
      (callReadings call).getLast? = some last ∧
      (floatSecondsToTimeval c.timeout).micros ≤ last.micros - first.micros := by
  cases h with
  | enter hstep =>
      rcases givesUp_section hstep.crit_inv.2.1 hx hstatus with hnever | htimer
      · exact absurd (hnever.symm.trans hblock) (by decide)
      · have hpassed := (timerPositive_floatSecondsToTimeval c.timeout).mpr hpositive
        exact absurd (htimer.symm.trans hpassed) (by decide)
  | @resume call q w w' t clock o pick h hcall hstep =>
      have hreadings := (section_returned w w' t (.resume q) clock pick hx).2
      rw [callReadings_append, hreadings] at hclock ⊢
      have harmed := h.armed hclock.left rfl
      have hwoke : clock.woke.Normalised := hclock.1 clock.woke (by simp)
      obtain ⟨first, hfirst, hbegun⟩ := harmed.begun
      refine ⟨first, clock.woke, by rw [List.head?_append, hfirst]; rfl, by simp, ?_⟩
      rcases givesUp_section hstep.crit_inv.2.1 hx hstatus with hnever | htimer
      · rw [startCall, hcall, hblock] at hnever
        cases hnever
      · have hpassed := timerPositive_iff (normalised_timersub harmed.normalised hwoke)
        rw [startRemaining] at htimer
        rw [htimer, micros_timersub] at hpassed
        have hlate : ¬0 < q.waitUntil.micros - clock.woke.micros :=
          fun h0 => absurd (hpassed.mpr h0) (by decide)
        omega

theorem CallSections.last_section (h : CallSections c call x)
    {before : List (Move (System T) (Event T))}
    (he : call = before ++ [⟨w, .crit t start clock o pick, w'⟩]) :
    startCall start = c ∧ x = o.exit := by
  cases h with
  | enter hstep =>
      cases before with
      | nil =>
          cases he
          exact ⟨rfl, rfl⟩
      | cons m before => simp at he
  | resume h hcall hstep =>
      obtain ⟨-, hlast⟩ := List.append_inj' he rfl
      cases hlast
      exact ⟨hcall, rfl⟩

end Sections

section Runs
variable [DecidableEq T] {M N : ℕ} {buffer : Bytes} {moves : List (Move (System T) (Event T))}
  {w : System T}

theorem callSections_of_trace {w₀ : System T} (h : Trace (Step program) w₀ moves w)
    (h₀ : ∀ t, w₀.phase t = .idle) (t : T) :
    callMoves t moves = [] ∨ ∃ c x, CallSections c (callMoves t moves) x := by
  induction h with
  | nil => exact .inl rfl
  | snoc htrace hstep ih =>
      rename_i e
      cases e with
      | wake u =>
          rw [callMoves_wake rfl]
          exact ih
      | crit u start clock o pick =>
          by_cases hut : u = t
          · subst hut
            exact .inr ⟨_, _, callSections_of_step htrace h₀ hstep⟩
          · rw [callMoves_other rfl hut]
            exact ih

/-- However often a call is woken and for whatever reason, it passes on normalised deadlines
that never move backwards, tells by each of them whether it was reached, and gives up only
when its whole time has passed between its first reading of the clock and its last one. -/
theorem no_early_timeout (h : Trace (Step program) (System.init T M N buffer) moves w) {t : T}
    (hclock : Timely (callReadings (callMoves t moves))) :
    (callDeadlines (callMoves t moves)).Pairwise (fun d e => d.nanos ≤ e.nanos) ∧
    (∀ d ∈ callDeadlines (callMoves t moves), d.Normalised) ∧
    (∀ before m after r clock o pick, callMoves t moves = before ++ m :: after →
      m.label = .crit t (.resume r) clock o pick →
      ∃ d, (callDeadlines before).getLast? = some d ∧
        (timerPositive (timersub r.waitUntil clock.woke) = true ↔
          clock.woke.micros * 1000 < d.nanos)) ∧
    (∀ before m start clock o pick res, callMoves t moves = before ++ [m] →
      m.label = .crit t start clock o pick → o.exit = .returned res →
      res.status = .full ∨ res.status = .empty → (startCall start).block = true →
      0 < (startCall start).timeout →
      ∃ first last, (callReadings (callMoves t moves)).head? = some first ∧
        (callReadings (callMoves t moves)).getLast? = some last ∧
        (floatSecondsToTimeval (startCall start).timeout).micros ≤ last.micros - first.micros) := by
  rcases callSections_of_trace h (fun _ => rfl) t with hnone | ⟨c, x, hcall⟩
  · rw [hnone]
    refine ⟨.nil, fun d hd => absurd hd List.not_mem_nil, ?_, ?_⟩
    · intro before m after r clock o pick he
      cases before <;> cases he
    · intro before m start clock o pick res he
      cases before <;> cases he
  · obtain ⟨hforward, hnormalised⟩ := hcall.deadlines_forward hclock
    refine ⟨hforward, hnormalised, ?_, ?_⟩
    · rintro before ⟨w₁, e, w₂⟩ after r clock o pick he rfl
      rw [he, callReadings_append] at hclock
      have harmed := (hcall.before_wakeup he).armed hclock.left rfl
      have hwoke : clock.woke.Normalised := by
        refine hclock.right.1 clock.woke ?_
        simp [callReadings, readings]
      exact ⟨_, harmed.passed, harmed.remaining_iff hwoke⟩
    · rintro before ⟨w₁, e, w₂⟩ start clock o pick res he rfl hx hstatus hblock hpositive
      obtain ⟨rfl, rfl⟩ := hcall.last_section he
      exact hcall.used_up hclock hblock hpositive hx hstatus

end Runs

/-- A consumer woken for nothing one microsecond before its deadline. -/
def expiringSchedule (consumer : T) : List (Action T Call Clock) :=
  [.enter consumer (.get ⟨List.replicate 32 0, 1, 24, true, 1000000⟩) ⟨⟨0, 0⟩, ⟨5, 999999⟩⟩ none,
    .wake consumer,
    .resume consumer ⟨⟨6, 999998⟩, ⟨7, 0⟩⟩ none,
    .wake consumer,
    .resume consumer ⟨⟨7, 1⟩, ⟨7, 1⟩⟩ none]

/-- The consumer has no time left when it is woken again, and gives up. -/
theorem expiring_run :
    ∃ (moves before : List (Move (System (Fin 1)) (Event (Fin 1)))) (w : System (Fin 1))
      (m : Move (System (Fin 1)) (Event (Fin 1))) (r : Request) (o : Section),
      Trace (Step program) (System.init (Fin 1) 24 5 (List.replicate 24 0)) moves w ∧
      Timely (callReadings (callMoves 0 moves)) ∧
      callDeadlines (callMoves 0 moves) = [⟨6, 999999000⟩, ⟨7, 1000⟩] ∧
      callMoves 0 moves = before ++ [m] ∧
      r.call = .get ⟨List.replicate 32 0, 1, 24, true, 1000000⟩ ∧ r.waitUntil = ⟨7, 1⟩ ∧
      m.label = .crit 0 (.resume r) ⟨⟨7, 1⟩, ⟨7, 1⟩⟩ o none ∧
      o.exit = .returned (.get ⟨.empty, 0, 0, 0, List.replicate 32 0⟩) := by
  have hrun : (program.run (System.init (Fin 1) 24 5 (List.replicate 24 0))
      (expiringSchedule 0)).any (fun r => decide (Timely (callReadings (callMoves 0 r.1)) ∧
        callDeadlines (callMoves 0 r.1) = [⟨6, 999999000⟩, ⟨7, 1000⟩]) &&
      (callMoves 0 r.1).getLast?.any fun m =>
        match m.label with
        | .crit t start clock o pick => decide (t = 0 ∧ start.phase =
            .woken ⟨.get ⟨List.replicate 32 0, 1, 24, true, 1000000⟩, ⟨7, 1⟩⟩ ∧
            clock = ⟨⟨7, 1⟩, ⟨7, 1⟩⟩ ∧ pick = none ∧
            o.exit = .returned (.get ⟨.empty, 0, 0, 0, List.replicate 32 0⟩))
        | .wake _ => false) = true := by decide +kernel
  obtain ⟨moves, w, htrace, hw⟩ := reach_of_run hrun
  obtain ⟨hfirst, hlast⟩ := (Bool.and_eq_true _ _).mp hw
  obtain ⟨hclock, hdeadlines⟩ := of_decide_eq_true hfirst
  obtain ⟨m, hm, hend⟩ := (Option.any_eq_true _ _).mp hlast
  obtain ⟨before, hcall⟩ := List.getLast?_eq_some_iff.mp hm
  cases hlabel : m.label with
  | wake t =>
      rw [hlabel] at hend
      cases hend
  | crit t start clock o pick =>
      rw [hlabel] at hend
      obtain ⟨rfl, hstart, rfl, rfl, hx⟩ := of_decide_eq_true hend
      cases start with
      | enter c => cases hstart
      | resume r =>
          cases hstart
          exact ⟨moves, before, w, m, _, o, htrace, hclock, hdeadlines, hcall, rfl, rfl, hlabel,
            hx⟩

theorem no_early_timeout_expiring :
    ∃ (moves : List (Move (System (Fin 1)) (Event (Fin 1)))) (w : System (Fin 1))
      (before : List (Move (System (Fin 1)) (Event (Fin 1)))) (m : Move (System (Fin 1)) _)
      (r : Request) (o : Section) (first last : Timeval),
      Trace (Step program) (System.init (Fin 1) 24 5 (List.replicate 24 0)) moves w ∧
      callMoves 0 moves = before ++ [m] ∧
      m.label = .crit 0 (.resume r) ⟨⟨7, 1⟩, ⟨7, 1⟩⟩ o none ∧
      o.exit = .returned (.get ⟨.empty, 0, 0, 0, List.replicate 32 0⟩) ∧
      callDeadlines (callMoves 0 moves) = [⟨6, 999999000⟩, ⟨7, 1000⟩] ∧
      (callDeadlines (callMoves 0 moves)).Pairwise (fun d e => d.nanos ≤ e.nanos) ∧
      (∀ d ∈ callDeadlines (callMoves 0 moves), d.Normalised) ∧
      (∃ d, (callDeadlines before).getLast? = some d ∧
        (timerPositive (timersub r.waitUntil ⟨7, 1⟩) = true ↔
          Timeval.micros ⟨7, 1⟩ * 1000 < d.nanos)) ∧
      (callReadings (callMoves 0 moves)).head? = some first ∧
      (callReadings (callMoves 0 moves)).getLast? = some last ∧
      (floatSecondsToTimeval 1000000).micros ≤ last.micros - first.micros := by
  obtain ⟨moves, before, w, m, r, o, htrace, hclock, hdeadlines, hcall, hget, -, hlabel, hx⟩ :=
    expiring_run
  obtain ⟨hforward, hnormalised, hwakeup, hused⟩ := no_early_timeout htrace hclock
  have hpassed := hwakeup before m [] r _ o none hcall hlabel
  have hblock : (startCall (.resume r)).block = true := by rw [startCall, hget]; rfl
  have htimeout : (startCall (.resume r)).timeout = 1000000 := by rw [startCall, hget]; rfl
  obtain ⟨first, last, hhead, hlast, helapsed⟩ := hused before m (.resume r) _ o none _ hcall hlabel
    hx (.inr rfl) hblock (by rw [htimeout]; decide)
  rw [htimeout] at helapsed
  exact ⟨moves, w, before, m, r, o, first, last, htrace, hcall, hlabel, hx, hdeadlines, hforward,
    hnormalised, hpassed, hhead, hlast, helapsed⟩

end FasterFifo
