import FasterFifo.Calls

/-! The monitor of `program` with any finite population of threads. `PutSection` and `GetSection`
list everything that a section of a call can do. -/
namespace FasterFifo
open CheckedMemory Transition Monitor

abbrev System (T : Type) := World T Shared Request

abbrev Event (T : Type) := Label T Call Clock Shared Cond Request Result

/-- The state after `create_queue`, before any call; the buffer holds anything. -/
def System.init (T : Type) (maxSizeBytes maxsize : ℕ) (buffer : Bytes) : System T where
  shared := ⟨createQueue maxSizeBytes maxsize, buffer⟩
  phase _ := .idle

section Begin

def startCall : Start Call Request → Call
  | .enter c => c
  | .resume r => r.call

/-- The shared state once the section has the mutex and, after a wait, has left the counter. -/
def startShared : Start Call Request → Shared → Shared
  | .enter _, s => s
  | .resume r, s => s.addWaiter r.call.cond (-1)

def startRemaining : Start Call Request → Clock → Timeval
  | .enter c, _ => floatSecondsToTimeval c.timeout
  | .resume r, clock => timersub r.waitUntil clock.woke

theorem body_eq (start : Start Call Request) (clock : Clock) (s : Shared) :
    program.body start clock s =
      (startCall start).loop (startShared start s) (startRemaining start clock) clock.now := by
  cases start <;> rfl

@[simp] theorem canFit_addWaiter (q : Queue) (c : Cond) (d : ℤ) (n k : ℕ) :
    (q.addWaiter c d).canFit n k = q.canFit n k := by
  cases c <;> rfl

@[simp] theorem size_addWaiter (s : Shared) (c : Cond) (d : ℤ) :
    (s.addWaiter c d).queue.size = s.queue.size := by
  cases c <;> rfl

@[simp] theorem startShared_size (start : Start Call Request) (s : Shared) :
    (startShared start s).queue.size = s.queue.size := by
  cases start <;> simp [startShared]

theorem startShared_canFit (start : Start Call Request) (s : Shared) (n k : ℕ) :
    (startShared start s).queue.canFit n k = s.queue.canFit n k := by
  cases start <;> simp [startShared, Shared.addWaiter]

end Begin

/-- Everything a section of `queue_put` can do. -/
inductive PutSection (s : Shared) (a : PutArgs) (waitRemaining now : Timeval) : Section → Prop
  | commit {s' : Shared} (hfit : s.queue.canFit (totalSize a.msgSizes) a.msgs.length = true)
      (hwrite : writeMessages s a.msgs = .ok s') :
      PutSection s a waitRemaining now
        ⟨s', s'.queue.signalAfterPut, .returned (.put .success)⟩
  | full (hfit : s.queue.canFit (totalSize a.msgSizes) a.msgs.length = false)
      (hstop : a.block = false ∨ timerPositive waitRemaining = false) :
      PutSection s a waitRemaining now ⟨s, none, .returned (.put .full)⟩
  | wait (hfit : s.queue.canFit (totalSize a.msgSizes) a.msgs.length = false)
      (hblock : a.block = true) (htimer : timerPositive waitRemaining = true) :
      PutSection s a waitRemaining now
        (beginWait s (.put a) (if s.queue.notEmptyNWaiters > 0 then some .notEmpty else none)
          waitRemaining now)

theorem queuePutLoop_cases {s : Shared} {a : PutArgs} {waitRemaining now : Timeval} {o : Section}
    (h : queuePutLoop s a waitRemaining now = .ok o) : PutSection s a waitRemaining now o := by
  unfold queuePutLoop at h
  split at h
  · rename_i hfit
    obtain ⟨s', hwrite, hpure⟩ := bind_eq_ok.mp h
    cases hpure
    exact .commit hfit hwrite
  · rename_i hfit
    have hfit' := Bool.eq_false_iff.mpr hfit
    split at h
    · rename_i hstop
      cases h
      rw [Bool.or_eq_true, Bool.not_eq_true', Bool.not_eq_true'] at hstop
      exact .full hfit' hstop
    · rename_i hwait
      cases h
      rw [Bool.or_eq_true, Bool.not_eq_true', Bool.not_eq_true', not_or, Bool.not_eq_false,
        Bool.not_eq_false] at hwait
      exact .wait hfit' hwait.1 hwait.2

/-- Everything a section of `queue_get` can do. -/
inductive GetSection (s : Shared) (a : GetArgs) (waitRemaining now : Timeval) : Section → Prop
  | empty (hsize : s.queue.size = 0)
      (hstop : a.block = false ∨ timerPositive waitRemaining = false) :
      GetSection s a waitRemaining now ⟨s, none, .returned (.get ⟨.empty, 0, 0, 0, a.msgBuffer⟩)⟩
  | wait (hsize : s.queue.size = 0) (hblock : a.block = true)
      (htimer : timerPositive waitRemaining = true) :
      GetSection s a waitRemaining now (beginWait s (.get a) none waitRemaining now)
  | read {st : GetState} (hsize : 0 < s.queue.size)
      (hloop : queueGetLoop a a.maxMessagesToGet ⟨s, a.msgBuffer, 0, 0, 0, .success⟩ = .ok st) :
      GetSection s a waitRemaining now
        ⟨st.shared, st.shared.queue.signalAfterGet st.messagesRead, .returned (.get st.result)⟩

theorem queueGetWait_cases {s : Shared} {a : GetArgs} {waitRemaining now : Timeval} {o : Section}
    (h : queueGetWait s a waitRemaining now = .ok o) : GetSection s a waitRemaining now o := by
  unfold queueGetWait at h
  split at h
  · rename_i hsize
    have hzero := Nat.le_zero.mp hsize
    split at h
    · rename_i hstop
      cases h
      rw [Bool.or_eq_true, Bool.not_eq_true', Bool.not_eq_true'] at hstop
      exact .empty hzero hstop
    · rename_i hwait
      cases h
      rw [Bool.or_eq_true, Bool.not_eq_true', Bool.not_eq_true', not_or, Bool.not_eq_false,
        Bool.not_eq_false] at hwait
      exact .wait hzero hwait.1 hwait.2
  · rename_i hsize
    obtain ⟨st, hloop, hpure⟩ := bind_eq_ok.mp h
    cases hpure
    exact .read (Nat.lt_of_not_le hsize) hloop

/-- A section that waits was told to, and waits for what is left of the time of its own call. -/
theorem waiting_section {start : Start Call Request} {clock : Clock} {s : Shared} {o : Section}
    (h : program.body start clock s = .ok o) {r : Request} (hx : o.exit = .waiting r) :
    r = ⟨startCall start, timeradd clock.now (startRemaining start clock)⟩ ∧
      (startCall start).block = true ∧ timerPositive (startRemaining start clock) = true := by
  rw [body_eq] at h
  cases hc : startCall start with
  | put a =>
      rw [hc] at h
      cases queuePutLoop_cases h with
      | commit hfit hwrite => cases hx
      | full hfit hstop => cases hx
      | wait hfit hblock htimer =>
          cases hx
          exact ⟨rfl, hblock, htimer⟩
  | get a =>
      rw [hc] at h
      cases queueGetWait_cases h with
      | empty hsize hstop => cases hx
      | wait hsize hblock htimer =>
          cases hx
          exact ⟨rfl, hblock, htimer⟩
      | read hsize hloop => cases hx

theorem waiting_call {start : Start Call Request} {clock : Clock} {s : Shared} {o : Section}
    (h : program.body start clock s = .ok o) {r : Request} (hx : o.exit = .waiting r) :
    r.call = startCall start := by
  rw [(waiting_section h hx).1]

theorem exit_asleepOn {start : Start Call Request} {clock : Clock} {s : Shared} {o : Section}
    {k : Cond} (h : program.body start clock s = .ok o)
    (hk : o.exit.phase.asleepOn program.cond k = true) : (startCall start).cond = k := by
  cases hx : o.exit with
  | returned r =>
      rw [hx] at hk
      cases hk
  | waiting r =>
      rw [hx] at hk
      rw [← waiting_call h hx]
      exact of_decide_eq_true hk

theorem returned_get {start : Start Call Request} {clock : Clock} {s : Shared} {o : Section}
    {r : GetResult} (h : program.body start clock s = .ok o) (hx : o.exit = .returned (.get r)) :
    ∃ a, startCall start = .get a ∧
      GetSection (startShared start s) a (startRemaining start clock) clock.now o := by
  rw [body_eq] at h
  cases hc : startCall start with
  | put a =>
      rw [hc] at h
      cases queuePutLoop_cases h <;> cases hx
  | get a =>
      rw [hc] at h
      exact ⟨a, rfl, queueGetWait_cases h⟩

theorem returned_put {start : Start Call Request} {clock : Clock} {s : Shared} {o : Section}
    {status : Status} (h : program.body start clock s = .ok o)
    (hx : o.exit = .returned (.put status)) :
    ∃ a, startCall start = .put a ∧
      PutSection (startShared start s) a (startRemaining start clock) clock.now o := by
  rw [body_eq] at h
  cases hc : startCall start with
  | put a =>
      rw [hc] at h
      exact ⟨a, rfl, queuePutLoop_cases h⟩
  | get a =>
      rw [hc] at h
      cases queueGetWait_cases h <;> cases hx

theorem queueGetLoop_status (a : GetArgs) (fuel : ℕ) (st : GetState) (h : st.status = .success) :
    Yields (fun st' => st'.status ≠ .full ∧ st'.status ≠ .empty) (queueGetLoop a fuel st) := by
  induction fuel generalizing st with
  | zero =>
      refine Yields.ok ?_
      rw [h]
      simp
  | succ fuel ih =>
      rw [queueGetLoop]
      split
      · apply Yields.after
        intro r
        dsimp only
        split
        · exact Yields.ok (by simp)
        · refine Yields.after fun _ => Yields.after fun _ => Yields.after fun _ => ?_
          split
          · exact Yields.ok (by simp [h])
          · exact ih _ h
      · exact Yields.ok (by simp [h])

theorem empty_status {s : Shared} {a : GetArgs} {waitRemaining now : Timeval} {o : Section}
    {r : GetResult} (h : GetSection s a waitRemaining now o) (hx : o.exit = .returned (.get r)) :
    r.status = .empty ↔ s.queue.size = 0 := by
  cases h with
  | empty hsize hstop =>
      cases hx
      exact iff_of_true rfl hsize
  | wait hsize hblock htimer => cases hx
  | read hsize hloop =>
      cases hx
      exact iff_of_false (queueGetLoop_status a _ _ rfl _ hloop).2 hsize.ne'

/-- `Q_FULL` and `Q_EMPTY` are for calls that do not wait, or not any longer. -/
theorem givesUp_section {start : Start Call Request} {clock : Clock} {s : Shared} {o : Section}
    (h : program.body start clock s = .ok o) {res : Result} (hx : o.exit = .returned res)
    (hstatus : res.status = .full ∨ res.status = .empty) :
    (startCall start).block = false ∨ timerPositive (startRemaining start clock) = false := by
  cases res with
  | put status =>
      obtain ⟨a, hc, hsection⟩ := returned_put h hx
      rw [hc]
      cases hsection with
      | commit hfit hwrite =>
          cases hx
          rcases hstatus with hstatus | hstatus <;> cases hstatus
      | full hfit hstop => exact hstop
      | wait hfit hblock htimer => cases hx
  | get r =>
      obtain ⟨a, hc, hsection⟩ := returned_get h hx
      rw [hc]
      cases hsection with
      | empty hsize hstop => exact hstop
      | wait hsize hblock htimer => cases hx
      | read hsize hloop =>
          cases hx
          have hnone := queueGetLoop_status a _ _ rfl _ hloop
          rcases hstatus with hstatus | hstatus
          · exact absurd hstatus hnone.1
          · exact absurd hstatus hnone.2

section Waiters

@[simp] theorem waiters_addWaiter (s : Shared) (c k : Cond) (d : ℤ) :
    (s.addWaiter c d).queue.waiters k = s.queue.waiters k + if c = k then d else 0 := by
  cases c <;> cases k <;> simp [Shared.addWaiter, Queue.addWaiter, Queue.waiters]

theorem beginWait_waiters (s : Shared) (c : Call) (signalled : Option Cond)
    (waitTime now : Timeval) (k : Cond) :
    (beginWait s c signalled waitTime now).shared.queue.waiters k = s.queue.waiters k +
      ((beginWait s c signalled waitTime now).exit.phase.waitsOn program.cond k).toNat := by
  simp only [beginWait, waiters_addWaiter, Exit.phase, waitsOn_asleep, program]
  by_cases hk : c.cond = k <;> simp [hk]

theorem circularBufferWrite_waiters (s : Shared) (data : Bytes) (n : ℕ) (k : Cond) :
    Yields (fun s' => s'.queue.waiters k = s.queue.waiters k) (circularBufferWrite s data n) := by
  unfold circularBufferWrite
  dsimp only
  split
  all_goals
    repeat refine Yields.after fun _ => ?_
    refine Yields.ok ?_
    cases k <;> rfl

theorem circularBufferRead_waiters (s : Shared) (data : Bytes) (off n : ℕ) (pop : Bool)
    (k : Cond) :
    Yields (fun r => r.1.queue.waiters k = s.queue.waiters k)
      (circularBufferRead s data off n pop) := by
  unfold circularBufferRead
  dsimp only
  split
  all_goals
    repeat refine Yields.after fun _ => ?_
    split
    · refine Yields.ok ?_
      cases k <;> rfl
    · exact Yields.ok rfl

theorem writeMessages_waiters (s : Shared) (ms : List Bytes) (k : Cond) :
    Yields (fun s' => s'.queue.waiters k = s.queue.waiters k) (writeMessages s ms) := by
  induction ms generalizing s with
  | nil => exact Yields.ok rfl
  | cons m ms ih =>
      refine Yields.bind (circularBufferWrite_waiters s _ _ k) ?_
      intro s₁ h₁
      refine Yields.bind (circularBufferWrite_waiters s₁ _ _ k) ?_
      intro s₂ h₂ s' hs'
      rw [ih _ s' hs', ← h₁, ← h₂]
      cases k <;> rfl

theorem queueGetLoop_waiters (a : GetArgs) (fuel : ℕ) (st : GetState) (k : Cond) :
    Yields (fun st' => st'.shared.queue.waiters k = st.shared.queue.waiters k)
      (queueGetLoop a fuel st) := by
  induction fuel generalizing st with
  | zero => exact Yields.ok rfl
  | succ fuel ih =>
      rw [queueGetLoop]
      split
      · apply Yields.after
        intro r
        dsimp only
        split
        · exact Yields.ok rfl
        · refine Yields.after ?_
          intro _
          refine Yields.bind (circularBufferRead_waiters _ _ _ _ _ k) ?_
          intro r hr
          refine Yields.after ?_
          intro numElem
          have hs : ({ r.1.queue with numElem := numElem } : Queue).waiters k =
              st.shared.queue.waiters k := by rw [← hr]; cases k <;> rfl
          split
          · exact Yields.ok hs
          · intro st' hst'
            rw [ih _ st' hst', hs]
      · exact Yields.ok rfl

/-- A section moves the counters by its own thread's stay in a wait set. -/
theorem body_waiters {start : Start Call Request} {clock : Clock} {s : Shared} {o : Section}
    (h : program.body start clock s = .ok o) (k : Cond) :
    o.shared.queue.waiters k + (start.phase.waitsOn program.cond k).toNat =
      s.queue.waiters k + (o.exit.phase.waitsOn program.cond k).toNat := by
  have hstart : (startShared start s).queue.waiters k +
      (start.phase.waitsOn program.cond k).toNat = s.queue.waiters k := by
    cases start with
    | enter c => simp [startShared, Start.phase]
    | resume r =>
        simp only [startShared, waiters_addWaiter, Start.phase, waitsOn_woken, program]
        by_cases hk : r.call.cond = k <;> simp [hk]
  rw [body_eq] at h
  cases hc : startCall start with
  | put a =>
      rw [hc] at h
      cases queuePutLoop_cases h with
      | commit hfit hwrite =>
          rw [writeMessages_waiters _ _ k _ hwrite, hstart]
          simp [Exit.phase]
      | full hfit hstop =>
          rw [hstart]
          simp [Exit.phase]
      | wait hfit hblock htimer =>
          rw [beginWait_waiters, ← hstart]
          exact add_right_comm _ _ _
  | get a =>
      rw [hc] at h
      cases queueGetWait_cases h with
      | empty hsize hstop =>
          rw [hstart]
          simp [Exit.phase]
      | wait hsize hblock htimer =>
          rw [beginWait_waiters, ← hstart]
          exact add_right_comm _ _ _
      | read hsize hloop =>
          rw [queueGetLoop_waiters _ _ _ k _ hloop, hstart]
          simp [Exit.phase]

theorem startShared_waiters {start : Start Call Request} {k : Cond} (s : Shared)
    (h : (startCall start).cond ≠ k) :
    (startShared start s).queue.waiters k = s.queue.waiters k := by
  cases start with
  | enter c => rfl
  | resume r =>
      have hk : r.call.cond ≠ k := h
      simp only [startShared, waiters_addWaiter, if_neg hk, add_zero]

variable {T : Type} [Fintype T] [DecidableEq T]

/-- The counters of the queue count the threads inside `wait`. -/
def Counted (w : System T) : Prop := ∀ k, w.shared.queue.waiters k = w.waiting program.cond k

theorem Counted.step {w w' : System T} {e : Event T} (h : Counted w)
    (hstep : Step program w e w') : Counted w' := by
  intro k
  have hk := h k
  cases e with
  | crit t start clock o pick =>
      obtain ⟨-, hbody, hshared, -⟩ := hstep.crit_inv
      have hcounter := body_waiters hbody k
      have hcensus := hstep.waiting k
      rw [hshared]
      omega
  | wake t =>
      rw [hstep.wake_inv.1, hstep.wake_waiting, hk]

omit [DecidableEq T] in
theorem counted_init (M N : ℕ) (buffer : Bytes) : Counted (System.init T M N buffer) := by
  intro k
  have hzero : (System.init T M N buffer).waiting program.cond k = 0 := by
    by_contra hne
    obtain ⟨t, ht⟩ := (waiting_pos_iff _ _ _).mp (Nat.pos_of_ne_zero hne)
    cases ht
  rw [hzero]
  cases k <;> rfl

theorem counted_run {M N : ℕ} {buffer : Bytes} {moves : List (Move (System T) (Event T))}
    {w : System T} (h : Trace (Step program) (System.init T M N buffer) moves w) : Counted w :=
  h.invariant (fun _ _ hstep hpre => Counted.step hpre hstep) (fun _ _ => trivial)
    (counted_init M N buffer)

omit [DecidableEq T] in
theorem Counted.pos_iff {w : System T} (h : Counted w) (k : Cond) :
    0 < w.shared.queue.waiters k ↔ ∃ t, (w.phase t).waitsOn program.cond k = true := by
  rw [h k, ← waiting_pos_iff]
  exact Int.natCast_pos

theorem Counted.awake_of_signal {w w' : System T} (h : Counted w') {t : T}
    {start : Start Call Request} {clock : Clock} {o : Section} {pick : Option T}
    (hstep : Step program w (.crit t start clock o pick) w') {r : Result}
    (hx : o.exit = .returned r) {k : Cond} (hsignal : o.signalled = some k)
    (hpos : 0 < w'.shared.queue.waiters k) : ∃ v, (w'.phase v).wokenOn program.cond k = true := by
  obtain ⟨x, hxwait⟩ := (h.pos_iff k).mp hpos
  have hne : x ≠ t := by
    rintro rfl
    rw [hstep.crit_inv.2.2.2, hx] at hxwait
    cases hxwait
  obtain ⟨v, -, hv⟩ := hstep.awake_after_signal hsignal hne hxwait
  exact ⟨v, hv⟩

end Waiters

theorem asleep_before {T : Type} [DecidableEq T] {w w' : System T} {t u : T}
    {start : Start Call Request} {clock : Clock} {o : Section} {pick : Option T} {k : Cond}
    (hstep : Step program w (.crit t start clock o pick) w') (hk : (startCall start).cond ≠ k)
    (hu : (w'.phase u).asleepOn program.cond k = true) :
    u ≠ t ∧ (w.phase u).asleepOn program.cond k = true := by
  obtain ⟨-, hbody, -, hself⟩ := hstep.crit_inv
  have hne : u ≠ t := by
    rintro rfl
    rw [hself] at hu
    exact hk (exit_asleepOn hbody hu)
  exact ⟨hne, hstep.asleepOn hne hu⟩

section PutSteps

def PutArgs.givesUp (a : PutArgs) (waitRemaining : Timeval) : Bool :=
  !a.block || !timerPositive waitRemaining

variable {T : Type} [DecidableEq T]

/-- What a section of `queue_put` without room does: it leaves the ring alone and its thread
asleep or idle, and it signals a waiting consumer if it goes on waiting. -/
structure NoRoom (w w' : System T) (t : T) (a : PutArgs) (waitRemaining : Timeval)
    (o : Section) : Prop where
  room : ∀ n k, w'.shared.queue.canFit n k = w.shared.queue.canFit n k
  size : w'.shared.queue.size = w.shared.queue.size
  rests : (w'.phase t).isWoken = false
  silent : a.givesUp waitRemaining = true → o.signalled = none
  signals : a.givesUp waitRemaining = false →
    o.signalled = if w.shared.queue.notEmptyNWaiters > 0 then some .notEmpty else none

omit [DecidableEq T] in
theorem NoRoom.signalled_ne {w w' : System T} {t : T} {a : PutArgs} {waitRemaining : Timeval}
    {o : Section} (h : NoRoom w w' t a waitRemaining o) : o.signalled ≠ some .notFull := by
  cases hgives : a.givesUp waitRemaining with
  | true => simp [h.silent hgives]
  | false =>
      rw [h.signals hgives]
      split <;> simp

/-- A section of `queue_put` either commits its batch or has no room for it. -/
theorem put_step_cases {w w' : System T} {t : T} {start : Start Call Request} {a : PutArgs}
    {clock : Clock} {o : Section} {pick : Option T}
    (hstep : Step program w (.crit t start clock o pick) w') (hc : startCall start = .put a) :
    w.shared.queue.canFit (totalSize a.msgSizes) a.msgs.length = true ∧
      writeMessages (startShared start w.shared) a.msgs = .ok w'.shared ∧
      o.signalled = w'.shared.queue.signalAfterPut ∧ o.exit = .returned (.put .success) ∨
    w.shared.queue.canFit (totalSize a.msgSizes) a.msgs.length = false ∧
      o.exit ≠ .returned (.put .success) ∧
      NoRoom w w' t a (startRemaining start clock) o := by
  obtain ⟨-, hbody, hshared, hself⟩ := hstep.crit_inv
  rw [body_eq, hc] at hbody
  rw [← startShared_canFit start, hshared]
  cases queuePutLoop_cases hbody with
  | commit hfit hwrite => exact .inl ⟨hfit, hwrite, rfl, rfl⟩
  | full hfit hstop =>
      refine .inr ⟨hfit, by simp, ⟨?_, ?_, ?_, fun _ => rfl, ?_⟩⟩
      · intro n k
        rw [hshared, startShared_canFit]
      · rw [hshared, startShared_size]
      · rw [hself]
        rfl
      · intro hgives
        rw [PutArgs.givesUp, Bool.or_eq_false_iff, Bool.not_eq_false', Bool.not_eq_false'] at hgives
        simp [hgives] at hstop
  | wait hfit hblock htimer =>
      have hwaiters : (startShared start w.shared).queue.notEmptyNWaiters =
          w.shared.queue.notEmptyNWaiters :=
        startShared_waiters (k := .notEmpty) w.shared (by rw [hc]; simp [Call.cond])
      refine .inr ⟨hfit, by simp [beginWait], ⟨?_, ?_, ?_, ?_, ?_⟩⟩
      · intro n k
        rw [hshared, beginWait, Shared.addWaiter, canFit_addWaiter, startShared_canFit]
      · rw [hshared, beginWait, size_addWaiter, startShared_size]
      · rw [hself]
        rfl
      · intro hgives
        simp [PutArgs.givesUp, hblock, htimer] at hgives
      · intro _
        rw [← hwaiters]
        rfl

end PutSteps
end FasterFifo
