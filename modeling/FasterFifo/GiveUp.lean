import FasterFifo.Python

/-! A blocking `queue_get` returns `Q_EMPTY` only when its time is up. The retry of `get_many` is
not a blocking call: it raises `Empty` as soon as other consumers have drained the queue. -/
namespace FasterFifo
open CheckedMemory Framing Transition Monitor

variable {T α : Type}

/-- A section of a blocking `queue_get` whose remaining time is not positive. -/
def TimedOut : Event T → Prop
  | .crit _ start clock _ _ =>
      match startCall start with
      | .get a => a.block = true ∧ timerPositive (startRemaining start clock) = false
      | .put _ => False
  | .wake _ => False

instance (e : Event T) : Decidable (TimedOut e) :=
  match e with
  | .crit _ (.enter (.get _)) _ _ _ => inferInstanceAs (Decidable (_ ∧ _))
  | .crit _ (.resume ⟨.get _, _⟩) _ _ _ => inferInstanceAs (Decidable (_ ∧ _))
  | .crit _ (.enter (.put _)) _ _ _ => isFalse id
  | .crit _ (.resume ⟨.put _, _⟩) _ _ _ => isFalse id
  | .wake _ => isFalse id

/-- If a blocking `get_many` with a positive timeout raises `Empty`, its time is used up. -/
def EmptyJustified (m : Move (PySystem T α) (PyEvent T α)) : Prop :=
  match m.label with
  | .get _ caller _ e outcome =>
      outcome = .raised .empty → caller.block = true → 0 < caller.timeout → TimedOut e
  | _ => True

instance [DecidableEq α] (m : Move (PySystem T α) (PyEvent T α)) : Decidable (EmptyJustified m) :=
  match m with
  | ⟨_, .get _ _ _ _ _, _⟩ => inferInstanceAs (Decidable (_ → _ → _ → _))
  | ⟨_, .putRaise _ _ _, _⟩ => isTrue trivial
  | ⟨_, .put _ _ _ _, _⟩ => isTrue trivial
  | ⟨_, .wake _, _⟩ => isTrue trivial

/-- A retry on behalf of a blocking `get_many` with a positive timeout finds the queue empty. -/
def RetriesEmpty (m : Move (PySystem T α) (PyEvent T α)) : Prop :=
  match m.label with
  | .get t caller _ _ _ =>
      caller.block = true ∧ 0 < caller.timeout ∧ m.pre.world.shared.queue.size = 0 ∧
        match m.pre.activity t with
        | .retrying _ _ => True
        | _ => False
  | _ => False

section Status

theorem parseLoop_ne_empty (S : Serializer α) (msgBuffer : Bytes) (n offset : ℕ) :
    parseLoop S msgBuffer n offset ≠ .error .empty := by
  induction n generalizing offset with
  | zero => simp [parseLoop]
  | succ n ih =>
      rw [parseLoop]
      split
      · simp
      · dsimp only
        split
        · simp
        · intro h
          cases hrest : parseLoop S msgBuffer n (offset + sizeofSizeT + sizeT.decode
              ((msgBuffer.drop offset).take sizeofSizeT)) with
          | error e =>
              rw [hrest] at h
              cases h
              exact ih _ hrest
          | ok r =>
              rw [hrest] at h
              cases h

theorem finishGet_empty (S : Serializer α) (caller current : GetManyArgs) (r : GetResult) :
    (finishGet S caller current r).outcome = .raised .empty ↔ r.status = .empty := by
  unfold finishGet
  split
  · rename_i h
    simp [h.1]
  · split
    · rename_i h
      have hne : r.status ≠ .empty := by rcases h with h | h <;> simp [h]
      refine iff_of_false ?_ hne
      dsimp only
      split
      · simp
      · split
        · rename_i e he
          rintro ⟨⟩
          unfold parseMessages at he
          split at he
          · cases he
            exact parseLoop_ne_empty _ _ _ _ ‹_›
          · split at he <;> cases he
        · split <;> simp
    · split
      · rename_i h
        simp [h]
      · rename_i h
        simp [h, unexpectedStatus]

end Status

section Runs
variable [DecidableEq T]

theorem pending_blocks {w₀ w : System T} {moves : List (Move (System T) (Event T))}
    (h : Trace (Step program) w₀ moves w) (h₀ : ∀ t, w₀.phase t = .idle) {t : T} {r : Request}
    (hr : w.Pending t r) : r.call.block = true := by
  induction h generalizing r with
  | nil => rcases hr with hr | hr <;> rw [h₀] at hr <;> cases hr
  | snoc htrace hstep ih =>
      rename_i e
      cases e with
      | wake u => exact ih (hstep.wake_pending hr)
      | crit u start clock o pick =>
          rcases hstep.pending hr with ⟨-, hold⟩ | ⟨-, hnew⟩
          · exact ih hold
          · have hbody := hstep.crit_inv.2.1
            rw [waiting_call hbody hnew]
            exact (waiting_section hbody hnew).2.1

/-- A section of a `get_many` that raises `Empty`. -/
theorem raised_empty {S : Serializer α} {caller current : GetManyArgs} {recv : Option Bytes}
    {start : Start Call Request} {clock : Clock} {s : Shared} {o : Section} {e : PyEnd α}
    (hbody : program.body start clock s = .ok o)
    (hend : getEnd S caller current recv o.exit = some e) (hraised : e.outcome = .raised .empty) :
    s.queue.size = 0 ∧ ∃ a, startCall start = .get a ∧
      (a.block = false ∨ timerPositive (startRemaining start clock) = false) := by
  unfold getEnd at hend
  split at hend
  · cases hend
    cases hraised
  · rename_i r hx
    cases hend
    obtain ⟨a, hc, hsection⟩ := returned_get hbody hx
    have hempty : r.status = .empty := (finishGet_empty S caller current r).mp hraised
    have hzero := (empty_status hsection hx).mp hempty
    have hstop := givesUp_section hbody hx (.inr hempty)
    rw [startShared_size] at hzero
    rw [hc] at hstop
    exact ⟨hzero, a, hc, hstop⟩
  · cases hend

theorem raises_empty {S : Serializer α} {caller current : GetManyArgs} {recv : Option Bytes}
    {a : GetArgs} {clock : Clock} {s : Shared} {o : Section} {e : PyEnd α}
    (hbody : program.body (.enter (.get a)) clock s = .ok o) (hblock : a.block = false)
    (hend : getEnd S caller current recv o.exit = some e) (hsize : s.queue.size = 0) :
    e.outcome = .raised .empty := by
  rw [body_eq] at hbody
  cases queueGetWait_cases hbody with
  | empty _ hstop =>
      cases hend
      exact (finishGet_empty S caller current _).mpr rfl
  | wait _ hblock' _ => rw [hblock] at hblock'; cases hblock'
  | read hpos _ => exact absurd hsize (Nat.ne_of_gt hpos)

variable {S : Serializer α} {X : ℕ}

/-- At one step: `Empty` is raised early exactly by a retry that finds the queue empty. -/
theorem step_justified {m : Move (PySystem T α) (PyEvent T α)}
    (hstep : PyStep S X m.pre m.label m.post)
    (hblocks : ∀ t r, m.pre.world.Pending t r → r.call.block = true) :
    EmptyJustified m ↔ ¬RetriesEmpty m := by
  obtain ⟨p, label, q⟩ := m
  dsimp only at hstep hblocks
  cases hstep with
  | putRaise hidle hprepare => exact iff_of_true trivial id
  | putEnter _ _ _ _ => exact iff_of_true trivial id
  | putResume _ _ _ => exact iff_of_true trivial id
  | wake _ => exact iff_of_true trivial id
  | getEnter hidle hstep hend =>
      refine iff_of_true ?_ ?_
      · intro hraised hblock _
        obtain ⟨-, a, hc, hstop⟩ := raised_empty hstep.crit_inv.2.1 hend hraised
        cases hc
        exact ⟨hblock, hstop.resolve_left (by simp [hblock])⟩
      · rintro ⟨-, -, -, hretrying⟩
        dsimp only at hretrying
        rw [hidle] at hretrying
        exact hretrying
  | getRetry hretrying hargs hstep hend =>
      subst hargs
      constructor
      · rintro h ⟨hblock, htimeout, hsize, -⟩
        have hraised := raises_empty hstep.crit_inv.2.1 rfl hend hsize
        exact absurd (h hraised hblock htimeout).1 (by simp [getManyNowaitArgs])
      · intro h hraised hblock htimeout
        obtain ⟨hsize, -⟩ := raised_empty hstep.crit_inv.2.1 hend hraised
        refine absurd ⟨hblock, htimeout, hsize, ?_⟩ h
        rw [hretrying]
        trivial
  | getResume hgetting hstep hend =>
      refine iff_of_true ?_ ?_
      · intro hraised _ _
        obtain ⟨-, a, hc, hstop⟩ := raised_empty hstep.crit_inv.2.1 hend hraised
        have hblock := hblocks _ _ (.inr hstep.crit_inv.1)
        change (startCall (.resume _)).block = true at hblock
        rw [hc, Call.block] at hblock
        simp only [TimedOut, hc]
        exact ⟨hblock, hstop.resolve_left (by simp [hblock])⟩
      · rintro ⟨-, -, -, hretrying⟩
        dsimp only at hretrying
        rw [hgetting] at hretrying
        exact hretrying

/-- In a run, every `Empty` of a blocking `get_many` is justified by its timeout exactly when
no retry on behalf of one finds the queue empty. -/
theorem empty_justified_iff {M N : ℕ} {buffer : Bytes} {recv : T → Option Bytes}
    {q : PySystem T α} {moves : List (Move (PySystem T α) (PyEvent T α))}
    (h : Trace (PyStep S X) (PySystem.init M N buffer recv) moves q) :
    (∀ m ∈ moves, EmptyJustified m) ↔ ∀ m ∈ moves, ¬RetriesEmpty m := by
  have hmove : ∀ m ∈ moves, EmptyJustified m ↔ ¬RetriesEmpty m := by
    intro m hm
    obtain ⟨before, after, -, hbefore, hstep⟩ := h.of_mem hm
    exact step_justified hstep fun t r => pending_blocks (python_trace hbefore) (fun _ => rfl)
  constructor
  · intro hall m hm
    exact (hmove m hm).mp (hall m hm)
  · intro hall m hm
    exact (hmove m hm).mpr (hall m hm)

end Runs

/-- Every object is pickled to 6000 bytes. -/
def bulkySerializer : Serializer Unit where
  dumps _ := some (List.replicate 6000 0)
  loads _ := some ()

/-- Two consumers find their receive buffers too small for the only message; one of them
retries first. -/
def retrySchedule (producer early late : T) : List (PyAction T Unit) :=
  let clock : Clock := ⟨⟨0, 0⟩, ⟨0, 0⟩⟩
  [.putMany producer (putArgs () true defaultTimeout) clock none,
    .getMany late (getArgs true defaultTimeout) clock none,
    .getMany early (getArgs true defaultTimeout) clock none,
    .retry early clock none, .retry late clock none]

def PyEvent.raisesEmpty : PyEvent T α → Bool
  | .get _ _ _ _ (.raised .empty) => true
  | _ => false

/-- The first of them retries alone, and then waits in vain for another message. -/
def waitingSchedule (producer early late : T) : List (PyAction T Unit) :=
  let args := getArgs true defaultTimeout
  (retrySchedule producer early late).take 4 ++
    [.getMany early args ⟨⟨0, 0⟩, ⟨0, 0⟩⟩ none, .wake early,
      .resume early ⟨⟨10, 0⟩, ⟨10, 0⟩⟩ none]

section Retry

theorem waiting_run :
    ∃ (moves : List (Move (PySystem (Fin 3) Unit) (PyEvent (Fin 3) Unit)))
      (q : PySystem (Fin 3) Unit),
      Trace (PyStep bulkySerializer 10000)
        (PySystem.init 10000 10 (List.replicate 10000 0) fun _ => none) moves q ∧
      (∀ m ∈ moves, EmptyJustified m) ∧ ∃ m ∈ moves, m.label.raisesEmpty = true := by
  have hrun : ((PySystem.init 10000 10 (List.replicate 10000 0) fun _ => none :
      PySystem (Fin 3) Unit).run bulkySerializer 10000 (waitingSchedule 0 1 2)).any
      (fun r => decide ((∀ m ∈ r.1, EmptyJustified m) ∧
        ∃ m ∈ r.1, m.label.raisesEmpty = true)) = true := by decide +kernel
  obtain ⟨moves, q, htrace, hany⟩ := pyReach_of_run hrun
  exact ⟨moves, q, htrace, of_decide_eq_true hany⟩

theorem retry_run :
    ∃ (moves : List (Move (PySystem (Fin 3) Unit) (PyEvent (Fin 3) Unit)))
      (q : PySystem (Fin 3) Unit),
      Trace (PyStep bulkySerializer 10000)
        (PySystem.init 10000 10 (List.replicate 10000 0) fun _ => none) moves q ∧
      ∃ m ∈ moves, ¬EmptyJustified m := by
  have hrun : ((PySystem.init 10000 10 (List.replicate 10000 0) fun _ => none :
      PySystem (Fin 3) Unit).run bulkySerializer 10000 (retrySchedule 0 1 2)).any
      (fun r => r.1.any fun m => !decide (EmptyJustified m)) = true := by decide +kernel
  obtain ⟨moves, q, htrace, hany⟩ := pyReach_of_run hrun
  obtain ⟨m, hm, hfails⟩ := List.any_eq_true.mp hany
  exact ⟨moves, q, htrace, m, hm, by simpa using hfails⟩

theorem retry_gives_up :
    ¬∀ (moves : List (Move (PySystem (Fin 3) Unit) (PyEvent (Fin 3) Unit)))
      (q : PySystem (Fin 3) Unit),
      Trace (PyStep bulkySerializer 10000)
        (PySystem.init 10000 10 (List.replicate 10000 0) fun _ => none) moves q →
      ∀ m ∈ moves, EmptyJustified m := by
  intro hall
  obtain ⟨moves, q, htrace, m, hm, hfails⟩ := retry_run
  exact hfails (hall moves q htrace m hm)

/-- No `Empty` comes too early where no retry finds the queue empty, and where one does, one
comes too early. -/
theorem empty_justified_iff_retry :
    (∃ (moves : List (Move (PySystem (Fin 3) Unit) (PyEvent (Fin 3) Unit)))
      (q : PySystem (Fin 3) Unit),
      Trace (PyStep bulkySerializer 10000)
        (PySystem.init 10000 10 (List.replicate 10000 0) fun _ => none) moves q ∧
      (∃ m ∈ moves, m.label.raisesEmpty = true) ∧ (∀ m ∈ moves, EmptyJustified m) ∧
      ∀ m ∈ moves, ¬RetriesEmpty m) ∧
    ∃ (moves : List (Move (PySystem (Fin 3) Unit) (PyEvent (Fin 3) Unit)))
      (q : PySystem (Fin 3) Unit),
      Trace (PyStep bulkySerializer 10000)
        (PySystem.init 10000 10 (List.replicate 10000 0) fun _ => none) moves q ∧
      (∃ m ∈ moves, ¬EmptyJustified m) ∧ ∃ m ∈ moves, RetriesEmpty m := by
  constructor
  · obtain ⟨moves, q, htrace, hjustified, hraises⟩ := waiting_run
    exact ⟨moves, q, htrace, hraises, hjustified, (empty_justified_iff htrace).mp hjustified⟩
  · obtain ⟨moves, q, htrace, m, hm, hfails⟩ := retry_run
    refine ⟨moves, q, htrace, ⟨m, hm, hfails⟩, ?_⟩
    by_contra hnone
    have hjustified := (empty_justified_iff htrace).mpr fun m hm hempty => hnone ⟨m, hm, hempty⟩
    exact hfails (hjustified m hm)

end Retry
end FasterFifo
