import FasterFifo.System

/-! Every exit of a section hands a wakeup on while consumers sleep in front of a non-empty queue,
except the `Q_FULL` of a woken producer: a run leaves no consumer behind exactly if no step takes
that exit as the last thread awake. -/
namespace FasterFifo
open CheckedMemory Transition Monitor

variable {T : Type} [Fintype T] [DecidableEq T]

/-- Nobody is due to run: every thread inside a call sits in a wait set. -/
def Quiescent (w : System T) : Prop := ∀ t, (w.phase t).isWoken = false

def Sleeping (w : System T) (k : Cond) : Prop := ∃ t, (w.phase t).asleepOn program.cond k = true

instance (w : System T) : Decidable (Quiescent w) := inferInstanceAs (Decidable (∀ _, _))

instance (w : System T) (k : Cond) : Decidable (Sleeping w k) :=
  inferInstanceAs (Decidable (∃ _, _))

/-- No consumer is asleep in front of a non-empty queue with nobody due to wake it. -/
def ConsumersServed (w : System T) : Prop :=
  Quiescent w → 0 < w.shared.queue.size → ¬Sleeping w .notEmpty

/-- A woken producer finds no room and gives up in front of a non-empty queue while
a consumer sleeps and no other thread is awake. -/
def StrandsConsumer (m : Move (System T) (Event T)) : Prop :=
  match m.label with
  | .crit t (.resume ⟨.put a, waitUntil⟩) clock _ _ =>
      m.pre.shared.queue.canFit (totalSize a.msgSizes) a.msgs.length = false ∧
        a.givesUp (timersub waitUntil clock.woke) = true ∧
        0 < m.pre.shared.queue.size ∧ Sleeping m.pre .notEmpty ∧
        ∀ u, u ≠ t → (m.pre.phase u).isWoken = false
  | _ => False

instance (m : Move (System T) (Event T)) : Decidable (StrandsConsumer m) :=
  match m with
  | ⟨_, .crit _ (.resume ⟨.put _, _⟩) _ _ _, _⟩ => inferInstanceAs (Decidable (_ ∧ _ ∧ _ ∧ _ ∧ _))
  | ⟨_, .crit _ (.resume ⟨.get _, _⟩) _ _ _, _⟩ => isFalse id
  | ⟨_, .crit _ (.enter _) _ _ _, _⟩ => isFalse id
  | ⟨_, .wake _, _⟩ => isFalse id

/-- A thread is awake whenever consumers sleep in front of a non-empty queue. -/
def ConsumerBaton (w : System T) : Prop :=
  0 < w.shared.queue.size → Sleeping w .notEmpty → ∃ t, (w.phase t).isWoken = true

omit [Fintype T] [DecidableEq T] in
theorem consumersServed_iff (w : System T) : ConsumersServed w ↔ ConsumerBaton w := by
  constructor
  · intro h hsize hsleep
    by_contra hnone
    exact h (fun t => Bool.eq_false_iff.mpr fun ht => hnone ⟨t, ht⟩) hsize hsleep
  · intro h hquiet hsize hsleep
    obtain ⟨t, ht⟩ := h hsize hsleep
    rw [hquiet t] at ht
    cases ht

section Step
variable {w w' : System T} {t u : T} {start : Start Call Request} {clock : Clock} {o : Section}
  {pick : Option T}

theorem awake_after_get (hcount : Counted w')
    (hstep : Step program w (.crit t start clock o pick) w') {n : ℕ}
    (ho : o.signalled = w'.shared.queue.signalAfterGet n) {r : Result} (hx : o.exit = .returned r)
    (hsize : 0 < w'.shared.queue.size) (hsleeping : Sleeping w' .notEmpty) :
    ∃ v, (w'.phase v).isWoken = true := by
  obtain ⟨u, hu⟩ := hsleeping
  by_cases hfull : n > 0 ∧ w'.shared.queue.notFullNWaiters > 0
  · have hsignal : o.signalled = some .notFull := by rw [ho, Queue.signalAfterGet, if_pos hfull]
    obtain ⟨v, hv⟩ := hcount.awake_of_signal hstep hx hsignal hfull.2
    exact ⟨v, isWoken_of_wokenOn hv⟩
  · have hpos := (hcount.pos_iff .notEmpty).mpr ⟨u, waitsOn_of_asleepOn hu⟩
    have hsignal : o.signalled = some .notEmpty := by
      rw [ho, Queue.signalAfterGet, if_neg hfull, if_pos ⟨hsize, hpos⟩]
    obtain ⟨v, hv⟩ := hcount.awake_of_signal hstep hx hsignal hpos
    exact ⟨v, isWoken_of_wokenOn hv⟩

/-- A section of `queue_put` hands the baton on, unless it strands a consumer. -/
theorem ConsumerBaton.put_step {a : PutArgs} (hcount : Counted w) (hbaton : ConsumerBaton w)
    (hstep : Step program w (.crit t start clock o pick) w') (hc : startCall start = .put a)
    (hgood : ¬StrandsConsumer ⟨w, .crit t start clock o pick, w'⟩) : ConsumerBaton w' := by
  rintro hsize ⟨u, hu⟩
  obtain ⟨hphase, hbody, -, hself⟩ := hstep.crit_inv
  have hcount' := hcount.step hstep
  have hne : u ≠ t := by
    rintro rfl
    rw [hself] at hu
    have hcond := exit_asleepOn hbody hu
    rw [hc] at hcond
    cases hcond
  have hasleep := hstep.asleepOn hne hu
  rcases put_step_cases hstep hc with ⟨-, -, ho, hx⟩ | ⟨hfit, -, hno⟩
  · have hpos := (hcount'.pos_iff .notEmpty).mpr ⟨u, waitsOn_of_asleepOn hu⟩
    obtain ⟨v, hv⟩ := hcount'.awake_of_signal hstep hx (ho.trans (if_pos hpos)) hpos
    exact ⟨v, isWoken_of_wokenOn hv⟩
  · rw [hno.size] at hsize
    cases hgives : a.givesUp (startRemaining start clock) with
    | false =>
        -- the consumer signalled before the wait is awake now
        have hpos := (hcount.pos_iff .notEmpty).mpr ⟨u, waitsOn_of_asleepOn hasleep⟩
        obtain ⟨v, -, hv⟩ := hstep.wakes_one ((hno.signals hgives).trans (if_pos hpos)) hasleep
        exact ⟨v, isWoken_of_wokenOn hv⟩
    | true =>
        suffices hother : ∃ v, v ≠ t ∧ (w.phase v).isWoken = true by
          obtain ⟨v, hv, hw⟩ := hother
          exact ⟨v, hstep.isWoken hv hw⟩
        cases start with
        | enter c =>
            obtain ⟨v, hv⟩ := hbaton hsize ⟨u, hasleep⟩
            refine ⟨v, ?_, hv⟩
            rintro rfl
            rw [hphase] at hv
            cases hv
        | resume r =>
            obtain ⟨c, waitUntil⟩ := r
            obtain rfl : c = .put a := hc
            by_contra hnone
            refine hgood ⟨hfit, hgives, hsize, ⟨u, hasleep⟩, ?_⟩
            intro v hv
            exact Bool.eq_false_iff.mpr fun hw => hnone ⟨v, hv, hw⟩

theorem ConsumerBaton.get_step {a : GetArgs} (hcount : Counted w)
    (hstep : Step program w (.crit t start clock o pick) w') (hc : startCall start = .get a) :
    ConsumerBaton w' := by
  intro hsize hsleeping
  obtain ⟨-, hbody, hshared, -⟩ := hstep.crit_inv
  rw [body_eq, hc] at hbody
  cases queueGetWait_cases hbody with
  | empty hzero hstop =>
      rw [hshared] at hsize
      exact absurd hzero hsize.ne'
  | wait hzero hblock htimer =>
      rw [hshared, beginWait, size_addWaiter] at hsize
      exact absurd hzero hsize.ne'
  | @read st hpos hloop =>
      have ho : st.shared.queue.signalAfterGet st.messagesRead =
          w'.shared.queue.signalAfterGet st.messagesRead := by rw [hshared]
      exact awake_after_get (hcount.step hstep) hstep ho rfl hsize hsleeping

theorem ConsumerBaton.step {e : Event T} (hcount : Counted w) (hbaton : ConsumerBaton w)
    (hstep : Step program w e w') (hgood : ¬StrandsConsumer ⟨w, e, w'⟩) : ConsumerBaton w' := by
  cases e with
  | wake t =>
      intro _ _
      obtain ⟨p, -, ht⟩ := hstep.wake_self
      exact ⟨t, by rw [ht]; rfl⟩
  | crit t start clock o pick =>
      cases hc : startCall start with
      | put a => exact hbaton.put_step hcount hstep hc hgood
      | get a => exact ConsumerBaton.get_step hcount hstep hc

omit [Fintype T] in
/-- After a stranding step nobody is due to wake the consumer. -/
theorem StrandsConsumer.not_served {m : Move (System T) (Event T)} (h : StrandsConsumer m)
    (hstep : Step program m.pre m.label m.post) : ¬ConsumersServed m.post := by
  obtain ⟨w, e, w'⟩ := m
  simp only [StrandsConsumer] at h
  split at h
  · rename_i t a waitUntil clock o pick
    obtain ⟨hfit, hgives, hsize, ⟨u, hu⟩, halone⟩ := h
    dsimp only at hstep hfit hsize hu halone
    have hphase := hstep.crit_inv.1
    have hne : u ≠ t := by
      rintro rfl
      rw [hphase] at hu
      cases hu
    rcases put_step_cases hstep rfl with ⟨hfit', -⟩ | ⟨-, -, hno⟩
    · rw [hfit] at hfit'
      cases hfit'
    · have hsilent := hno.silent hgives
      intro hserved
      refine hserved ?_ (hno.size ▸ hsize) ⟨u, by rw [hstep.silent hsilent hne]; exact hu⟩
      intro v
      rcases eq_or_ne v t with rfl | hv
      · exact hno.rests
      · rw [hstep.silent hsilent hv]
        exact halone v hv
  · exact h.elim

/-- A run leaves no consumer asleep in front of a non-empty queue, in any of its
states, if and only if none of its steps strands one. -/
theorem consumers_served_iff {M N : ℕ} {buffer : Bytes} {moves : List (Move (System T) (Event T))}
    (h : Trace (Step program) (System.init T M N buffer) moves w) :
    (∀ v ∈ visited (System.init T M N buffer) moves, ConsumersServed v) ↔
      ∀ m ∈ moves, ¬StrandsConsumer m := by
  constructor
  · intro hall m hm hbad
    obtain ⟨before, after, -, -, hstep⟩ := h.of_mem hm
    exact hbad.not_served hstep (hall _ (List.mem_cons_of_mem _ (List.mem_map_of_mem hm)))
  · intro hgood v hv
    have hinit : ConsumerBaton (System.init T M N buffer) :=
      fun hsize => absurd hsize (Nat.lt_irrefl 0)
    have hkeep := h.invariant_visited (I := fun v => Counted v ∧ ConsumerBaton v)
      (fun m hm hstep hI => ⟨hI.1.step hstep, hI.2.step hI.1 hstep hm⟩) hgood
      ⟨counted_init M N buffer, hinit⟩
    exact (consumersServed_iff v).mpr (hkeep v hv).2

end Step

/-- Two producers and two consumers, frames of nine bytes in a ring of 64. -/
def overtakingSchedule (fast slow first second : T) : List (Action T Call Clock) :=
  let early : Clock := ⟨⟨0, 0⟩, ⟨0, 0⟩⟩
  let put (n : ℕ) := Call.put ⟨List.replicate n [0], true, 1000000⟩
  let get (k : ℕ) := Call.get ⟨List.replicate 64 0, k, 64, true, 10000000⟩
  -- the slow producer waits for room, is woken by a drain, and is overtaken
  [.enter fast (put 6) early none, .enter slow (put 4) early none,
    .enter first (get 10) early (some slow), .enter first (get 1) early none,
    .enter second (get 1) early none, .enter fast (put 5) early (some first),
    .resume first early none]

/-- The slow producer finds its time used up. -/
def strandingSchedule (fast slow first second : T) : List (Action T Call Clock) :=
  overtakingSchedule fast slow first second ++ [.resume slow ⟨⟨2, 0⟩, ⟨2, 0⟩⟩ none]

/-- The slow producer has time left, waits again and passes its wakeup on. -/
def passingSchedule (fast slow first second : T) : List (Action T Call Clock) :=
  overtakingSchedule fast slow first second ++
    [.resume slow ⟨⟨0, 0⟩, ⟨0, 0⟩⟩ (some second), .resume second ⟨⟨0, 0⟩, ⟨0, 0⟩⟩ (some slow)]

theorem passing_run :
    ∃ moves w, Trace (Step program) (System.init (Fin 4) 64 10 (List.replicate 64 0)) moves w ∧
      (∃ m ∈ moves, Sleeping m.post .notEmpty) ∧ ∀ m ∈ moves, ¬StrandsConsumer m := by
  have hrun : (program.run (System.init (Fin 4) 64 10 (List.replicate 64 0))
      (passingSchedule 0 1 2 3)).any (fun r => decide
        ((∃ m ∈ r.1, Sleeping m.post .notEmpty) ∧ ∀ m ∈ r.1, ¬StrandsConsumer m)) = true := by
    decide +kernel
  obtain ⟨moves, w, htrace, hw⟩ := reach_of_run hrun
  exact ⟨moves, w, htrace, of_decide_eq_true hw⟩

theorem stranding_run :
    ∃ moves w, Trace (Step program) (System.init (Fin 4) 64 10 (List.replicate 64 0)) moves w ∧
      Quiescent w ∧ 0 < w.shared.queue.size ∧ Sleeping w .notEmpty := by
  have hrun : (program.run (System.init (Fin 4) 64 10 (List.replicate 64 0))
      (strandingSchedule 0 1 2 3)).any (fun r => decide
        (Quiescent r.2 ∧ 0 < r.2.shared.queue.size ∧ Sleeping r.2 .notEmpty)) = true := by
    decide +kernel
  obtain ⟨moves, w, htrace, hw⟩ := reach_of_run hrun
  exact ⟨moves, w, htrace, of_decide_eq_true hw⟩

/-- Where the slow producer waits again all consumers are served; where it gives up, the step that
strands the second consumer is on record. -/
theorem consumers_served_iff_stranding :
    (∃ moves w, Trace (Step program) (System.init (Fin 4) 64 10 (List.replicate 64 0)) moves w ∧
      (∃ m ∈ moves, Sleeping m.post .notEmpty) ∧ (∀ m ∈ moves, ¬StrandsConsumer m) ∧
      ∀ v ∈ visited (System.init (Fin 4) 64 10 (List.replicate 64 0)) moves, ConsumersServed v) ∧
    ∃ moves w, Trace (Step program) (System.init (Fin 4) 64 10 (List.replicate 64 0)) moves w ∧
      ¬ConsumersServed w ∧ ∃ m ∈ moves, StrandsConsumer m := by
  constructor
  · obtain ⟨moves, w, htrace, hsleeping, hnone⟩ := passing_run
    exact ⟨moves, w, htrace, hsleeping, hnone, (consumers_served_iff htrace).mpr hnone⟩
  · obtain ⟨moves, w, htrace, hquiet, hsize, hsleeping⟩ := stranding_run
    have hleft : ¬ConsumersServed w := fun hserved => hserved hquiet hsize hsleeping
    refine ⟨moves, w, htrace, hleft, ?_⟩
    by_contra hnone
    have hserved := (consumers_served_iff htrace).mpr fun m hm hstrands => hnone ⟨m, hm, hstrands⟩
    exact hleft (hserved w htrace.mem_visited)

theorem consumer_left_asleep :
    ¬∀ moves w, Trace (Step program) (System.init (Fin 4) 64 10 (List.replicate 64 0)) moves w →
      ConsumersServed w := by
  intro hall
  obtain ⟨moves, w, htrace, hquiet, hsize, hsleeping⟩ := stranding_run
  exact hall moves w htrace hquiet hsize hsleeping

end FasterFifo
