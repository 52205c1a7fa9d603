import FasterFifo.Contracts

/-! The fields of the queue object follow from what has been stored, what has been taken and who
waits, and signals are given only where another thread waits. -/
namespace FasterFifo
open Transition Monitor
open BoundedFifo (total total_append)

variable {T : Type} {M N : ℕ}

section Positions
variable {s : Shared} {f : MessageStore M N} {start : Start Call Request} {clock : Clock}
  {o : Section}

/-- A section moves the head past the messages that it delivers. -/
theorem section_head (t : T) (pick : Option T) (h : Represents s f)
    (haddr : (startCall start).Addressable) (hbody : program.body start clock s = .ok o) :
    (o.shared.queue.head = s.queue.head ∧ delivered (.crit t start clock o pick : Event T) = []) ∨
      o.shared.queue.head =
        (s.queue.head + total msgWeight (delivered (.crit t start clock o pick : Event T))) % M := by
  have hstart := h.startShared start
  have hring := SameRing.startShared start s
  rw [body_eq] at hbody
  cases hc : startCall start with
  | put a =>
      rw [hc] at hbody haddr
      refine .inl ⟨?_, by rw [delivered, delivery, hc]; rfl⟩
      cases queuePutLoop_cases hbody with
      | commit hfit hwrite =>
          obtain ⟨-, -, hkept⟩ := commit_spec hstart haddr hfit hwrite
          exact hkept.head.trans hring.head
      | full hfit hstop => exact hring.head
      | wait hfit hblock htimer => exact hring.head
  | get a =>
      rw [hc] at hbody
      cases queueGetWait_cases hbody with
      | empty hsize hstop => exact .inl ⟨hring.head, by rw [delivered, delivery, hc]; rfl⟩
      | wait hsize hblock htimer => exact .inl ⟨hring.head, by rw [delivered, delivery, hc]; rfl⟩
      | read hsize hloop =>
          obtain ⟨-, rfl, -⟩ := read_spec hstart hsize hloop
          right
          rw [delivered, delivery, hc]
          simp only [Option.bind_some, served_messages hstart, Option.getD_some]
          have hmoved : ((a.start (startShared start s)).served a f.items).shared.queue.head =
              ((startShared start s).queue.head + total msgWeight
                (f.items.take (a.serves (a.start (startShared start s)) f.items))) %
                (startShared start s).queue.maxSizeBytes := rfl
          rw [hmoved, hring.head, hstart.capacity]

end Positions

section Runs
variable [DecidableEq T] {buffer : Bytes} {moves : List (Move (System T) (Event T))} {w : System T}

theorem head_at (h : BoundedRun M N buffer moves w) :
    w.shared.queue.head = total msgWeight (moves.flatMap fun m => delivered m.label) % M := by
  obtain ⟨hcapacity, hlength, htrace, hbounded⟩ := h
  induction htrace with
  | nil => exact (Nat.zero_mod _).symm
  | @snoc w w' moves e htrace hstep ih =>
      have hbefore := fun m hm => hbounded m (List.mem_append_left _ hm)
      have hlast : BoundedEvent e := hbounded _ (List.mem_append_right _ List.mem_cons_self)
      have hhead := ih hbefore
      rw [List.flatMap_append, List.flatMap_singleton]
      cases e with
      | wake t =>
          rw [hstep.wake_inv.1, hhead]
          exact congrArg (total msgWeight · % M) (List.append_nil _).symm
      | crit t start clock o pick =>
          have hrun : BoundedRun M N buffer moves w := ⟨hcapacity, hlength, htrace, hbefore⟩
          obtain ⟨f, hf⟩ := hrun.sound
          obtain ⟨hphase, hbody, hshared, -⟩ := hstep.crit_inv
          have haddr := (hf.start_call hphase hlast).addressable
          rw [hshared]
          rcases section_head t pick hf.represents haddr hbody with ⟨hsame, hnone⟩ | hmoved
          · rw [hsame, hnone, List.append_nil, hhead]
          · rw [hmoved, hhead, Nat.mod_add_mod, total_append]

/-- The fields of the queue object are what its history makes them: head and tail are where all
the bytes taken and all the bytes stored lead around the ring, size and count are what is stored and
not yet taken, and the waiter counters are the numbers of threads inside `wait`. -/
theorem fields_from_history [Fintype T] (h : BoundedRun M N buffer moves w) :
    let stored := moves.flatMap fun m => committed m.label
    let taken := moves.flatMap fun m => delivered m.label
    w.shared.queue.head = total msgWeight taken % M ∧
      w.shared.queue.tail = total msgWeight stored % M ∧
      total msgWeight taken + w.shared.queue.size = total msgWeight stored ∧
      taken.length + w.shared.queue.numElem = stored.length ∧
      ∀ k, w.shared.queue.waiters k =
        (Finset.univ.filter fun t => (w.phase t).waitsOn program.cond k = true).card := by
  intro stored taken
  obtain ⟨as, f, hstore, hlabels, hf⟩ := h.simulates
  have hconserved := BoundedFifo.conservation hstore
  simp only [hlabels, List.flatMap_assoc, storeLabels_delivered, storeLabels_accepted] at hconserved
  have hitems : taken ++ f.items = stored := hconserved
  have hsize := hf.represents.size_eq
  have hnum := hf.represents.numElem_eq
  have hhead : w.shared.queue.head = total msgWeight taken % M := head_at h
  refine ⟨hhead, ?_, ?_, ?_, ?_⟩
  · have htail := hf.represents.ring.tail_eq
    rw [htail, hf.represents.capacity, hhead, hsize, Nat.mod_add_mod, ← total_append, hitems]
  · rw [hsize, ← total_append, hitems]
  · rw [hnum, ← List.length_append, hitems]
  · intro k
    rw [counted_run h.trace k, World.waiting, Census.census_eq_card]

theorem signalAfterPut_waiters {q : Queue} {k : Cond} (h : q.signalAfterPut = some k) :
    q.waiters k ≠ 0 := by
  unfold Queue.signalAfterPut at h
  split at h
  · rename_i hpos
    cases h
    exact ne_of_gt hpos
  · split at h
    · rename_i hroom
      cases h
      exact hroom.1
    · cases h

theorem signalAfterGet_waiters {q : Queue} {n : ℕ} {k : Cond} (h : q.signalAfterGet n = some k) :
    q.waiters k ≠ 0 := by
  unfold Queue.signalAfterGet at h
  split at h
  · rename_i hpos
    cases h
    exact ne_of_gt hpos.2
  · split at h
    · rename_i hpos
      cases h
      exact ne_of_gt hpos.2
    · cases h

/-- A section signals only where the counter says that somebody waits, and never its own wait. -/
theorem section_signal {start : Start Call Request} {clock : Clock} {s : Shared} {o : Section}
    {k : Cond} (hbody : program.body start clock s = .ok o) (hk : o.signalled = some k) :
    o.shared.queue.waiters k ≠ 0 ∧ o.exit.phase.waitsOn program.cond k = false := by
  rw [body_eq] at hbody
  cases hc : startCall start with
  | put a =>
      rw [hc] at hbody
      cases queuePutLoop_cases hbody with
      | commit hfit hwrite => exact ⟨signalAfterPut_waiters hk, rfl⟩
      | full hfit hstop => cases hk
      | wait hfit hblock htimer =>
          -- the producer goes to wait for room itself, so a consumer is signalled
          rw [beginWait] at hk ⊢
          dsimp only at hk ⊢
          split at hk
          · rename_i hpos
            cases hk
            exact ⟨ne_of_gt hpos, rfl⟩
          · cases hk
  | get a =>
      rw [hc] at hbody
      cases queueGetWait_cases hbody with
      | empty hsize hstop => cases hk
      | wait hsize hblock htimer => cases hk
      | read hsize hloop => exact ⟨signalAfterGet_waiters hk, rfl⟩

/-- No signal is given in vain: after a section that signals a condition another thread is awake
that waited on it, and the section has not begun to wait on it itself. -/
theorem signals_leave_awake [Fintype T]
    (h : Trace (Step program) (System.init T M N buffer) moves w)
    {m : Move (System T) (Event T)} (hm : m ∈ moves) {t : T} {start : Start Call Request}
    {clock : Clock} {o : Section} {pick : Option T} (hlabel : m.label = .crit t start clock o pick)
    {k : Cond} (hk : o.signalled = some k) :
    (∃ v, v ≠ t ∧ (m.pre.phase v).waitsOn program.cond k = true ∧
        (m.post.phase v).wokenOn program.cond k = true) ∧
      ∀ r, o.exit = .waiting r → r.call.cond ≠ k := by
  obtain ⟨before, after, -, htrace, hstep⟩ := h.of_mem hm
  have hcount := counted_run (htrace.snoc hstep)
  rw [hlabel] at hstep
  obtain ⟨-, hbody, hshared, hself⟩ := hstep.crit_inv
  obtain ⟨hwaiters, hown⟩ := section_signal hbody hk
  constructor
  · rw [← hshared, hcount k] at hwaiters
    have hpos : 0 < m.post.waiting program.cond k :=
      Nat.pos_of_ne_zero (Nat.cast_ne_zero.mp hwaiters)
    obtain ⟨u, hu⟩ := (waiting_pos_iff _ _ _).mp hpos
    have hne : u ≠ t := by
      rintro rfl
      rw [hself, hown] at hu
      cases hu
    obtain ⟨v, hvt, hv⟩ := hstep.awake_after_signal hk hne hu
    exact ⟨v, hvt, hstep.waitsOn_before hvt hv, hv⟩
  · intro r hx hcond
    rw [hx, Exit.phase, waitsOn_asleep] at hown
    exact of_decide_eq_false hown hcond

end Runs

theorem fields_from_history_exchange :
    ∃ (moves : List (Move (System (Fin 2)) (Event (Fin 2)))) (w : System (Fin 2)),
      BoundedRun 24 5 (List.replicate 24 0) moves w ∧
      moves.flatMap (fun m => delivered m.label) = [[1]] ∧ w.shared.queue.head = 9 ∧
      w.shared.queue.tail = 6 ∧ w.shared.queue.size = 21 ∧
      total msgWeight (moves.flatMap fun m => committed m.label) = 30 ∧
      1 + w.shared.queue.numElem = (moves.flatMap fun m => committed m.label).length ∧
      ∀ k, w.shared.queue.waiters k =
        (Finset.univ.filter fun t => (w.phase t).waitsOn program.cond k = true).card := by
  obtain ⟨moves, w, hrun, -, hsize, -, hdelivered⟩ := exchange_run
  obtain ⟨hhead, htail, hbytes, hcount, hwaiters⟩ := fields_from_history hrun
  have htaken : total msgWeight (moves.flatMap fun m => delivered m.label) = 9 := by
    rw [hdelivered]
    decide
  rw [htaken] at hhead hbytes
  rw [hdelivered] at hcount
  rw [hsize] at hbytes
  rw [← hbytes] at htail
  exact ⟨moves, w, hrun, hdelivered, hhead, htail, hsize, hbytes.symm, hcount, hwaiters⟩

/-- A consumer waits, and a producer without room wakes it and waits itself. -/
def wakingSchedule (producer consumer : T) : List (Action T Call Clock) :=
  let clock : Clock := ⟨⟨0, 0⟩, ⟨0, 0⟩⟩
  [.enter consumer (.get ⟨List.replicate 32 0, 1, 24, true, 1000000⟩) clock none,
    .enter producer (.put ⟨[List.replicate 17 0], true, 1000000⟩) clock (some consumer)]

/-- The section signals a consumer and goes to wait. -/
def wakesAndWaits : Event T → Bool
  | .crit _ _ _ ⟨_, some .notEmpty, .waiting _⟩ _ => true
  | _ => false

theorem signals_leave_awake_waiting :
    ∃ (moves : List (Move (System (Fin 2)) (Event (Fin 2)))) (w : System (Fin 2)),
      Trace (Step program) (System.init (Fin 2) 24 5 (List.replicate 24 0)) moves w ∧
      ∃ m ∈ moves, ∃ t start clock s r pick,
        m.label = .crit t start clock ⟨s, some .notEmpty, .waiting r⟩ pick ∧
        (∃ v, v ≠ t ∧ (m.pre.phase v).waitsOn program.cond .notEmpty = true ∧
          (m.post.phase v).wokenOn program.cond .notEmpty = true) ∧ r.call.cond ≠ .notEmpty := by
  have hrun : (program.run (System.init (Fin 2) 24 5 (List.replicate 24 0))
      (wakingSchedule 0 1)).any (fun r => r.1.any fun m => wakesAndWaits m.label) = true := by
    decide +kernel
  obtain ⟨moves, w, htrace, hwakes⟩ := reach_of_run hrun
  obtain ⟨m, hm, hwakes⟩ := List.any_eq_true.mp hwakes
  unfold wakesAndWaits at hwakes
  split at hwakes
  · rename_i t start clock s r pick hlabel
    obtain ⟨hawake, hown⟩ := signals_leave_awake htrace hm hlabel rfl
    exact ⟨moves, w, htrace, m, hm, t, start, clock, s, r, pick, hlabel, hawake, hown r rfl⟩
  · cases hwakes

end FasterFifo
