import FasterFifo.ProducerWakeups
import FasterFifo.Linearization

/-! A consumer without a rival never sleeps in front of a message, a producer without a rival never
while its batch fits, and one of each cannot wait for each other. -/
namespace FasterFifo
open Transition Monitor
open BoundedFifo (total)

variable {T : Type} {M N : ℕ}

/-- Thread `x` alone makes the calls that wait on `k`. -/
def Sole (k : Cond) (x : T) (t : T) (c : Call) : Prop := c.cond = k → t = x

instance [DecidableEq T] (k : Cond) (x t : T) (c : Call) : Decidable (Sole k x t c) :=
  inferInstanceAs (Decidable (_ → _))

instance keepsSole [DecidableEq T] (k : Cond) (x : T) (e : Event T) :
    Decidable (e.Keeps (Sole k x)) :=
  match e with
  | .crit _ (.enter _) _ _ _ => inferInstanceAs (Decidable (Sole _ _ _ _))
  | .crit _ (.resume _) _ _ _ => isTrue trivial
  | .wake _ => isTrue trivial

theorem keeps_sole {k : Cond} {x t : T} {w : System T} {r : Request}
    (h : w.Keeps startCall (Sole k x)) (hr : w.Pending t r) (hk : r.call.cond = k) : t = x :=
  h t r hr hk

section Consumer
variable [Fintype T] [DecidableEq T] {w w' : System T} {x t : T} {start : Start Call Request}
  {clock : Clock} {o : Section} {pick : Option T} {e : Event T}

/-- The consumer sleeps in front of an empty queue only. -/
def ConsumerRests (w : System T) : Prop := Sleeping w .notEmpty → w.shared.queue.size = 0

/-- A put wakes the consumer or leaves the queue as it is. -/
theorem ConsumerRests.put_step (h : ConsumerRests w) (hcount : Counted w)
    (hroles : w'.Keeps startCall (Sole .notEmpty x))
    (hstep : Step program w (.crit t start clock o pick) w') {a : PutArgs}
    (hc : startCall start = .put a) : ConsumerRests w' := by
  rintro ⟨u, hu⟩
  obtain ⟨-, hasleep⟩ := asleep_before hstep (by rw [hc]; simp [Call.cond]) hu
  rcases put_step_cases hstep hc with ⟨-, -, ho, -⟩ | ⟨-, -, hno⟩
  · have hpos := ((hcount.step hstep).pos_iff .notEmpty).mpr ⟨u, waitsOn_of_asleepOn hu⟩
    have hsignal : o.signalled = some .notEmpty := ho.trans (if_pos hpos)
    obtain ⟨p, hp, hcond⟩ := asleepOn_iff.mp hu
    obtain rfl := keeps_sole hroles (.inl hp) hcond
    have hwoken := hstep.wakes_only hsignal hasleep fun v q => keeps_sole hroles
    rw [hp] at hwoken
    cases hwoken
  · rw [hno.size]
    exact h ⟨u, hasleep⟩

omit [Fintype T] in
theorem ConsumerRests.get_step (hroles : w'.Keeps startCall (Sole .notEmpty x)) (htx : t = x)
    (hstep : Step program w (.crit t start clock o pick) w') {a : GetArgs}
    (hc : startCall start = .get a) : ConsumerRests w' := by
  rintro ⟨u, hu⟩
  obtain ⟨-, hbody, hshared, hself⟩ := hstep.crit_inv
  obtain ⟨p, hp, hcond⟩ := asleepOn_iff.mp hu
  obtain rfl := (keeps_sole hroles (.inl hp) hcond).trans htx.symm
  rw [body_eq, hc] at hbody
  cases queueGetWait_cases hbody with
  | empty hsize hstop =>
      rw [hself] at hp
      cases hp
  | wait hsize hblock htimer =>
      rw [hshared, beginWait, size_addWaiter]
      exact hsize
  | read hsize hloop =>
      rw [hself] at hp
      cases hp

theorem ConsumerRests.step (h : ConsumerRests w) (hcount : Counted w)
    (hkeeps : w.Keeps startCall (Sole .notEmpty x)) (he : e.Keeps (Sole .notEmpty x))
    (hstep : Step program w e w') : ConsumerRests w' := by
  have hroles := hkeeps.step belongs_startCall he hstep
  cases e with
  | wake t =>
      rintro ⟨u, hu⟩
      obtain ⟨p, hp, hcond⟩ := asleepOn_iff.mp hu
      rw [hstep.wake_inv.1]
      exact h ⟨u, asleepOn_iff.mpr ⟨p, hstep.wake_asleep hp, hcond⟩⟩
  | crit t start clock o pick =>
      cases hc : startCall start with
      | put a => exact h.put_step hcount hroles hstep hc
      | get a =>
          have hsole := hkeeps.begins belongs_startCall hstep.crit_inv.1 he
          rw [hc] at hsole
          exact ConsumerRests.get_step hroles (hsole rfl) hstep hc

theorem consumer_rests {buffer : Bytes} {moves : List (Move (System T) (Event T))}
    (h : Trace (Step program) (System.init T M N buffer) moves w)
    (hsole : ∀ m ∈ moves, m.label.Keeps (Sole .notEmpty x)) : ConsumerRests w := by
  have hall := h.invariant
    (I := fun w => Counted w ∧ w.Keeps startCall (Sole .notEmpty x) ∧ ConsumerRests w)
    (fun m hm hstep hpre => ⟨hpre.1.step hstep, hpre.2.1.step belongs_startCall hm hstep,
      hpre.2.2.step hpre.1 hpre.2.1 hm hstep⟩) hsole
  refine (hall ⟨counted_init M N buffer, ?_, fun _ => rfl⟩).2.2
  rintro t p (ht | ht) <;> cases ht

end Consumer

section Producer
variable [Fintype T] [DecidableEq T] {w w' : System T} {x t : T} {start : Start Call Request}
  {clock : Clock} {o : Section} {pick : Option T} {e : Event T} {f : MessageStore M N}

/-- No producer sleeps while its batch fits. -/
def ProducerRests (w : System T) : Prop :=
  ∀ u, w.shared.queue.fitsSleeper (w.phase u) = false

omit [Fintype T] in
/-- A producer alone looks at the room itself before it sleeps. -/
theorem ProducerRests.put_step (hroles : w'.Keeps startCall (Sole .notFull x)) (htx : t = x)
    (hstep : Step program w (.crit t start clock o pick) w') {a : PutArgs}
    (hc : startCall start = .put a) : ProducerRests w' := by
  intro u
  rw [Bool.eq_false_iff]
  intro hu
  obtain ⟨b, waitUntil, hphase, -⟩ := fitsSleeper_iff.mp hu
  obtain rfl := (keeps_sole hroles (.inl hphase) rfl).trans htx.symm
  have hself := hstep.crit_inv.2.2.2
  rcases put_step_cases hstep hc with ⟨-, -, -, hx⟩ | ⟨hfit, -, hno⟩
  · rw [hself, hx] at hphase
    cases hphase
  · have hnot := hno.fits_not hstep hc hfit
    rw [← hself, hu] at hnot
    cases hnot

theorem ProducerRests.get_step (h : ProducerRests w) (hcount : Counted w) (hf : Sound w f)
    (hroles : w'.Keeps startCall (Sole .notFull x))
    (hstep : Step program w (.crit t start clock o pick) w') {a : GetArgs}
    (hc : startCall start = .get a) : ProducerRests w' := by
  intro u
  rw [Bool.eq_false_iff]
  intro hu
  have hcount' := hcount.step hstep
  obtain ⟨-, hbody, hshared, hself⟩ := hstep.crit_inv
  have hstart := hf.represents.startShared start
  -- as long as the section leaves the room as it is, the sleeper fitted before
  have hsame : (∀ n k, w'.shared.queue.canFit n k = w.shared.queue.canFit n k) →
      w'.shared.queue.fitsSleeper o.exit.phase = false → False := by
    intro hroom hnot
    obtain ⟨-, b, waitUntil, hafter, hbefore⟩ := fitsSleeper_before hstep hu hnot
    have hfits := h u
    rw [hafter] at hu
    rw [hbefore, Queue.fitsSleeper, ← hroom] at hfits
    exact absurd (hfits.symm.trans hu) (by decide)
  rw [body_eq, hc] at hbody
  cases queueGetWait_cases hbody with
  | empty hsize hstop => exact hsame (fun n k => by rw [hshared, startShared_canFit]) rfl
  | wait hsize hblock htimer =>
      refine hsame ?_ rfl
      intro n k
      rw [hshared, beginWait, Shared.addWaiter, canFit_addWaiter, startShared_canFit]
  | read hsize hloop =>
      obtain ⟨hne, rfl, -⟩ := read_spec hstart hsize hloop
      rcases Nat.eq_zero_or_pos (a.serves (a.start (startShared start w.shared)) f.items)
        with hk | hk
      · refine hsame ?_ rfl
        intro n k
        rw [hshared, served_none hstart hne hk, startShared_canFit]
      · obtain ⟨-, b, waitUntil, hafter, hbefore⟩ := fitsSleeper_before hstep hu rfl
        obtain rfl := keeps_sole hroles (.inl hafter) rfl
        have hasleep : (w.phase u).asleepOn program.cond .notFull = true :=
          asleepOn_iff.mpr ⟨_, hbefore, rfl⟩
        have hpos := (hcount'.pos_iff .notFull).mpr
          ⟨u, waitsOn_of_asleepOn (asleepOn_iff.mpr ⟨_, hafter, rfl⟩)⟩
        rw [hshared] at hpos
        have hread : ((a.start (startShared start w.shared)).served a f.items).messagesRead > 0 :=
          hk.trans_eq (Nat.zero_add _).symm
        have hwoken := hstep.wakes_only (if_pos ⟨hread, hpos⟩) hasleep fun v q => keeps_sole hroles
        rw [hafter] at hwoken
        cases hwoken

theorem ProducerRests.step (h : ProducerRests w) (hcount : Counted w) (hf : Sound w f)
    (hkeeps : w.Keeps startCall (Sole .notFull x)) (he : e.Keeps (Sole .notFull x))
    (hstep : Step program w e w') : ProducerRests w' := by
  have hroles := hkeeps.step belongs_startCall he hstep
  cases e with
  | wake t =>
      intro u
      rw [Bool.eq_false_iff]
      intro hu
      obtain ⟨b, waitUntil, hphase, hfit⟩ := fitsSleeper_iff.mp hu
      have hnot := h u
      rw [hstep.wake_asleep hphase, Queue.fitsSleeper, ← hstep.wake_inv.1] at hnot
      exact absurd (hnot.symm.trans hfit) (by decide)
  | crit t start clock o pick =>
      cases hc : startCall start with
      | get a => exact h.get_step hcount hf hroles hstep hc
      | put a =>
          have hsole := hkeeps.begins belongs_startCall hstep.crit_inv.1 he
          rw [hc] at hsole
          exact ProducerRests.put_step hroles (hsole rfl) hstep hc

theorem producer_rests {buffer : Bytes} {moves : List (Move (System T) (Event T))}
    (h : BoundedRun M N buffer moves w)
    (hsole : ∀ m ∈ moves, m.label.Keeps (Sole .notFull x)) : ProducerRests w := by
  have hgood : ∀ m ∈ moves, BoundedEvent m.label ∧ m.label.Keeps (Sole .notFull x) :=
    fun m hm => ⟨h.bounded m hm, hsole m hm⟩
  have hall := h.trace.invariant
    (I := fun w => Counted w ∧ w.Keeps startCall (Sole .notFull x) ∧ ProducerRests w ∧
      ∃ f : MessageStore M N, Sound w f) ?_ hgood
  · refine (hall ⟨counted_init M N buffer, ?_, fun _ => rfl,
      .empty, .init h.capacity h.length_buffer⟩).2.2.1
    rintro t p (ht | ht) <;> cases ht
  · rintro m ⟨hb, hm⟩ hstep ⟨hcount, hkeeps, hrests, f, hf⟩
    obtain ⟨-, g, -, -, hg⟩ := hf.step hb hstep
    exact ⟨hcount.step hstep, hkeeps.step belongs_startCall hm hstep,
      hrests.step hcount hf hkeeps hm hstep, g, hg⟩

end Producer

section Runs
variable [Fintype T] [DecidableEq T] {buffer : Bytes} {moves : List (Move (System T) (Event T))}
  {w : System T} {x y : T}

/-- A consumer without a rival sleeps in front of an empty queue only, in every state. -/
theorem sole_consumer_never_left (h : Trace (Step program) (System.init T M N buffer) moves w)
    (hsole : ∀ m ∈ moves, m.label.Keeps (Sole .notEmpty x)) (hsleeping : Sleeping w .notEmpty) :
    w.shared.queue.size = 0 :=
  consumer_rests h hsole hsleeping

/-- A producer without a rival sleeps only while its batch does not fit, in every state. -/
theorem sole_producer_never_left (h : BoundedRun M N buffer moves w)
    (hsole : ∀ m ∈ moves, m.label.Keeps (Sole .notFull x)) {t : T} {a : PutArgs}
    {waitUntil : Timeval} (hasleep : w.phase t = .asleep ⟨.put a, waitUntil⟩) :
    M < w.shared.queue.size + total msgWeight a.msgs ∨
      N < w.shared.queue.numElem + a.msgs.length := by
  obtain ⟨f, hf⟩ := h.sound
  have hbound : (Call.put a).Bounded := hf.pending t _ (.inl hasleep)
  by_contra hfits
  rw [not_or, not_lt, not_lt] at hfits
  have hroom := (canFit_iff hf.represents hbound).mpr ((fits_iff hf.represents a.msgs).mpr hfits)
  have hnot := producer_rests h hsole t
  rw [hasleep, Queue.fitsSleeper, hroom] at hnot
  cases hnot

/-- One producer and one consumer wait for each other only over a batch that no queue of this
size can take. -/
theorem pair_never_deadlocks (h : BoundedRun M N buffer moves w)
    (hproducer : ∀ m ∈ moves, m.label.Keeps (Sole .notFull x))
    (hconsumer : ∀ m ∈ moves, m.label.Keeps (Sole .notEmpty y))
    (hsleeping : Sleeping w .notEmpty) {t : T} {a : PutArgs} {waitUntil : Timeval}
    (hasleep : w.phase t = .asleep ⟨.put a, waitUntil⟩) :
    M < total msgWeight a.msgs ∨ N < a.msgs.length := by
  obtain ⟨f, hf⟩ := h.sound
  have hbound : (Call.put a).Bounded := hf.pending t _ (.inl hasleep)
  have hempty := consumer_rests h.trace hconsumer hsleeping
  have hnone : w.shared.queue.numElem = 0 := by
    have hcount := hf.represents.numElem_le
    omega
  by_contra hfits
  rw [not_or, not_lt, not_lt] at hfits
  have hroom : f.Fits a.msgs := by
    rw [fits_iff hf.represents, hempty, hnone, Nat.zero_add, Nat.zero_add]
    exact hfits
  have hnot := producer_rests h hproducer t
  rw [hasleep, Queue.fitsSleeper, (canFit_iff hf.represents hbound).mpr hroom] at hnot
  cases hnot

end Runs

/-- A consumer waits, and a producer comes with a batch larger than the ring. -/
def oversizedSchedule (producer consumer : T) : List (Action T Call Clock) :=
  let clock : Clock := ⟨⟨0, 0⟩, ⟨0, 0⟩⟩
  [.enter consumer (.get ⟨List.replicate 32 0, 1, 24, true, 1000000⟩) clock none,
    .enter producer (.put ⟨[List.replicate 17 0], true, 1000000⟩) clock (some consumer),
    .resume consumer clock none]

theorem oversized_run :
    ∃ (moves : List (Move (System (Fin 2)) (Event (Fin 2)))) (w : System (Fin 2)),
      BoundedRun 24 5 (List.replicate 24 0) moves w ∧
      (∀ m ∈ moves, m.label.Keeps (Sole .notFull 0)) ∧
      (∀ m ∈ moves, m.label.Keeps (Sole .notEmpty 1)) ∧ Sleeping w .notEmpty ∧
      w.phase 0 = .asleep ⟨.put ⟨[List.replicate 17 0], true, 1000000⟩, ⟨1, 0⟩⟩ := by
  have hrun : (program.run (System.init (Fin 2) 24 5 (List.replicate 24 0))
      (oversizedSchedule 0 1)).any (fun r => decide
        ((∀ m ∈ r.1, BoundedEvent m.label) ∧
        (∀ m ∈ r.1, m.label.Keeps (Sole .notFull 0)) ∧
        (∀ m ∈ r.1, m.label.Keeps (Sole .notEmpty 1)) ∧ Sleeping r.2 .notEmpty ∧
        r.2.phase 0 = .asleep ⟨.put ⟨[List.replicate 17 0], true, 1000000⟩, ⟨1, 0⟩⟩)) = true := by
    decide +kernel
  obtain ⟨moves, w, htrace, hw⟩ := reach_of_run hrun
  obtain ⟨hbounded, hrest⟩ := of_decide_eq_true hw
  exact ⟨moves, w, ⟨by decide, rfl, htrace, hbounded⟩, hrest⟩

theorem sole_consumer_never_left_oversized :
    ∃ (moves : List (Move (System (Fin 2)) (Event (Fin 2)))) (w : System (Fin 2)),
      BoundedRun 24 5 (List.replicate 24 0) moves w ∧
      (∀ m ∈ moves, m.label.Keeps (Sole .notEmpty 1)) ∧ Sleeping w .notEmpty ∧
      w.shared.queue.size = 0 := by
  obtain ⟨moves, w, hrun, -, hconsumer, hsleeping, -⟩ := oversized_run
  exact ⟨moves, w, hrun, hconsumer, hsleeping,
    sole_consumer_never_left hrun.trace hconsumer hsleeping⟩

theorem sole_producer_never_left_oversized :
    ∃ (moves : List (Move (System (Fin 2)) (Event (Fin 2)))) (w : System (Fin 2)),
      BoundedRun 24 5 (List.replicate 24 0) moves w ∧
      (∀ m ∈ moves, m.label.Keeps (Sole .notFull 0)) ∧
      w.phase 0 = .asleep ⟨.put ⟨[List.replicate 17 0], true, 1000000⟩, ⟨1, 0⟩⟩ ∧
      (24 < w.shared.queue.size + total msgWeight [List.replicate 17 0] ∨
        5 < w.shared.queue.numElem + 1) := by
  obtain ⟨moves, w, hrun, hproducer, -, -, hasleep⟩ := oversized_run
  exact ⟨moves, w, hrun, hproducer, hasleep, sole_producer_never_left hrun hproducer hasleep⟩

theorem pair_never_deadlocks_oversized :
    ∃ (moves : List (Move (System (Fin 2)) (Event (Fin 2)))) (w : System (Fin 2)),
      BoundedRun 24 5 (List.replicate 24 0) moves w ∧
      (∀ m ∈ moves, m.label.Keeps (Sole .notFull 0)) ∧
      (∀ m ∈ moves, m.label.Keeps (Sole .notEmpty 1)) ∧ Sleeping w .notEmpty ∧
      w.phase 0 = .asleep ⟨.put ⟨[List.replicate 17 0], true, 1000000⟩, ⟨1, 0⟩⟩ ∧
      (24 < total msgWeight [List.replicate 17 0] ∨ 5 < [List.replicate 17 (0 : UInt8)].length) := by
  obtain ⟨moves, w, hrun, hproducer, hconsumer, hsleeping, hasleep⟩ := oversized_run
  exact ⟨moves, w, hrun, hproducer, hconsumer, hsleeping, hasleep,
    pair_never_deadlocks hrun hproducer hconsumer hsleeping hasleep⟩

end FasterFifo
