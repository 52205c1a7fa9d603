import FasterFifo.Contracts
import FasterFifo.Library.Relational

/-! Two queues with the same messages and the same waiting threads go on alike, wherever the
messages lie in the ring. Nor do the two limits matter while no put is refused or kept waiting. -/
namespace FasterFifo
open CheckedMemory Transition Monitor Relational
open BoundedFifo (Store)

variable {M N M' N' : ℕ} {s s' : Shared}

/-- The same messages and the same waiter counters; where the limits differ nobody waits for
room. -/
structure Alike (M N M' N' : ℕ) (s s' : Shared) : Prop where
  messages : ∃ (f : MessageStore M N) (f' : MessageStore M' N'),
    Represents s f ∧ Represents s' f' ∧ f'.items = f.items
  waiters : ∀ k, s'.queue.waiters k = s.queue.waiters k
  room : (M' = M ∧ N' = N) ∨ s.queue.waiters .notFull = 0

/-- Everything is the same but the shared state. -/
def alikeCorrespondence (M N M' N' : ℕ) :
    Correspondence Shared Shared Call Call Request Request Result Result where
  shared := Alike M N M' N'
  call c c' := c' = c ∧ c.Bounded
  request r r' := r' = r ∧ r.call.Bounded ∧ ((M' = M ∧ N' = N) ∨ r.call.cond = .notEmpty)
  result r r' := r' = r

/-- Where the limits differ the section stores its batch, if it is one of `queue_put`. -/
def Roomy (M N M' N' : ℕ) (start : Start Call Request) (o : Section) : Prop :=
  (M' = M ∧ N' = N) ∨ ((startCall start).cond = .notFull → o.exit = .returned (.put .success))

section Fields

theorem Alike.size (h : Alike M N M' N' s s') : s'.queue.size = s.queue.size := by
  obtain ⟨f, f', hf, hf', hitems⟩ := h.messages
  rw [hf.size_eq, hf'.size_eq, hitems]

theorem Alike.numElem (h : Alike M N M' N' s s') : s'.queue.numElem = s.queue.numElem := by
  obtain ⟨f, f', hf, hf', hitems⟩ := h.messages
  rw [hf.numElem_eq, hf'.numElem_eq, hitems]

theorem Alike.canFit (h : Alike M N M N s s') (n k : ℕ) :
    s'.queue.canFit n k = s.queue.canFit n k := by
  have hsize := h.size
  have hnum := h.numElem
  obtain ⟨f, f', hf, hf', -⟩ := h.messages
  rw [Queue.canFit, Queue.canFit, hsize, hnum, hf.capacity, hf'.capacity, hf.limit, hf'.limit]

theorem Alike.signalAfterPut (h : Alike M N M' N' s s') :
    s'.queue.signalAfterPut = s.queue.signalAfterPut := by
  have hempty : s'.queue.notEmptyNWaiters = s.queue.notEmptyNWaiters := h.waiters .notEmpty
  have hfull : s'.queue.notFullNWaiters = s.queue.notFullNWaiters := h.waiters .notFull
  rw [Queue.signalAfterPut, Queue.signalAfterPut, hempty, hfull]
  rcases h.room with ⟨rfl, rfl⟩ | hzero
  · rw [h.canFit]
  · have hnone : ¬s.queue.notFullNWaiters ≠ 0 := not_not.mpr hzero
    simp only [hnone, false_and]

theorem Alike.signalAfterGet (h : Alike M N M' N' s s') (n : ℕ) :
    s'.queue.signalAfterGet n = s.queue.signalAfterGet n := by
  have hempty : s'.queue.notEmptyNWaiters = s.queue.notEmptyNWaiters := h.waiters .notEmpty
  have hfull : s'.queue.notFullNWaiters = s.queue.notFullNWaiters := h.waiters .notFull
  rw [Queue.signalAfterGet, Queue.signalAfterGet, hempty, hfull, h.size]

theorem Alike.addWaiter (h : Alike M N M' N' s s') {c : Cond} (d : ℤ)
    (hc : (M' = M ∧ N' = N) ∨ c = .notEmpty) : Alike M N M' N' (s.addWaiter c d) (s'.addWaiter c d) where
  messages := by
    obtain ⟨f, f', hf, hf', hitems⟩ := h.messages
    exact ⟨f, f', hf.addWaiter c d, hf'.addWaiter c d, hitems⟩
  waiters := by
    intro k
    rw [waiters_addWaiter, waiters_addWaiter, h.waiters]
  room := by
    rcases hc with hc | rfl
    · exact .inl hc
    · rw [waiters_addWaiter, if_neg (by decide), add_zero]
      exact h.room

end Fields

section Sections
variable {waitRemaining now : Timeval} {o : Section}

theorem beginWait_alike (h : Alike M N M' N' s s') {c : Call} (hc : c.Bounded)
    (hcond : (M' = M ∧ N' = N) ∨ c.cond = .notEmpty) (signalled : Option Cond) :
    (alikeCorrespondence M N M' N').Outcomes (beginWait s c signalled waitRemaining now)
      (beginWait s' c signalled waitRemaining now) where
  shared := h.addWaiter _ hcond
  signalled := rfl
  exit := .waiting ⟨rfl, hc, hcond⟩

theorem fits_larger {f : MessageStore M N} {f' : MessageStore M' N'} (hM : M ≤ M') (hN : N ≤ N')
    (hitems : f'.items = f.items) {batch : List Bytes} (h : f.Fits batch) : f'.Fits batch := by
  obtain ⟨hbytes, hcount⟩ := h
  rw [Store.Fits, hitems]
  exact ⟨hbytes.trans hM, hcount.trans hN⟩

theorem put_alike (hM : M ≤ M') (hN : N ≤ N') (h : Alike M N M' N' s s') {a : PutArgs}
    (ha : (Call.put a).Bounded)
    (hroomy : (M' = M ∧ N' = N) ∨ o.exit = .returned (.put .success))
    (hloop : queuePutLoop s a waitRemaining now = .ok o) :
    ∃ o', queuePutLoop s' a waitRemaining now = .ok o' ∧
      (alikeCorrespondence M N M' N').Outcomes o o' := by
  have hboth := h
  obtain ⟨⟨f, f', hf, hf', hitems⟩, hwaiters, hroom⟩ := h
  cases queuePutLoop_cases hloop with
  | commit hfit hwrite =>
      have hfits := (canFit_iff hf ha).mp hfit
      have hfits' := fits_larger hM hN hitems hfits
      obtain ⟨hdone, hrep⟩ := writeMessages_eq hf hfits
      obtain ⟨hdone', hrep'⟩ := writeMessages_eq hf' hfits'
      cases hwrite.symm.trans hdone
      have hkept := fun k => writeMessages_waiters s a.msgs k _ hdone
      have hkept' := fun k => writeMessages_waiters s' a.msgs k _ hdone'
      have hafter : Alike M N M' N' (a.msgs.foldl Shared.pushed s) (a.msgs.foldl Shared.pushed s') := by
        refine ⟨⟨_, _, hrep, hrep', ?_⟩, ?_, ?_⟩
        · simp only [Store.enqueue, hitems]
        · intro k
          rw [hkept, hkept', hwaiters]
        · rw [hkept]
          exact hroom
      rw [queuePutLoop, if_pos ((canFit_iff hf' ha).mpr hfits'), hdone', ok_bind]
      exact ⟨_, rfl, hafter, hafter.signalAfterPut, .returned rfl⟩
  | full hfit hstop =>
      obtain ⟨rfl, rfl⟩ : M' = M ∧ N' = N := hroomy.resolve_right (by rintro ⟨⟩)
      have hgives : (!a.block || !timerPositive waitRemaining) = true := by
        rcases hstop with hstop | hstop <;> simp [hstop]
      rw [queuePutLoop, hboth.canFit, if_neg (by rw [hfit]; decide), if_pos hgives]
      exact ⟨_, rfl, hboth, rfl, .returned rfl⟩
  | wait hfit hblock htimer =>
      have hsame : M' = M ∧ N' = N := hroomy.resolve_right (by rintro ⟨⟩)
      obtain ⟨rfl, rfl⟩ := hsame
      have hempty : s'.queue.notEmptyNWaiters = s.queue.notEmptyNWaiters := hwaiters .notEmpty
      have hgoes : ¬(!a.block || !timerPositive waitRemaining) = true := by
        simp [hblock, htimer]
      rw [queuePutLoop, hboth.canFit, if_neg (by rw [hfit]; decide), if_neg hgoes, hempty]
      exact ⟨_, rfl, beginWait_alike (c := .put a) hboth ha (.inl ⟨rfl, rfl⟩) _⟩

theorem get_alike (h : Alike M N M' N' s s') {a : GetArgs}
    (hwait : queueGetWait s a waitRemaining now = .ok o) :
    ∃ o', queueGetWait s' a waitRemaining now = .ok o' ∧
      (alikeCorrespondence M N M' N').Outcomes o o' := by
  have hboth := h
  obtain ⟨⟨f, f', hf, hf', hitems⟩, hwaiters, hroom⟩ := h
  rw [queueGetWait, hboth.size]
  cases queueGetWait_cases hwait with
  | empty hsize hstop =>
      have hgives : (!a.block || !timerPositive waitRemaining) = true := by
        rcases hstop with hstop | hstop <;> simp [hstop]
      rw [if_pos hsize.le, if_pos hgives]
      exact ⟨_, rfl, hboth, rfl, .returned rfl⟩
  | wait hsize hblock htimer =>
      have hgoes : ¬(!a.block || !timerPositive waitRemaining) = true := by
        simp [hblock, htimer]
      rw [if_pos hsize.le, if_neg hgoes]
      exact ⟨_, rfl, beginWait_alike (c := .get a) hboth trivial (.inr rfl) _⟩
  | read hsize hloop =>
      obtain ⟨hne, rfl, hrep⟩ := read_spec hf hsize hloop
      have hne' : f'.items ≠ [] := by rwa [hitems]
      have hrep' := hf'.dropped (a.serves (a.start s') f'.items)
      have hafter : Alike M N M' N' ((a.start s).served a f.items).shared
          ((a.start s').served a f'.items).shared := by
        refine ⟨⟨_, _, hrep, hrep', ?_⟩, hwaiters, hroom⟩
        simp only [Store.dequeue, hitems]
        rfl
      rw [if_neg hsize.not_ge, queueGetBody_eq hf' hne']
      refine ⟨_, rfl, hafter, ?_, .returned ?_⟩
      · dsimp only
        rw [hafter.signalAfterGet, hitems]
        simp only [GetState.served, GetArgs.start, Nat.zero_add]
        rfl
      · rw [served_result, served_result, hitems]
        rfl

theorem alike_simulates (hM : M ≤ M') (hN : N ≤ N') :
    (alikeCorrespondence M N M' N').SimulatesOn (Roomy M N M' N') program program where
  cond := by
    rintro r r' ⟨rfl, -⟩
    rfl
  body := by
    intro start start' clock s s' o hroomy hstart hs hbody
    obtain ⟨rfl, hbounded, hshared⟩ : start' = start ∧ (startCall start).Bounded ∧
        Alike M N M' N' (startShared start s) (startShared start s') := by
      cases hstart with
      | enter h =>
          obtain ⟨rfl, hc⟩ := h
          exact ⟨rfl, hc, hs⟩
      | resume h =>
          obtain ⟨rfl, hc, hcond⟩ := h
          exact ⟨rfl, hc, hs.addWaiter _ hcond⟩
    rw [body_eq] at hbody ⊢
    cases hc : startCall start' with
    | put a =>
        rw [hc] at hbody hbounded
        refine put_alike hM hN hshared hbounded ?_ hbody
        exact hroomy.imp_right fun hstores => hstores (congrArg Call.cond hc)
    | get a =>
        rw [hc] at hbody
        exact get_alike hshared hbody

end Sections

section Runs
variable {T : Type} {buffer buffer' : Bytes} {moves moves' more : List (Move (System T) (Event T))}
  {w w' v : System T} {e e' : Event T}

/-- The same thread runs the same call, with the same signal, wakeup and result. -/
inductive SameTurn : Event T → Event T → Prop
  | crit {t : T} {start : Start Call Request} {clock : Clock} {o o' : Section} {pick : Option T}
      (hsignalled : o'.signalled = o.signalled) (hexit : o'.exit = o.exit) :
      SameTurn (.crit t start clock o pick) (.crit t start clock o' pick)
  | wake {t : T} : SameTurn (.wake t) (.wake t)

theorem sameTurn_of_labels (h : (alikeCorrespondence M N M' N').Labels e e') : SameTurn e e' := by
  cases h with
  | wake => exact .wake
  | @crit t start start' clock o o' pick hstart hout =>
      have hexit : o'.exit = o.exit := by
        have hx := hout.exit
        generalize o.exit = x at hx
        generalize o'.exit = x' at hx
        cases hx with
        | returned hr => exact congrArg Exit.returned hr
        | waiting hr => exact congrArg Exit.waiting hr.1
      cases hstart with
      | enter h =>
          obtain ⟨rfl, -⟩ := h
          exact .crit hout.signalled hexit
      | resume h =>
          obtain ⟨rfl, -⟩ := h
          exact .crit hout.signalled hexit

theorem boundedEvent_of_labels (h : (alikeCorrespondence M N M' N').Labels e e') :
    BoundedEvent e' := by
  cases h with
  | wake => trivial
  | crit hstart hout =>
      cases hstart with
      | enter h =>
          obtain ⟨rfl, hc⟩ := h
          exact hc
      | resume h => trivial

theorem phase_of_worlds (h : (alikeCorrespondence M N M' N').Worlds w w') : w'.phase = w.phase := by
  funext t
  have ht := h.phase t
  generalize w.phase t = x at ht
  generalize w'.phase t = x' at ht
  cases ht with
  | idle => rfl
  | asleep hr => rw [hr.1]
  | woken hr => rw [hr.1]

theorem messages_of_worlds (h : (alikeCorrespondence M N M' N').Worlds w w') :
    w'.shared.messages = w.shared.messages := by
  obtain ⟨f, f', hf, hf', hitems⟩ := h.shared.messages
  rw [hf.messages_eq, hf'.messages_eq, hitems]

theorem covers_of_bounded (h : BoundedEvent e) : (alikeCorrespondence M N M' N').Covers e := by
  cases e with
  | wake t => trivial
  | crit t start clock o pick =>
      cases start with
      | enter c => exact ⟨c, rfl, h⟩
      | resume r => trivial

theorem alike_worlds (h : Alike M N M' N' w.shared w'.shared) (hphase : w'.phase = w.phase)
    (hpending : ∀ t r, w.Pending t r →
      r.call.Bounded ∧ ((M' = M ∧ N' = N) ∨ r.call.cond = .notEmpty)) :
    (alikeCorrespondence M N M' N').Worlds w w' where
  shared := h
  phase := by
    intro t
    rw [hphase]
    cases hp : w.phase t with
    | idle => exact .idle
    | asleep r => exact .asleep ⟨rfl, hpending t r (.inl hp)⟩
    | woken r => exact .woken ⟨rfl, hpending t r (.inr hp)⟩

variable [DecidableEq T]

/-- Alike states go on alike. -/
theorem alike_run (hM : M ≤ M') (hN : N ≤ N') (h : (alikeCorrespondence M N M' N').Worlds w w')
    (htrace : Trace (Step program) w more v) (hbounded : ∀ m ∈ more, BoundedEvent m.label)
    (hroomy : ∀ m ∈ more, Kind (Roomy M N M' N') m.label) :
    ∃ more' v', Trace (Step program) w' more' v' ∧ (∀ m ∈ more', BoundedEvent m.label) ∧
      List.Forall₂ (fun m m' => SameTurn m.label m'.label) more more' ∧
      v'.phase = v.phase ∧ v'.shared.messages = v.shared.messages := by
  obtain ⟨more', v', htrace', hlabels, hv⟩ := related_run_on (alike_simulates hM hN) htrace hroomy
    (fun m hm => covers_of_bounded (hbounded m hm)) h
  have hturns := hlabels.imp fun _ _ hl => sameTurn_of_labels hl
  exact ⟨more', v', htrace', forall_right (fun _ _ hl => boundedEvent_of_labels hl) hlabels, hturns,
    phase_of_worlds hv, messages_of_worlds hv⟩

/-- Two queues that hold the same messages while the same threads are inside the same calls cannot
be told apart, wherever the messages lie in the ring: every continuation of the one is a
continuation of the other, with the same turns, signals and results. -/
theorem messages_decide [Fintype T] (h : BoundedRun M N buffer moves w)
    (h' : BoundedRun M N buffer' moves' w') (hmessages : w'.shared.messages = w.shared.messages)
    (hphase : w'.phase = w.phase) (htrace : Trace (Step program) w more v)
    (hbounded : ∀ m ∈ more, BoundedEvent m.label) :
    ∃ more' v', Trace (Step program) w' more' v' ∧ (∀ m ∈ more', BoundedEvent m.label) ∧
      List.Forall₂ (fun m m' => SameTurn m.label m'.label) more more' ∧
      v'.phase = v.phase ∧ v'.shared.messages = v.shared.messages := by
  obtain ⟨f, hf⟩ := h.sound
  obtain ⟨f', hf'⟩ := h'.sound
  rw [hf.represents.messages_eq, hf'.represents.messages_eq] at hmessages
  have hcount := counted_run h.trace
  have hcount' := counted_run h'.trace
  have halike : Alike M N M N w.shared w'.shared := by
    refine ⟨⟨f, f', hf.represents, hf'.represents, Option.some.inj hmessages⟩, ?_, .inl ⟨rfl, rfl⟩⟩
    intro k
    rw [hcount k, hcount' k, World.waiting, World.waiting, hphase]
  have hworlds := alike_worlds halike hphase fun t r hr => ⟨hf.pending t r hr, .inl ⟨rfl, rfl⟩⟩
  refine alike_run le_rfl le_rfl hworlds htrace hbounded ?_
  intro m _
  cases m.label with
  | crit t start clock o pick => exact .inl ⟨rfl, rfl⟩
  | wake t => trivial

/-- A put, if it is one, stores its batch at once. -/
def StoresAtOnce : Event T → Prop
  | .crit _ start _ o _ => (startCall start).cond = .notFull → o.exit = .returned (.put .success)
  | .wake _ => True

instance (e : Event T) : Decidable (StoresAtOnce e) :=
  match e with
  | .crit _ _ _ _ _ => inferInstanceAs (Decidable (_ → _))
  | .wake _ => isTrue trivial

/-- A run in which no put is refused or kept waiting is a run of every larger queue too. -/
theorem capacity_invisible (h : BoundedRun M N buffer moves w)
    (hstores : ∀ m ∈ moves, StoresAtOnce m.label) (hM : M ≤ M') (hM' : M' ≤ 2 ^ 63) (hN : N ≤ N')
    (hlen' : buffer'.length = M') :
    ∃ moves' w', BoundedRun M' N' buffer' moves' w' ∧
      List.Forall₂ (fun m m' => SameTurn m.label m'.label) moves moves' ∧
      w'.phase = w.phase ∧ w'.shared.messages = w.shared.messages := by
  have halike : Alike M N M' N' (System.init T M N buffer).shared
      (System.init T M' N' buffer').shared := by
    refine ⟨⟨.empty, .empty, .init (T := T) h.capacity h.length_buffer, .init (T := T) hM' hlen',
      rfl⟩, ?_, .inr rfl⟩
    intro k
    cases k <;> rfl
  have hworlds : (alikeCorrespondence M N M' N').Worlds (System.init T M N buffer)
      (System.init T M' N' buffer') := by
    refine alike_worlds halike rfl ?_
    rintro t r (ht | ht) <;> cases ht
  obtain ⟨moves', w', htrace, hbounded, hturns, hend⟩ :=
    alike_run hM hN hworlds h.trace h.bounded fun m hm => by
      have hm := hstores m hm
      cases he : m.label with
      | crit t start clock o pick =>
          rw [he] at hm
          exact .inr hm
      | wake t => trivial
  exact ⟨moves', w', ⟨hM', hlen', htrace, hbounded⟩, hturns, hend⟩

end Runs

/-- A message at the front of the ring, or the same message behind one that is gone. -/
def placedSchedule (behind : Bool) (producer consumer : T) : List (Action T Call Clock) :=
  let clock : Clock := ⟨⟨0, 0⟩, ⟨0, 0⟩⟩
  let get : Call := .get ⟨List.replicate 32 0, 1, 24, true, 1000000⟩
  (if behind then [.enter producer (.put ⟨[[9]], true, 1000000⟩) clock none,
    .enter consumer get clock none] else []) ++
  [.enter producer (.put ⟨[[1]], true, 1000000⟩) clock none]

theorem placed_run (behind : Bool) :
    ∃ (moves : List (Move (System (Fin 2)) (Event (Fin 2)))) (w : System (Fin 2)),
      BoundedRun 24 5 (List.replicate 24 0) moves w ∧ (∀ m ∈ moves, StoresAtOnce m.label) ∧
      (∀ t, w.phase t = .idle) ∧ w.shared.messages = some [[1]] ∧
      w.shared.queue.head = if behind then 9 else 0 := by
  have hrun : (program.run (System.init (Fin 2) 24 5 (List.replicate 24 0))
      (placedSchedule behind 0 1)).any (fun r => decide
        ((∀ m ∈ r.1, BoundedEvent m.label) ∧ (∀ m ∈ r.1, StoresAtOnce m.label) ∧
        (∀ t, r.2.phase t = .idle) ∧ r.2.shared.messages = some [[1]] ∧
        r.2.shared.queue.head = if behind then 9 else 0)) = true := by
    cases behind <;> decide +kernel
  obtain ⟨moves, w, htrace, hw⟩ := reach_of_run hrun
  obtain ⟨hbounded, hrest⟩ := of_decide_eq_true hw
  exact ⟨moves, w, ⟨by decide, rfl, htrace, hbounded⟩, hrest⟩

theorem messages_decide_placed :
    ∃ (moves moves' more more' : List (Move (System (Fin 2)) (Event (Fin 2))))
      (w v w' v' : System (Fin 2)), BoundedRun 24 5 (List.replicate 24 0) moves w ∧
      BoundedRun 24 5 (List.replicate 24 0) moves' w' ∧ w.shared.queue.head = 0 ∧
      w'.shared.queue.head = 9 ∧ Trace (Step program) w more v ∧
      Trace (Step program) w' more' v' ∧
      List.Forall₂ (fun m m' => SameTurn m.label m'.label) more more' ∧ more.length = 1 ∧
      v'.phase = v.phase ∧ v'.shared.messages = v.shared.messages := by
  obtain ⟨moves, w, hrun, -, hidle, hmessages, hhead⟩ := placed_run false
  obtain ⟨moves', w', hrun', -, hidle', hmessages', hhead'⟩ := placed_run true
  have hphase : w'.phase = w.phase := funext fun t => (hidle' t).trans (hidle t).symm
  obtain ⟨f, hf⟩ := hrun.sound
  let start : Start Call Request := .enter (.get ⟨List.replicate 32 0, 1, 24, true, 1000000⟩)
  have hbound : (startCall start).Bounded := trivial
  have hstart : w.phase 1 = start.phase := hidle 1
  obtain ⟨o, hbody⟩ := section_ok hf.represents hbound ⟨⟨0, 0⟩, ⟨0, 0⟩⟩
  obtain ⟨pick, v, hstep⟩ := exists_step hstart hbody
  obtain ⟨more', v', htrace', -, hturns, hphases, hsame⟩ := messages_decide hrun hrun'
    (hmessages'.trans hmessages.symm) hphase (.single hstep) (by
      intro m hm
      rw [List.mem_singleton.mp hm]
      trivial)
  exact ⟨moves, moves', _, more', w, v, w', v', hrun, hrun', hhead, hhead', .single hstep, htrace',
    hturns, rfl, hphases, hsame⟩

theorem capacity_invisible_placed :
    ∃ (moves moves' : List (Move (System (Fin 2)) (Event (Fin 2)))) (w w' : System (Fin 2)),
      BoundedRun 24 5 (List.replicate 24 0) moves w ∧ w.shared.queue.head = 9 ∧
      BoundedRun 1000 100 (List.replicate 1000 0) moves' w' ∧
      List.Forall₂ (fun m m' => SameTurn m.label m'.label) moves moves' ∧ w'.phase = w.phase ∧
      w'.shared.messages = some [[1]] := by
  obtain ⟨moves, w, hrun, hstores, -, hmessages, hhead⟩ := placed_run true
  have hM : 24 ≤ 1000 := by decide
  have hN : 5 ≤ 100 := by decide
  have hlen : (List.replicate 1000 (0 : UInt8)).length = 1000 := List.length_replicate
  obtain ⟨moves', w', hrun', hturns, hphase, hsame⟩ :=
    capacity_invisible hrun hstores hM (by decide) hN hlen
  exact ⟨moves, moves', w, w', hrun, hhead, hrun', hturns, hphase, hsame.trans hmessages⟩

end FasterFifo
