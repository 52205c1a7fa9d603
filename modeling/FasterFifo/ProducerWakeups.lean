import FasterFifo.ConsumerWakeups
import FasterFifo.Contracts

/-! A signal on `not_full` reaches one producer, which may go back to sleep or give up without
waking another one that would fit. Only such a dropped wakeup leaves a fitting producer behind. -/
namespace FasterFifo
open CheckedMemory Framing Transition Monitor
open BoundedFifo (total Store total_append total_cons total_nil)

variable {T : Type} {M N : ℕ}

/-- A producer asleep whose batch would fit now. -/
def Queue.fitsSleeper (q : Queue) : Phase Request → Bool
  | .asleep ⟨.put a, _⟩ => q.canFit (totalSize a.msgSizes) a.msgs.length
  | _ => false

/-- No producer is asleep while its batch would fit with nobody due to wake it. -/
def ProducersServed (w : System T) : Prop :=
  Quiescent w → ∀ t, w.shared.queue.fitsSleeper (w.phase t) = false

/-- The request can take the first of the queued messages, if there is one. -/
def GetArgs.takes (a : GetArgs) : Option (List Bytes) → Prop
  | some (x :: _) =>
      1 ≤ a.maxMessagesToGet ∧ 1 ≤ a.maxBytesToGet ∧ msgWeight x ≤ a.msgBufferSize
  | _ => True

instance (a : GetArgs) (queued : Option (List Bytes)) : Decidable (a.takes queued) :=
  match queued with
  | some (_ :: _) => inferInstanceAs (Decidable (_ ∧ _))
  | some [] => isTrue trivial
  | none => isTrue trivial

/-- Messages have at least one byte, and a get that finds a message can take it. -/
def Ordinary (m : Move (System T) (Event T)) : Prop :=
  match m.label with
  | .crit _ start _ _ _ =>
      match startCall start with
      | .put a => ∀ x ∈ a.msgs, 1 ≤ x.length
      | .get a => a.takes m.pre.shared.messages
  | .wake _ => True

instance (m : Move (System T) (Event T)) : Decidable (Ordinary m) :=
  match m with
  | ⟨_, .crit _ (.enter (.put a)) _ _ _, _⟩ =>
      inferInstanceAs (Decidable (∀ x ∈ a.msgs, 1 ≤ x.length))
  | ⟨_, .crit _ (.resume ⟨.put a, _⟩) _ _ _, _⟩ =>
      inferInstanceAs (Decidable (∀ x ∈ a.msgs, 1 ≤ x.length))
  | ⟨w, .crit _ (.enter (.get a)) _ _ _, _⟩ =>
      inferInstanceAs (Decidable (a.takes w.shared.messages))
  | ⟨w, .crit _ (.resume ⟨.get a, _⟩) _ _ _, _⟩ =>
      inferInstanceAs (Decidable (a.takes w.shared.messages))
  | ⟨_, .wake _, _⟩ => isTrue trivial

/-- A woken producer finds no room while another one asleep would fit, is the last
producer awake, and does not leave the wakeup with a consumer of a non-empty queue. -/
def DropsWakeup [DecidableEq T] [Fintype T] (m : Move (System T) (Event T)) : Prop :=
  match m.label with
  | .crit t (.resume ⟨.put a, waitUntil⟩) clock _ _ =>
      m.pre.shared.queue.canFit (totalSize a.msgSizes) a.msgs.length = false ∧
        (∃ u, m.pre.shared.queue.fitsSleeper (m.pre.phase u) = true) ∧
        (∀ u, u ≠ t → (m.pre.phase u).wokenOn program.cond .notFull = false) ∧
        (m.pre.shared.queue.size = 0 ∨
          (∀ u, (m.pre.phase u).wokenOn program.cond .notEmpty = false) ∧
            (a.givesUp (timersub waitUntil clock.woke) = true ∨ ¬Sleeping m.pre .notEmpty))
  | _ => False

instance [DecidableEq T] [Fintype T] (m : Move (System T) (Event T)) : Decidable (DropsWakeup m) :=
  match m with
  | ⟨_, .crit _ (.resume ⟨.put _, _⟩) _ _ _, _⟩ => inferInstanceAs (Decidable (_ ∧ _ ∧ _ ∧ _))
  | ⟨_, .crit _ (.resume ⟨.get _, _⟩) _ _ _, _⟩ => isFalse id
  | ⟨_, .crit _ (.enter _) _ _ _, _⟩ => isFalse id
  | ⟨_, .wake _, _⟩ => isFalse id

/-- While a fitting producer sleeps, another producer is awake, or a consumer of a
non-empty queue is. -/
def ProducerBaton (w : System T) : Prop :=
  (∃ u, w.shared.queue.fitsSleeper (w.phase u) = true) →
    (∃ v, (w.phase v).wokenOn program.cond .notFull = true) ∨
      0 < w.shared.queue.size ∧ ∃ v, (w.phase v).wokenOn program.cond .notEmpty = true

theorem ProducerBaton.served {w : System T} (h : ProducerBaton w) : ProducersServed w := by
  intro hquiet t
  rw [Bool.eq_false_iff]
  intro hfit
  rcases h ⟨t, hfit⟩ with ⟨v, hv⟩ | ⟨-, v, hv⟩
  · have hw := isWoken_of_wokenOn hv
    rw [hquiet v] at hw
    cases hw
  · have hw := isWoken_of_wokenOn hv
    rw [hquiet v] at hw
    cases hw

/-- The batches of the producers inside `wait` are non-empty, and so are their messages. -/
def Substantial (w : System T) : Prop :=
  ∀ t r a, w.Pending t r → r.call = .put a → a.msgs ≠ [] ∧ ∀ x ∈ a.msgs, 1 ≤ x.length

section Facts
variable {w : System T} {f : MessageStore M N} {t : T} {q : Queue} {x : Phase Request}

theorem fitsSleeper_iff :
    q.fitsSleeper x = true ↔ ∃ a waitUntil, x = .asleep ⟨.put a, waitUntil⟩ ∧
      q.canFit (totalSize a.msgSizes) a.msgs.length = true := by
  constructor
  · intro h
    unfold Queue.fitsSleeper at h
    split at h
    · exact ⟨_, _, rfl, h⟩
    · cases h
  · rintro ⟨a, waitUntil, rfl, h⟩
    exact h

theorem asleepOn_of_fitsSleeper (h : q.fitsSleeper x = true) :
    x.asleepOn program.cond .notFull = true := by
  obtain ⟨a, waitUntil, rfl, -⟩ := fitsSleeper_iff.mp h
  rfl

theorem canFit_probe {s : Shared} (h : Represents s f) {batch : List Bytes} (hne : batch ≠ [])
    (hlen : ∀ x ∈ batch, 1 ≤ x.length) (hfit : f.Fits batch) :
    s.queue.canFit minMsgSize 1 = true := by
  cases batch with
  | nil => exact absurd rfl hne
  | cons x xs =>
      have hx := hlen x List.mem_cons_self
      have hone : f.Fits [[0]] := by
        simp only [Store.Fits, total_cons, total_nil, msgWeight, List.length_cons, List.length_nil]
          at hfit ⊢
        omega
      exact (canFit_iff h (a := ⟨[[0]], false, 0⟩) (by decide)).mpr hone

end Facts

section Steps
variable [DecidableEq T] {w w' : System T} {f : MessageStore M N} {t u : T}
  {start : Start Call Request} {clock : Clock} {o : Section} {pick : Option T} {a : PutArgs}

/-- An empty batch fits whatever the queue holds, so its call never waits. -/
theorem waiting_put_ne_nil (hsound : Sound w f) (hc : startCall start = .put a)
    (hbound : (startCall start).Bounded) (hstep : Step program w (.crit t start clock o pick) w')
    {r : Request} (hx : o.exit = .waiting r) : a.msgs ≠ [] := by
  intro hnil
  rw [hc] at hbound
  have hfits : f.Fits a.msgs := by
    rw [hnil]
    exact ⟨f.weight_le, f.count_le⟩
  rcases put_step_cases hstep hc with ⟨-, -, -, hreturned⟩ | ⟨hfit, -, -⟩
  · rw [hreturned] at hx
    cases hx
  · rw [(canFit_iff hsound.represents hbound).mpr hfits] at hfit
    cases hfit

theorem Substantial.step {e : Event T} (hsub : Substantial w) (hsound : Sound w f)
    (hordinary : Ordinary ⟨w, e, w'⟩) (hbounded : BoundedEvent e) (hstep : Step program w e w') :
    Substantial w' := by
  intro u r a hr ha
  cases e with
  | wake t => exact hsub u r a (hstep.wake_pending hr) ha
  | crit t start clock o pick =>
      rcases hstep.pending hr with ⟨-, hold⟩ | ⟨-, hnew⟩
      · exact hsub u r a hold ha
      · obtain ⟨hphase, hbody, -, -⟩ := hstep.crit_inv
        have hc : startCall start = .put a := (waiting_call hbody hnew).symm.trans ha
        simp only [Ordinary, hc] at hordinary
        exact ⟨waiting_put_ne_nil hsound hc (hsound.start_call hphase hbounded) hstep hnew,
          hordinary⟩

omit [DecidableEq T] in
theorem ne_of_wokenOn {k : Cond} (hphase : w.phase t = start.phase)
    (hk : (startCall start).cond ≠ k) (hu : (w.phase u).wokenOn program.cond k = true) :
    u ≠ t := by
  rintro rfl
  rw [hphase] at hu
  cases start with
  | enter c => cases hu
  | resume r => exact hk (of_decide_eq_true hu)

omit [DecidableEq T] in
theorem ne_of_enter {c : Call} {k : Cond} (hphase : w.phase t = (Start.enter c).phase)
    (hu : (w.phase u).wokenOn program.cond k = true) : u ≠ t := by
  rintro rfl
  rw [hphase] at hu
  cases hu

theorem fitsSleeper_before (hstep : Step program w (.crit t start clock o pick) w')
    (hu : w'.shared.queue.fitsSleeper (w'.phase u) = true)
    (hself : w'.shared.queue.fitsSleeper o.exit.phase = false) :
    u ≠ t ∧ ∃ a waitUntil, w'.phase u = .asleep ⟨.put a, waitUntil⟩ ∧
      w.phase u = .asleep ⟨.put a, waitUntil⟩ := by
  have hne : u ≠ t := by
    rintro rfl
    rw [hstep.crit_inv.2.2.2, hself] at hu
    cases hu
  obtain ⟨a, waitUntil, hphase, -⟩ := fitsSleeper_iff.mp hu
  exact ⟨hne, a, waitUntil, hphase, hstep.asleep hne hphase⟩

theorem NoRoom.fits_not {a : PutArgs} (hno : NoRoom w w' t a (startRemaining start clock) o)
    (hstep : Step program w (.crit t start clock o pick) w') (hc : startCall start = .put a)
    (hfit : w.shared.queue.canFit (totalSize a.msgSizes) a.msgs.length = false) :
    w'.shared.queue.fitsSleeper o.exit.phase = false := by
  cases hx : o.exit with
  | returned r => rfl
  | waiting r =>
      obtain ⟨c, waitUntil⟩ := r
      obtain rfl : c = .put a := (waiting_call hstep.crit_inv.2.1 hx).trans hc
      exact (hno.room _ _).trans hfit

theorem ProducerBaton.same_room (hbaton : ProducerBaton w)
    (hstep : Step program w (.crit t start clock o pick) w')
    (hroom : ∀ n k, w'.shared.queue.canFit n k = w.shared.queue.canFit n k)
    (hself : w'.shared.queue.fitsSleeper o.exit.phase = false)
    (hu : w'.shared.queue.fitsSleeper (w'.phase u) = true) :
    w.shared.queue.fitsSleeper (w.phase u) = true ∧
      ((∃ v, (w.phase v).wokenOn program.cond .notFull = true) ∨
        0 < w.shared.queue.size ∧ ∃ v, (w.phase v).wokenOn program.cond .notEmpty = true) := by
  obtain ⟨-, a, waitUntil, hafter, hbefore⟩ := fitsSleeper_before hstep hu hself
  have hfit : w.shared.queue.fitsSleeper (w.phase u) = true := by
    rw [hafter] at hu
    rw [hbefore, Queue.fitsSleeper, ← hroom]
    exact hu
  exact ⟨hfit, hbaton ⟨u, hfit⟩⟩

theorem ProducerBaton.kept (hstep : Step program w (.crit t start clock o pick) w')
    (hc : (startCall start).cond = .notFull) (hsize : w'.shared.queue.size = w.shared.queue.size)
    (h : (∃ v, v ≠ t ∧ (w.phase v).wokenOn program.cond .notFull = true) ∨
      0 < w.shared.queue.size ∧ ∃ v, (w.phase v).wokenOn program.cond .notEmpty = true) :
    (∃ v, (w'.phase v).wokenOn program.cond .notFull = true) ∨
      0 < w'.shared.queue.size ∧ ∃ v, (w'.phase v).wokenOn program.cond .notEmpty = true := by
  rcases h with ⟨v, hne, hv⟩ | ⟨hpos, v, hv⟩
  · exact .inl ⟨v, hstep.wokenOn hne hv⟩
  · have hne := ne_of_wokenOn hstep.crit_inv.1 (by rw [hc]; simp) hv
    exact .inr ⟨by rwa [hsize], v, hstep.wokenOn hne hv⟩

omit [DecidableEq T] in
theorem alone_of_not_kept
    (h : ¬((∃ v, v ≠ t ∧ (w.phase v).wokenOn program.cond .notFull = true) ∨
      0 < w.shared.queue.size ∧ ∃ v, (w.phase v).wokenOn program.cond .notEmpty = true)) :
    (∀ v, v ≠ t → (w.phase v).wokenOn program.cond .notFull = false) ∧
      (w.shared.queue.size = 0 ∨ ∀ v, (w.phase v).wokenOn program.cond .notEmpty = false) := by
  obtain ⟨hproducer, hconsumer⟩ := not_or.mp h
  refine ⟨fun v hne => Bool.eq_false_iff.mpr fun hv => hproducer ⟨v, hne, hv⟩, ?_⟩
  rcases Nat.eq_zero_or_pos w.shared.queue.size with hzero | hpos
  · exact .inl hzero
  · exact .inr fun v => Bool.eq_false_iff.mpr fun hv => hconsumer ⟨hpos, v, hv⟩

end Steps

section Baton
variable [Fintype T] [DecidableEq T] {w w' : System T} {f : MessageStore M N} {t u : T}
  {start : Start Call Request} {clock : Clock} {o : Section} {pick : Option T}

/-- A get never drops the wakeup. -/
theorem ProducerBaton.get_step {a : GetArgs} (hbaton : ProducerBaton w) (hsound : Sound w f)
    (hcount : Counted w) (hstep : Step program w (.crit t start clock o pick) w')
    (hc : startCall start = .get a) (htakes : a.takes w.shared.messages) : ProducerBaton w' := by
  have hcount' := hcount.step hstep
  rintro ⟨u, hu⟩
  left
  obtain ⟨hphase, hbody, hshared, hself⟩ := hstep.crit_inv
  have hstart := hsound.represents.startShared start
  rw [body_eq, hc] at hbody
  have hempty : (startShared start w.shared).queue.size = 0 →
      (∀ n k, w'.shared.queue.canFit n k = w.shared.queue.canFit n k) →
      w'.shared.queue.fitsSleeper o.exit.phase = false →
      ∃ v, (w'.phase v).wokenOn program.cond .notFull = true := by
    intro hzero hroom hnot
    rw [startShared_size] at hzero
    rcases (hbaton.same_room hstep hroom hnot hu).2 with ⟨v, hv⟩ | ⟨hpos, -⟩
    · exact ⟨v, hstep.wokenOn (ne_of_wokenOn hphase (by rw [hc]; simp [Call.cond]) hv) hv⟩
    · exact absurd hzero hpos.ne'
  cases queueGetWait_cases hbody with
  | empty hzero hstop =>
      exact hempty hzero (fun n k => by rw [hshared, startShared_canFit]) rfl
  | wait hzero hblock htimer =>
      refine hempty hzero ?_ rfl
      intro n k
      rw [hshared, beginWait, Shared.addWaiter, canFit_addWaiter, startShared_canFit]
  | read hpos hloop =>
      obtain ⟨hne, hserved, -⟩ := read_spec hstart hpos hloop
      rw [hsound.represents.messages_eq] at htakes
      have hserves : 1 ≤ a.serves (a.start (startShared start w.shared)) f.items := by
        cases hf : f.items with
        | nil => exact absurd hf hne
        | cons x xs =>
            rw [hf] at htakes
            exact serves_pos _ xs htakes.1 htakes.2.1 htakes.2.2
      obtain ⟨hut, -⟩ := fitsSleeper_before hstep hu rfl
      have hwaits := (hcount'.pos_iff .notFull).mpr
        ⟨u, waitsOn_of_asleepOn (asleepOn_of_fitsSleeper hu)⟩
      refine hcount'.awake_of_signal hstep rfl (if_pos ⟨?_, ?_⟩) hwaits
      · rw [hserved]
        exact hserves.trans_eq (Nat.zero_add _).symm
      · rwa [hshared] at hwaits

/-- A put that commits signals a consumer of what it wrote, or else the next producer. -/
theorem ProducerBaton.commit_step {a : PutArgs} (hbaton : ProducerBaton w) (hsound : Sound w f)
    (hsub : Substantial w) (hcount : Counted w)
    (hstep : Step program w (.crit t start clock o pick) w') (hc : startCall start = .put a)
    (hbound : (startCall start).Bounded)
    (hfit : w.shared.queue.canFit (totalSize a.msgSizes) a.msgs.length = true)
    (hwrite : writeMessages (startShared start w.shared) a.msgs = .ok w'.shared)
    (ho : o.signalled = w'.shared.queue.signalAfterPut) (hx : o.exit = .returned (.put .success)) :
    ProducerBaton w' := by
  rintro ⟨u, hu⟩
  have hcount' := hcount.step hstep
  have hphase := hstep.crit_inv.1
  have hstart := hsound.represents.startShared start
  have hself : w'.shared.queue.fitsSleeper o.exit.phase = false := by rw [hx]; rfl
  obtain ⟨-, b, waitUntil, hafter, hbefore⟩ := fitsSleeper_before hstep hu hself
  obtain ⟨hne, hlen⟩ := hsub u _ b (.inl hbefore) rfl
  have hwaits := (hcount'.pos_iff .notFull).mpr
    ⟨u, waitsOn_of_asleepOn (asleepOn_of_fitsSleeper hu)⟩
  rw [hc] at hbound
  rw [← startShared_canFit start] at hfit
  obtain ⟨hroom, hrep, -⟩ := commit_spec hstart hbound.addressable hfit hwrite
  by_cases hconsumer : w'.shared.queue.notEmptyNWaiters > 0
  · have hwoken := hcount'.awake_of_signal hstep hx (ho.trans (if_pos hconsumer)) hconsumer
    have hwritten : a.msgs ≠ [] → 0 < w'.shared.queue.size := by
      intro hsome
      refine Nat.pos_of_ne_zero fun hzero => hsome ?_
      exact (List.append_eq_nil_iff.mp (hrep.size_eq_zero_iff.mp hzero)).2
    cases start with
    | resume r => exact .inr ⟨hwritten (hsub t r a (.inr hphase) hc).1, hwoken⟩
    | enter c =>
        by_cases hnil : a.msgs = []
        · -- an empty batch leaves the room as it is
          rw [hnil] at hwrite
          have hsame : w'.shared = w.shared := (Except.ok.inj hwrite).symm
          have hroom' : ∀ n k, w'.shared.queue.canFit n k = w.shared.queue.canFit n k := by
            intro n k
            rw [hsame]
          rcases (hbaton.same_room hstep hroom' hself hu).2 with ⟨v, hv⟩ | ⟨hpos, -⟩
          · exact .inl ⟨v, hstep.wokenOn (ne_of_enter hphase hv) hv⟩
          · exact .inr ⟨by rwa [hsame], hwoken⟩
        · exact .inr ⟨hwritten hnil, hwoken⟩
  · have hfits : (f.enqueue a.msgs hroom).Fits b.msgs := by
      rw [hafter] at hu
      exact (canFit_iff hrep (hsound.pending u _ (.inl hbefore))).mp hu
    have hprobe : w'.shared.queue.notFullNWaiters ≠ 0 ∧
        w'.shared.queue.canFit minMsgSize 1 = true :=
      ⟨hwaits.ne', canFit_probe hrep hne hlen hfits⟩
    have hsignal : w'.shared.queue.signalAfterPut = some .notFull := by
      rw [Queue.signalAfterPut, if_neg hconsumer, if_pos hprobe]
    exact .inl (hcount'.awake_of_signal hstep hx (ho.trans hsignal) hwaits)

/-- A put that finds no room hands on the wakeup it had, unless it drops it. -/
theorem ProducerBaton.no_room_step {a : PutArgs} (hbaton : ProducerBaton w) (hcount : Counted w)
    (hstep : Step program w (.crit t start clock o pick) w') (hc : startCall start = .put a)
    (hfit : w.shared.queue.canFit (totalSize a.msgSizes) a.msgs.length = false)
    (hno : NoRoom w w' t a (startRemaining start clock) o)
    (hgood : ¬DropsWakeup ⟨w, .crit t start clock o pick, w'⟩) : ProducerBaton w' := by
  rintro ⟨u, hu⟩
  have hphase := hstep.crit_inv.1
  have hkept := ProducerBaton.kept hstep (by rw [hc]; rfl) hno.size
  obtain ⟨hfits, hawake⟩ := hbaton.same_room hstep hno.room (hno.fits_not hstep hc hfit) hu
  cases start with
  | enter c => exact hkept (hawake.imp (fun ⟨v, hv⟩ => ⟨v, ne_of_enter hphase hv, hv⟩) id)
  | resume r =>
      obtain ⟨c, waitUntil⟩ := r
      obtain rfl : c = .put a := hc
      by_contra hnone
      obtain ⟨hproducer, hconsumer⟩ := alone_of_not_kept fun h => hnone (hkept h)
      -- the step would be a drop, were it not for a consumer that the wait signals
      obtain ⟨hsome, hgives, x, hx⟩ : w.shared.queue.size ≠ 0 ∧
          a.givesUp (timersub waitUntil clock.woke) = false ∧ Sleeping w .notEmpty := by
        by_contra hdrop
        refine hgood ⟨hfit, ⟨u, hfits⟩, hproducer, ?_⟩
        by_cases hzero : w.shared.queue.size = 0
        · exact .inl hzero
        · refine .inr ⟨hconsumer.resolve_left hzero, ?_⟩
          cases hgives : a.givesUp (timersub waitUntil clock.woke) with
          | true => exact .inl rfl
          | false => exact .inr fun hsleep => hdrop ⟨hzero, hgives, hsleep⟩
      have hpos := (hcount.pos_iff .notEmpty).mpr ⟨x, waitsOn_of_asleepOn hx⟩
      obtain ⟨v, -, hv⟩ := hstep.wakes_one ((hno.signals hgives).trans (if_pos hpos)) hx
      exact hnone (.inr ⟨by rw [hno.size]; exact Nat.pos_of_ne_zero hsome, v, hv⟩)

theorem ProducerBaton.step {e : Event T} (hbaton : ProducerBaton w) (hsound : Sound w f)
    (hsub : Substantial w) (hcount : Counted w) (hordinary : Ordinary ⟨w, e, w'⟩)
    (hbounded : BoundedEvent e) (hstep : Step program w e w') (hgood : ¬DropsWakeup ⟨w, e, w'⟩) :
    ProducerBaton w' := by
  cases e with
  | wake t =>
      rintro ⟨u, hu⟩
      obtain ⟨hshared, -⟩ := hstep.wake_inv
      rw [hshared] at hu ⊢
      obtain ⟨a, waitUntil, hphase, hfit⟩ := fitsSleeper_iff.mp hu
      have hbefore : w.shared.queue.fitsSleeper (w.phase u) = true :=
        fitsSleeper_iff.mpr ⟨a, waitUntil, hstep.wake_asleep hphase, hfit⟩
      have hkeep : ∀ {k : Cond} {v : T}, (w.phase v).wokenOn program.cond k = true →
          (w'.phase v).wokenOn program.cond k = true := by
        intro k v hv
        rwa [hstep.wake_keeps fun p hp => by rw [hp] at hv; cases hv]
      exact (hbaton ⟨u, hbefore⟩).imp (fun ⟨v, hv⟩ => ⟨v, hkeep hv⟩)
        (fun ⟨hpos, v, hv⟩ => ⟨hpos, v, hkeep hv⟩)
  | crit t start clock o pick =>
      have hcall := hsound.start_call hstep.crit_inv.1 hbounded
      cases hc : startCall start with
      | put a =>
          rcases put_step_cases hstep hc with ⟨hfit, hwrite, ho, hx⟩ | ⟨hfit, -, hno⟩
          · exact hbaton.commit_step hsound hsub hcount hstep hc hcall hfit hwrite ho hx
          · exact hbaton.no_room_step hcount hstep hc hfit hno hgood
      | get a =>
          simp only [Ordinary, hc] at hordinary
          exact hbaton.get_step hsound hcount hstep hc hordinary

theorem served_of_no_drop {buffer : Bytes} {moves : List (Move (System T) (Event T))}
    (h : BoundedRun M N buffer moves w) (hordinary : ∀ m ∈ moves, Ordinary m)
    (hgood : ∀ m ∈ moves, ¬DropsWakeup m) :
    ∀ v ∈ visited (System.init T M N buffer) moves, ProducersServed v := by
  intro v hv
  have hkeep := h.trace.invariant_visited
    (I := fun v => (∃ f : MessageStore M N, Sound v f) ∧ Substantial v ∧ Counted v ∧
      ProducerBaton v)
    (fun m (hm : BoundedEvent m.label ∧ Ordinary m ∧ ¬DropsWakeup m) hstep hI => by
      obtain ⟨⟨f, hsound⟩, hsub, hcount, hbaton⟩ := hI
      obtain ⟨-, g, -, -, hsound'⟩ := hsound.step hm.1 hstep
      exact ⟨⟨g, hsound'⟩, hsub.step hsound hm.2.1 hm.1 hstep, hcount.step hstep,
        hbaton.step hsound hsub hcount hm.2.1 hm.1 hstep hm.2.2⟩)
    (fun m hm => ⟨h.bounded m hm, hordinary m hm, hgood m hm⟩)
    ⟨⟨_, .init h.capacity h.length_buffer⟩, ?_, counted_init M N buffer, ?_⟩
  · exact (hkeep v hv).2.2.2.served
  · rintro t r a (hr | hr) <;> cases hr
  · rintro ⟨u, hu⟩
    cases hu

omit [Fintype T] [DecidableEq T] in
theorem timersub_self (x : Timeval) : timerPositive (timersub x x) = false := by
  simp [timersub, timerPositive]

omit [Fintype T] in
theorem expire {v : T} {a : GetArgs} {waitUntil : Timeval}
    (hphase : w.phase v = .woken ⟨.get a, waitUntil⟩) (hsize : w.shared.queue.size = 0) :
    Step program w
      (.crit v (.resume ⟨.get a, waitUntil⟩) ⟨waitUntil, waitUntil⟩
        ⟨w.shared.addWaiter .notEmpty (-1), none,
          .returned (.get ⟨.empty, 0, 0, 0, a.msgBuffer⟩)⟩ none)
      ⟨w.shared.addWaiter .notEmpty (-1), Function.update w.phase v .idle⟩ := by
  refine .crit hphase ?_ .silent
  have hzero : (w.shared.addWaiter .notEmpty (-1)).queue.size ≤ 0 := by
    rw [size_addWaiter, hsize]
  have hstop : (!a.block || !timerPositive (timersub waitUntil waitUntil)) = true := by
    rw [timersub_self, Bool.not_false, Bool.or_true]
  exact (if_pos hzero).trans (if_pos hstop)

/-- With the queue empty and only consumers awake, everybody awake can run out of time. -/
theorem settle (n : ℕ) (hn : Census.census Phase.isWoken w.phase = n)
    (hsize : w.shared.queue.size = 0) (hmessages : w.shared.messages = some [])
    (hwoken : ∀ v, (w.phase v).isWoken = true → (w.phase v).wokenOn program.cond .notEmpty = true) :
    ∃ more w', Trace (Step program) w more w' ∧
      (∀ m ∈ more, BoundedEvent m.label ∧ Ordinary m) ∧ Quiescent w' ∧
      (∀ n k, w'.shared.queue.canFit n k = w.shared.queue.canFit n k) ∧
      ∀ u p, w.phase u = .asleep p → w'.phase u = .asleep p := by
  induction n generalizing w with
  | zero =>
      refine ⟨[], w, .nil, by simp, ?_, fun _ _ => rfl, fun _ _ hu => hu⟩
      intro v
      rw [Bool.eq_false_iff]
      intro hv
      have hpos := (Census.census_pos_iff Phase.isWoken w.phase).mpr ⟨v, hv⟩
      exact hpos.ne' hn
  | succ n ih =>
      obtain ⟨v, hv⟩ := (Census.census_pos_iff Phase.isWoken w.phase).mp (hn ▸ Nat.succ_pos n)
      obtain ⟨⟨c, waitUntil⟩, hphase, hcond⟩ := wokenOn_iff.mp (hwoken v hv)
      cases c with
      | put a => cases hcond
      | get a =>
          have hstep := expire hphase hsize
          have hcensus := Census.census_update Phase.isWoken w.phase v .idle
          rw [hv, hn] at hcensus
          obtain ⟨more, w', htrace, hmore, hquiet, hroom, hasleep⟩ := ih
            (w := ⟨w.shared.addWaiter .notEmpty (-1), Function.update w.phase v .idle⟩)
            (Nat.add_right_cancel hcensus) ((size_addWaiter _ _ _).trans hsize) hmessages
            (fun x hx => by
              dsimp only at hx ⊢
              rcases eq_or_ne x v with rfl | hne
              · rw [Function.update_self] at hx
                cases hx
              · rw [Function.update_of_ne hne] at hx ⊢
                exact hwoken x hx)
          refine ⟨_, w', (Trace.single hstep).append htrace, ?_, hquiet,
            fun n k => (hroom n k).trans (canFit_addWaiter _ _ _ _ _), ?_⟩
          · intro m hm
            rcases List.mem_append.mp hm with hm | hm
            · rw [List.mem_singleton.mp hm]
              refine ⟨trivial, ?_⟩
              simp only [Ordinary, startCall, hmessages]
              trivial
            · exact hmore m hm
          · intro u p hu
            refine hasleep u p ((Function.update_of_ne ?_ _ _).trans hu)
            rintro rfl
            rw [hphase] at hu
            cases hu

omit [Fintype T] in
theorem awake_are_consumers (hstep : Step program w (.crit t start clock o pick) w')
    (hrests : (w'.phase t).isWoken = false) (hquiet : o.signalled ≠ some .notFull)
    (hproducer : ∀ v, v ≠ t → (w.phase v).wokenOn program.cond .notFull = false) {v : T}
    (hv : (w'.phase v).isWoken = true) :
    ∃ r, w'.phase v = .woken r ∧ r.call.cond = .notEmpty ∧
      (w.phase v = .woken r ∨ w.phase v = .asleep r ∧ o.signalled ≠ none) := by
  obtain ⟨r, hr⟩ := isWoken_iff.mp hv
  have hne : v ≠ t := by
    rintro rfl
    rw [hrests] at hv
    cases hv
  rcases hstep.woken_before hne hr with hold | ⟨hold, hsignal⟩
  · refine ⟨r, hr, ?_, .inl hold⟩
    cases hcond : r.call.cond with
    | notEmpty => rfl
    | notFull =>
        have hnot := hproducer v hne
        rw [wokenOn_iff.mpr ⟨r, hold, hcond⟩] at hnot
        cases hnot
  · refine ⟨r, hr, ?_, .inr ⟨hold, by rw [hsignal]; simp⟩⟩
    cases hcond : r.call.cond with
    | notEmpty => rfl
    | notFull => exact absurd (hsignal.trans (congrArg some hcond)) hquiet

/-- After a step that drops the wakeup the run can go on to leave a fitting producer asleep. -/
theorem DropsWakeup.strands {m : Move (System T) (Event T)} (hdrop : DropsWakeup m)
    (hsound : Sound m.pre f) (hbounded : BoundedEvent m.label)
    (hstep : Step program m.pre m.label m.post) :
    ∃ more v, Trace (Step program) m.post more v ∧
      (∀ x ∈ more, BoundedEvent x.label ∧ Ordinary x) ∧ ¬ProducersServed v := by
  obtain ⟨w, e, w'⟩ := m
  simp only [DropsWakeup] at hdrop
  split at hdrop
  · rename_i t a waitUntil clock o pick
    obtain ⟨hfit, ⟨u, hu⟩, hproducer, hconsumer⟩ := hdrop
    dsimp only at hsound hbounded hstep hfit hu hproducer hconsumer
    obtain ⟨b, waitUntil', hasleep, hfits⟩ := fitsSleeper_iff.mp hu
    rcases put_step_cases hstep rfl with ⟨hfit', -⟩ | ⟨-, -, hno⟩
    · rw [hfit] at hfit'
      cases hfit'
    have hphase := hstep.crit_inv.1
    have hne : u ≠ t := by
      rintro rfl
      rw [hasleep] at hphase
      cases hphase
    have hstays := hstep.sleeps_on hne hasleep hno.signalled_ne
    have hawake := fun v => @awake_are_consumers _ _ _ _ t _ _ _ _ hstep hno.rests
      hno.signalled_ne hproducer v
    have hleft : ∀ {v : System T}, (∀ n k, v.shared.queue.canFit n k = w.shared.queue.canFit n k) →
        v.phase u = .asleep ⟨.put b, waitUntil'⟩ → Quiescent v → ¬ProducersServed v := by
      intro v hroom' hphase' hquiet' hserved
      have hnone := hserved hquiet' u
      rw [hphase', Queue.fitsSleeper, hroom', hfits] at hnone
      cases hnone
    rcases hconsumer with hzero | ⟨hnone, hlast⟩
    · -- the consumers awake find the queue empty and run out of time
      obtain ⟨g, hg, -⟩ := hsound.step_items hbounded hstep
      have hempty : w'.shared.messages = some [] := by
        rw [hg.represents.messages_eq, hg.represents.size_eq_zero_iff.mp (hno.size.trans hzero)]
      obtain ⟨more, v, htrace, hmore, hquiet, hroom, hkeep⟩ := settle _ rfl
        (hno.size.trans hzero) hempty fun v hv => by
          obtain ⟨r, hr, hcond, -⟩ := hawake v hv
          exact wokenOn_iff.mpr ⟨r, hr, hcond⟩
      exact ⟨more, v, htrace, hmore,
        hleft (fun n k => (hroom n k).trans (hno.room n k)) (hkeep u _ hstays) hquiet⟩
    · refine ⟨[], w', .nil, by simp, hleft hno.room hstays ?_⟩
      intro v
      rw [Bool.eq_false_iff]
      intro hv
      obtain ⟨r, hr, hcond, hold | ⟨hold, hsignal⟩⟩ := hawake v hv
      · have hnot := hnone v
        rw [wokenOn_iff.mpr ⟨r, hold, hcond⟩] at hnot
        cases hnot
      · rcases hlast with hgives | hsleeping
        · exact hsignal (hno.silent hgives)
        · exact hsleeping ⟨v, asleepOn_iff.mpr ⟨r, hold, hcond⟩⟩
  · exact hdrop.elim

/-- A run without a dropped wakeup leaves no fitting producer asleep in any of its
states; after a dropped wakeup a run can go on to leave one. -/
theorem producers_served {buffer : Bytes} {moves : List (Move (System T) (Event T))}
    (h : BoundedRun M N buffer moves w) (hordinary : ∀ m ∈ moves, Ordinary m) :
    ((∀ m ∈ moves, ¬DropsWakeup m) →
      ∀ v ∈ visited (System.init T M N buffer) moves, ProducersServed v) ∧
      ∀ m ∈ moves, DropsWakeup m → ∃ more v, Trace (Step program) m.post more v ∧
        (∀ x ∈ more, BoundedEvent x.label ∧ Ordinary x) ∧ ¬ProducersServed v := by
  refine ⟨served_of_no_drop h hordinary, ?_⟩
  intro m hm hdrop
  obtain ⟨before, after, -, hrun, hstep⟩ := h.before hm
  obtain ⟨f, hf⟩ := hrun.sound
  exact hdrop.strands hf (h.bounded m hm) hstep

end Baton

/-- A producer fills the queue; of the two that wait then, one wants more room than the other. The
only signal goes to one of them. -/
def signalSchedule (filler large small consumer signalled : T) : List (Action T Call Clock) :=
  let clock : Clock := ⟨⟨0, 0⟩, ⟨0, 0⟩⟩
  let put (ms : List Bytes) := Call.put ⟨ms, true, 1000000⟩
  [.enter filler (put (List.replicate 7 [0])) clock none,
    .enter large (put [List.replicate 12 0]) clock none, .enter small (put [[0]]) clock none,
    .enter consumer (.get ⟨List.replicate 64 0, 1, 64, true, 1000000⟩) clock (some signalled),
    .resume signalled clock none]

theorem dropping_run :
    ∃ (moves : List (Move (System (Fin 4)) (Event (Fin 4)))) (w : System (Fin 4)),
      BoundedRun 64 10 (List.replicate 64 0) moves w ∧ (∀ m ∈ moves, Ordinary m) ∧
      Quiescent w ∧ w.shared.queue.fitsSleeper (w.phase 2) = true ∧
      ∃ m ∈ moves, DropsWakeup m := by
  have hrun : (program.run (System.init (Fin 4) 64 10 (List.replicate 64 0))
      (signalSchedule 0 1 2 3 1)).any (fun r => decide
        ((∀ m ∈ r.1, BoundedEvent m.label) ∧ (∀ m ∈ r.1, Ordinary m) ∧
        Quiescent r.2 ∧ r.2.shared.queue.fitsSleeper (r.2.phase 2) = true ∧
        ∃ m ∈ r.1, DropsWakeup m)) = true := by
    decide +kernel
  obtain ⟨moves, w, htrace, hw⟩ := reach_of_run hrun
  obtain ⟨hbounded, hrest⟩ := of_decide_eq_true hw
  exact ⟨moves, w, ⟨by decide, rfl, htrace, hbounded⟩, hrest⟩

theorem serving_run :
    ∃ (moves : List (Move (System (Fin 4)) (Event (Fin 4)))) (w : System (Fin 4)),
      BoundedRun 64 10 (List.replicate 64 0) moves w ∧ (∀ m ∈ moves, Ordinary m) ∧
      (∀ m ∈ moves, ¬DropsWakeup m) ∧ Quiescent w ∧ Sleeping w .notFull := by
  have hrun : (program.run (System.init (Fin 4) 64 10 (List.replicate 64 0))
      (signalSchedule 0 1 2 3 2)).any (fun r => decide
        ((∀ m ∈ r.1, BoundedEvent m.label) ∧ (∀ m ∈ r.1, Ordinary m) ∧
        (∀ m ∈ r.1, ¬DropsWakeup m) ∧ Quiescent r.2 ∧ Sleeping r.2 .notFull)) = true := by
    decide +kernel
  obtain ⟨moves, w, htrace, hw⟩ := reach_of_run hrun
  obtain ⟨hbounded, hrest⟩ := of_decide_eq_true hw
  exact ⟨moves, w, ⟨by decide, rfl, htrace, hbounded⟩, hrest⟩

/-- Producer 2 sleeps although its batch fits, and nobody is due to wake it. -/
theorem producer_left_asleep :
    ∃ (moves : List (Move (System (Fin 4)) (Event (Fin 4)))) (w : System (Fin 4)),
      BoundedRun 64 10 (List.replicate 64 0) moves w ∧ (∀ m ∈ moves, Ordinary m) ∧
      ¬ProducersServed w := by
  obtain ⟨moves, w, hrun, hordinary, hquiet, hfits, -⟩ := dropping_run
  refine ⟨moves, w, hrun, hordinary, ?_⟩
  intro hserved
  rw [hserved hquiet 2] at hfits
  cases hfits

/-- Nobody is left where the signal goes to the producer that fits; where it goes to the other one,
a dropped wakeup leads to a producer that is. -/
theorem producers_served_dropping :
    (∃ (moves : List (Move (System (Fin 4)) (Event (Fin 4)))) (w : System (Fin 4)),
      BoundedRun 64 10 (List.replicate 64 0) moves w ∧ Quiescent w ∧ Sleeping w .notFull ∧
      (∀ m ∈ moves, ¬DropsWakeup m) ∧
      ∀ v ∈ visited (System.init (Fin 4) 64 10 (List.replicate 64 0)) moves, ProducersServed v) ∧
    ∃ (moves more : List (Move (System (Fin 4)) (Event (Fin 4)))) (w v : System (Fin 4))
      (m : Move (System (Fin 4)) (Event (Fin 4))),
      BoundedRun 64 10 (List.replicate 64 0) moves w ∧ m ∈ moves ∧ DropsWakeup m ∧
      Trace (Step program) m.post more v ∧
      (∀ x ∈ more, BoundedEvent x.label ∧ Ordinary x) ∧ ¬ProducersServed v := by
  constructor
  · obtain ⟨moves, w, hrun, hordinary, hkept, hquiet, hsleeping⟩ := serving_run
    obtain ⟨hserved, -⟩ := producers_served hrun hordinary
    exact ⟨moves, w, hrun, hquiet, hsleeping, hkept, hserved hkept⟩
  · obtain ⟨moves, w, hrun, hordinary, -, -, m, hm, hdrops⟩ := dropping_run
    obtain ⟨-, hstrands⟩ := producers_served hrun hordinary
    obtain ⟨more, v, htrace, hmore, hleft⟩ := hstrands m hm hdrops
    exact ⟨moves, more, w, v, m, hrun, hm, hdrops, htrace, hmore, hleft⟩

end FasterFifo
