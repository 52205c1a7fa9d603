import FasterFifo.LoneSleepers

/-! Where all batches are alike, a woken producer that does not fit leaves none behind that would,
and single messages leave no consumer behind either. Producers and consumers of batches that an
empty queue can take, however many, do not all wait for each other. -/
namespace FasterFifo
open Transition Monitor
open BoundedFifo (total total_cons)

variable {T : Type} {M N n k b : ℕ}

/-- Puts of `k` messages that weigh `n` together. -/
def Call.Alike (n k : ℕ) : Call → Prop
  | .put a => total msgWeight a.msgs = n ∧ a.msgs.length = k
  | .get _ => True

/-- No message is empty or weighs more than `b`, and a get can take any one of them. -/
def Call.Ordinary (b : ℕ) : Call → Prop
  | .put a => ∀ x ∈ a.msgs, 1 ≤ x.length ∧ msgWeight x ≤ b
  | .get a => 1 ≤ a.maxMessagesToGet ∧ 1 ≤ a.maxBytesToGet ∧ b ≤ a.msgBufferSize

/-- An empty queue can take the batch. -/
def Call.Fits (M N : ℕ) : Call → Prop
  | .put a => total msgWeight a.msgs ≤ M ∧ a.msgs.length ≤ N
  | .get _ => True

instance (n k : ℕ) (c : Call) : Decidable (c.Alike n k) :=
  match c with
  | .put _ => inferInstanceAs (Decidable (_ ∧ _))
  | .get _ => isTrue trivial

instance (b : ℕ) (c : Call) : Decidable (c.Ordinary b) :=
  match c with
  | .put _ => inferInstanceAs (Decidable (∀ _ ∈ _, _))
  | .get _ => inferInstanceAs (Decidable (_ ∧ _))

instance (M N : ℕ) (c : Call) : Decidable (c.Fits M N) :=
  match c with
  | .put _ => inferInstanceAs (Decidable (_ ∧ _))
  | .get _ => isTrue trivial

/-- There is no room for a batch. -/
def Shared.Packed (M N n k : ℕ) (s : Shared) : Prop :=
  M < s.queue.size + n ∨ N < s.queue.numElem + k

/-- The waiting calls are alike, and what is queued comes from such batches. -/
structure Uniform (n k : ℕ) (w : System T) (f : MessageStore M N) : Prop where
  admissible : Admissible (fun c => c.Bounded ∧ c.Alike n k) w f
  queued : ∀ x ∈ f.items, ∃ ms : List Bytes, x ∈ ms ∧ total msgWeight ms = n ∧ ms.length = k

section Ordinary
variable [DecidableEq T] {w w' : System T} {f : MessageStore M N} {e : Event T} {buffer : Bytes}
  {moves : List (Move (System T) (Event T))}

theorem ordinary_of_calls (hf : Admissible (fun c => c.Bounded ∧ c.Ordinary b) w f)
    (hlight : ∀ x ∈ f.items, msgWeight x ≤ b) (he : Enters (fun c => c.Bounded ∧ c.Ordinary b) e)
    (hstep : Step program w e w') : Ordinary ⟨w, e, w'⟩ := by
  cases e with
  | wake t => trivial
  | crit t start clock o pick =>
      have hcall := (hf.start_call hstep.crit_inv.1 he).2
      cases hc : startCall start with
      | put a =>
          rw [hc] at hcall
          simp only [Ordinary, hc]
          exact fun x hx => (hcall x hx).1
      | get a =>
          rw [hc] at hcall
          simp only [Ordinary, hc, hf.represents.messages_eq]
          cases hitems : f.items with
          | nil => trivial
          | cons x xs =>
              have hweight := hlight x (by rw [hitems]; exact List.mem_cons_self)
              exact ⟨hcall.1, hcall.2.1, hweight.trans hcall.2.2⟩

theorem BoundedRun.ordinary (h : BoundedRun M N buffer moves w)
    (hcalls : ∀ m ∈ moves, Enters (Call.Ordinary b) m.label) : ∀ m ∈ moves, Ordinary m := by
  intro m hm
  obtain ⟨before, after, hmoves, hrun, hstep⟩ := h.before hm
  have hboth : ∀ m ∈ moves, Enters (fun c => c.Bounded ∧ c.Ordinary b) m.label :=
    fun m hm => (h.bounded m hm).and (hcalls m hm)
  obtain ⟨f, hf, hlight⟩ := admissible_all_of_trace (P := fun x => msgWeight x ≤ b)
    (fun c hc => hc.1.addressable) (fun a ha x hx => (ha.2 x hx).2) h.capacity h.length_buffer
    hrun.trace (forall_before hboth hmoves).1
  exact ordinary_of_calls hf hlight (hboth m hm) hstep

end Ordinary

section Uniform
variable [DecidableEq T] {w w' : System T} {f : MessageStore M N} {t : T}
  {start : Start Call Request} {clock : Clock} {o : Section} {pick : Option T} {e : Event T}

omit [DecidableEq T] in
theorem Uniform.sound (h : Uniform n k w f) : Sound w f :=
  ⟨h.admissible.represents, fun t r hr => (h.admissible.pending t r hr).1⟩

omit [DecidableEq T] in
theorem Uniform.weight_eq (h : Uniform n 1 w f) {x : Bytes} (hx : x ∈ f.items) :
    msgWeight x = n := by
  obtain ⟨ms, hmem, htotal, hlen⟩ := h.queued x hx
  obtain ⟨y, rfl⟩ := List.length_eq_one_iff.mp hlen
  obtain rfl := List.mem_singleton.mp hmem
  simpa using htotal

omit [DecidableEq T] in
theorem Uniform.packed_iff (h : Uniform n k w f) {a : PutArgs}
    (ha : (Call.put a).Bounded ∧ (Call.put a).Alike n k) :
    w.shared.queue.canFit (totalSize a.msgSizes) a.msgs.length = false ↔
      w.shared.Packed M N n k := by
  obtain ⟨hbound, hweight, hlen⟩ := ha
  rw [Bool.eq_false_iff, Ne, canFit_iff h.sound.represents hbound,
    fits_iff h.sound.represents, hweight, hlen, not_and_or, not_le, not_le]
  rfl

theorem Uniform.step (h : Uniform n k w f)
    (he : Enters (fun c => c.Bounded ∧ c.Alike n k) e) (hstep : Step program w e w') :
    ∃ g : MessageStore M N, Uniform n k w' g := by
  obtain ⟨g, hg, hqueued⟩ := h.admissible.step_all (fun c hc => hc.1.addressable)
    (fun a ha x hx => ⟨a.msgs, hx, ha.2.1, ha.2.2⟩) h.queued he hstep
  exact ⟨g, hg, hqueued⟩

theorem Uniform.not_drops [Fintype T] (h : Uniform n k w f)
    (hstep : Step program w e w') : ¬DropsWakeup ⟨w, e, w'⟩ := by
  intro hdrop
  simp only [DropsWakeup] at hdrop
  split at hdrop
  · rename_i t a waitUntil clock o pick
    obtain ⟨hfit, ⟨u, hu⟩, -, -⟩ := hdrop
    obtain ⟨b, waitUntil', hphase, hroom⟩ := fitsSleeper_iff.mp hu
    have hpacked := (h.packed_iff (h.admissible.pending t _ (.inr hstep.crit_inv.1))).mp hfit
    rw [(h.packed_iff (h.admissible.pending u _ (.inl hphase))).mpr hpacked] at hroom
    cases hroom
  · exact hdrop

end Uniform

section Singles
variable [Fintype T] [DecidableEq T] {w w' : System T} {f : MessageStore M N} {t : T}
  {start : Start Call Request} {clock : Clock} {o : Section} {pick : Option T} {e : Event T}

/-- While there is no room for another message, a consumer is awake if one sleeps in front of
the queue. -/
def Guarded (M N n : ℕ) (w : System T) : Prop :=
  w.shared.Packed M N n 1 → 0 < w.shared.queue.size → Sleeping w .notEmpty →
    ∃ v, (w.phase v).wokenOn program.cond .notEmpty = true

/-- A put wakes a consumer, unless it gives up and leaves everything as it is. -/
theorem Guarded.put_step (hguard : Guarded M N n w) (h : Uniform n 1 w f) (hcount : Counted w)
    (hstep : Step program w (.crit t start clock o pick) w') {a : PutArgs}
    (hc : startCall start = .put a) (ha : (Call.put a).Bounded ∧ (Call.put a).Alike n 1) :
    Guarded M N n w' := by
  rintro - hsize ⟨u, hasleep⟩
  obtain ⟨-, hu⟩ := asleep_before hstep (by rw [hc]; simp [Call.cond]) hasleep
  rcases put_step_cases hstep hc with ⟨-, -, ho, hx⟩ | ⟨hfit, -, hno⟩
  · have hcount' := hcount.step hstep
    have hpos := (hcount'.pos_iff .notEmpty).mpr ⟨u, waitsOn_of_asleepOn hasleep⟩
    exact hcount'.awake_of_signal hstep hx (ho.trans (if_pos hpos)) hpos
  · cases hgives : a.givesUp (startRemaining start clock) with
    | false =>
        have hpos := (hcount.pos_iff .notEmpty).mpr ⟨u, waitsOn_of_asleepOn hu⟩
        obtain ⟨v, -, hv⟩ := hstep.wakes_one ((hno.signals hgives).trans (if_pos hpos)) hu
        exact ⟨v, hv⟩
    | true =>
        rw [hno.size] at hsize
        obtain ⟨v, hv⟩ := hguard ((h.packed_iff ha).mp hfit) hsize ⟨u, hu⟩
        have hne := ne_of_wokenOn hstep.crit_inv.1 (by rw [hc]; simp [Call.cond]) hv
        exact ⟨v, hstep.wokenOn hne hv⟩

/-- A get that takes a message leaves room for another one, and one that takes none wakes a
consumer. -/
theorem Guarded.get_step (h : Uniform n 1 w f) (hcount : Counted w)
    (hstep : Step program w (.crit t start clock o pick) w') {a : GetArgs}
    (hc : startCall start = .get a) : Guarded M N n w' := by
  rintro hpacked hsize ⟨u, hu⟩
  have hcount' := hcount.step hstep
  obtain ⟨-, hbody, hshared, -⟩ := hstep.crit_inv
  have hstart := h.sound.represents.startShared start
  rw [body_eq, hc] at hbody
  rw [hshared] at hpacked hsize
  cases queueGetWait_cases hbody with
  | empty hzero hstop => exact absurd hzero hsize.ne'
  | wait hzero hblock htimer =>
      rw [beginWait, size_addWaiter] at hsize
      exact absurd hzero hsize.ne'
  | read hpos hloop =>
      obtain ⟨hne, rfl, hafter⟩ := read_spec hstart hpos hloop
      have hread : ((a.start (startShared start w.shared)).served a f.items).messagesRead =
          a.serves (a.start (startShared start w.shared)) f.items := Nat.zero_add _
      rcases Nat.eq_zero_or_pos (a.serves (a.start (startShared start w.shared)) f.items)
        with hserves | hserves
      · rw [hserves] at hread
        have hpos' := (hcount'.pos_iff .notEmpty).mpr ⟨u, waitsOn_of_asleepOn hu⟩
        refine hcount'.awake_of_signal hstep rfl ?_ hpos'
        rw [hshared] at hpos'
        rw [Queue.signalAfterGet, hread, if_neg fun hfull => absurd hfull.1 (Nat.lt_irrefl 0)]
        exact if_pos ⟨hsize, hpos'⟩
      · exfalso
        have hbytes := f.weight_le
        have hcount := f.count_le
        rw [Shared.Packed, hafter.size_eq, hafter.numElem_eq] at hpacked
        cases hf : f.items with
        | nil => exact hne hf
        | cons x xs =>
            have hweight := h.weight_eq (x := x) (by rw [hf]; exact List.mem_cons_self)
            generalize a.serves (a.start (startShared start w.shared)) f.items = j at *
            obtain ⟨i, rfl⟩ := Nat.exists_eq_add_of_le' hserves
            have hle := BoundedFifo.total_drop_le msgWeight xs i
            simp only [BoundedFifo.Store.dequeue, hf, List.drop_succ_cons, List.length_drop]
              at hpacked
            rw [hf, total_cons] at hbytes
            rw [hf, List.length_cons] at hcount
            omega

theorem Guarded.step (hguard : Guarded M N n w) (h : Uniform n 1 w f) (hcount : Counted w)
    (he : Enters (fun c => c.Bounded ∧ c.Alike n 1) e) (hstep : Step program w e w') :
    Guarded M N n w' := by
  cases e with
  | wake t =>
      rintro hpacked hsize ⟨u, hu⟩
      obtain ⟨p, hp, hcond⟩ := asleepOn_iff.mp hu
      rw [hstep.wake_inv.1] at hpacked hsize
      obtain ⟨v, hv⟩ := hguard hpacked hsize
        ⟨u, asleepOn_iff.mpr ⟨p, hstep.wake_asleep hp, hcond⟩⟩
      refine ⟨v, ?_⟩
      rwa [hstep.wake_keeps fun q hq => by rw [hq] at hv; cases hv]
  | crit t start clock o pick =>
      have hcall := h.admissible.start_call hstep.crit_inv.1 he
      cases hc : startCall start with
      | put a =>
          rw [hc] at hcall
          exact hguard.put_step h hcount hstep hc hcall
      | get a => exact Guarded.get_step h hcount hstep hc

omit [Fintype T] in
theorem Guarded.not_strands (hguard : Guarded M N n w) (h : Uniform n 1 w f)
    (hstep : Step program w e w') : ¬StrandsConsumer ⟨w, e, w'⟩ := by
  intro hstrands
  simp only [StrandsConsumer] at hstrands
  split at hstrands
  · rename_i t a waitUntil clock o pick
    obtain ⟨hfit, -, hsize, hsleeping, halone⟩ := hstrands
    have hphase := hstep.crit_inv.1
    have hpacked := (h.packed_iff (h.admissible.pending t _ (.inr hphase))).mp hfit
    obtain ⟨v, hv⟩ := hguard hpacked hsize hsleeping
    have hne := ne_of_wokenOn hphase (by simp [startCall, Call.cond]) hv
    have hrests := halone v hne
    rw [isWoken_of_wokenOn hv] at hrests
    cases hrests
  · exact hstrands

end Singles

section Crowd
variable [Fintype T] [DecidableEq T] {w w' : System T} {f : MessageStore M N} {t : T}
  {start : Start Call Request} {clock : Clock} {o : Section} {pick : Option T} {e : Event T}

/-- The waiting puts have something to put. -/
def Laden (w : System T) : Prop := ∀ t r a, w.Pending t r → r.call = .put a → a.msgs ≠ []

/-- While the queue is empty, a producer is awake if one sleeps. -/
def Fed (w : System T) : Prop :=
  w.shared.queue.size = 0 → Sleeping w .notFull →
    ∃ v, (w.phase v).wokenOn program.cond .notFull = true

omit [Fintype T] in
theorem Laden.step (hladen : Laden w) (hsound : Sound w f) (hbounded : BoundedEvent e)
    (hstep : Step program w e w') : Laden w' := by
  intro u r a hr ha
  cases e with
  | wake t => exact hladen u r a (hstep.wake_pending hr) ha
  | crit t start clock o pick =>
      rcases hstep.pending hr with ⟨-, hold⟩ | ⟨-, hnew⟩
      · exact hladen u r a hold ha
      · obtain ⟨hphase, hbody, -, -⟩ := hstep.crit_inv
        exact waiting_put_ne_nil hsound ((waiting_call hbody hnew).symm.trans ha)
          (hsound.start_call hphase hbounded) hstep hnew

omit [Fintype T] in
theorem Fed.put_step (hfed : Fed w) (hsound : Sound w f) (hladen : Laden w)
    (hstep : Step program w (.crit t start clock o pick) w') {a : PutArgs}
    (hc : startCall start = .put a) (hbound : (Call.put a).Bounded)
    (hfits : (Call.put a).Fits M N) : Fed w' := by
  rintro hzero ⟨u, hu⟩
  have hrep := hsound.represents
  rcases put_step_cases hstep hc with ⟨hfit, hwrite, ho, hx⟩ | ⟨hfit, -, hno⟩
  · rw [← startShared_canFit start] at hfit
    obtain ⟨hroom, hafter, -⟩ :=
      commit_spec (hrep.startShared start) hbound.addressable hfit hwrite
    obtain ⟨hold, hnil⟩ := List.append_eq_nil_iff.mp (hafter.size_eq_zero_iff.mp hzero)
    have hphase := hstep.crit_inv.1
    cases start with
    | resume r => exact absurd hnil (hladen t r a (.inr hphase) hc)
    | enter c =>
        have hut : u ≠ t := by
          rintro rfl
          rw [hstep.crit_inv.2.2.2, hx] at hu
          cases hu
        obtain ⟨v, hv⟩ := hfed (hrep.size_eq_zero_iff.mpr hold) ⟨u, hstep.asleepOn hut hu⟩
        exact ⟨v, hstep.wokenOn (ne_of_enter hphase hv) hv⟩
  · exfalso
    rw [hno.size] at hzero
    have hcount := hrep.numElem_le
    have hroom := (canFit_iff hrep hbound).mpr
      ((fits_iff hrep a.msgs).mpr ⟨by rw [hzero, Nat.zero_add]; exact hfits.1, by
        have hlength := hfits.2
        omega⟩)
    exact absurd (hroom.symm.trans hfit) (by decide)

/-- A get that empties the queue wakes a producer. -/
theorem Fed.get_step (hfed : Fed w) (hsound : Sound w f) (hcount : Counted w)
    (hstep : Step program w (.crit t start clock o pick) w') {a : GetArgs}
    (hc : startCall start = .get a) : Fed w' := by
  rintro hzero ⟨u, hu⟩
  have hcond : (startCall start).cond ≠ .notFull := by rw [hc]; simp [Call.cond]
  obtain ⟨-, hbefore⟩ := asleep_before hstep hcond hu
  have hcount' := hcount.step hstep
  obtain ⟨hphase, hbody, hshared, -⟩ := hstep.crit_inv
  have hstart := hsound.represents.startShared start
  rw [body_eq, hc] at hbody
  have hstays : w.shared.queue.size = 0 →
      ∃ v, (w'.phase v).wokenOn program.cond .notFull = true := by
    intro hsize
    obtain ⟨v, hv⟩ := hfed hsize ⟨u, hbefore⟩
    exact ⟨v, hstep.wokenOn (ne_of_wokenOn hphase hcond hv) hv⟩
  cases queueGetWait_cases hbody with
  | empty hsize hstop => exact hstays (by rwa [startShared_size] at hsize)
  | wait hsize hblock htimer => exact hstays (by rwa [startShared_size] at hsize)
  | read hpos hloop =>
      obtain ⟨hne, rfl, -⟩ := read_spec hstart hpos hloop
      have hserves : 0 < a.serves (a.start (startShared start w.shared)) f.items := by
        by_contra hnone
        rw [hshared, served_none hstart hne (Nat.eq_zero_of_not_pos hnone)] at hzero
        exact hpos.ne' hzero
      have hpos' := (hcount'.pos_iff .notFull).mpr ⟨u, waitsOn_of_asleepOn hu⟩
      refine hcount'.awake_of_signal hstep rfl (if_pos ⟨?_, ?_⟩) hpos'
      · exact hserves.trans_eq (Nat.zero_add _).symm
      · rwa [hshared] at hpos'

theorem Fed.step (hfed : Fed w) (h : Admissible (fun c => c.Bounded ∧ c.Fits M N) w f)
    (hsound : Sound w f) (hladen : Laden w) (hcount : Counted w)
    (he : Enters (fun c => c.Bounded ∧ c.Fits M N) e) (hstep : Step program w e w') : Fed w' := by
  cases e with
  | wake t =>
      rintro hzero ⟨u, hu⟩
      obtain ⟨p, hp, hcond⟩ := asleepOn_iff.mp hu
      rw [hstep.wake_inv.1] at hzero
      obtain ⟨v, hv⟩ := hfed hzero ⟨u, asleepOn_iff.mpr ⟨p, hstep.wake_asleep hp, hcond⟩⟩
      refine ⟨v, ?_⟩
      rwa [hstep.wake_keeps fun q hq => by rw [hq] at hv; cases hv]
  | crit t start clock o pick =>
      have hcall := h.start_call hstep.crit_inv.1 he
      cases hc : startCall start with
      | put a =>
          rw [hc] at hcall
          exact hfed.put_step hsound hladen hstep hc hcall.1 hcall.2
      | get a => exact hfed.get_step hsound hcount hstep hc

theorem BoundedRun.fed {buffer : Bytes} {moves : List (Move (System T) (Event T))}
    (h : BoundedRun M N buffer moves w) (hfits : ∀ m ∈ moves, Enters (Call.Fits M N) m.label) :
    Fed w := by
  refine (h.trace.invariant (I := fun v => Counted v ∧ Laden v ∧ Fed v ∧
    ∃ f : MessageStore M N, Admissible (fun c => c.Bounded ∧ c.Fits M N) v f) ?_
    (fun m hm => (h.bounded m hm).and (hfits m hm)) ⟨counted_init M N buffer, ?_, ?_, ?_⟩).2.2.1
  · rintro m hm hstep ⟨hcount, hladen, hfed, f, hf⟩
    have hsound : Sound m.pre f := ⟨hf.represents, fun t r hr => (hf.pending t r hr).1⟩
    obtain ⟨-, g, -, -, hg⟩ := hf.step (fun c hc => hc.1.addressable) hm hstep
    exact ⟨hcount.step hstep, hladen.step hsound (hm.mono fun c hc => hc.1) hstep,
      hfed.step hf hsound hladen hcount hm hstep, g, hg⟩
  · rintro t r a (hr | hr) <;> cases hr
  · rintro - ⟨u, hu⟩
    cases hu
  · refine ⟨.empty, .init h.capacity h.length_buffer, ?_⟩
    rintro t r (hr | hr) <;> cases hr

end Crowd

section Runs
variable [Fintype T] [DecidableEq T] {buffer : Bytes} {moves : List (Move (System T) (Event T))}
  {w w' : System T} {e : Event T}

/-- A put that has waited returns `Q_FULL`. -/
def RefusedWaiting : Event T → Prop
  | .crit _ (.resume _) _ o _ => o.exit = .returned (.put .full)
  | _ => False

instance (e : Event T) : Decidable (RefusedWaiting e) :=
  match e with
  | .crit _ (.enter _) _ _ _ => isFalse id
  | .crit _ (.resume _) _ _ _ => inferInstanceAs (Decidable (_ = _))
  | .wake _ => isFalse id

omit [Fintype T] in
theorem StrandsConsumer.refused (h : StrandsConsumer ⟨w, e, w'⟩) (hstep : Step program w e w') :
    RefusedWaiting e := by
  simp only [StrandsConsumer] at h
  split at h
  · rename_i t a waitUntil clock o pick
    obtain ⟨hfit, hgives, -⟩ := h
    have hbody := hstep.crit_inv.2.1
    rw [body_eq] at hbody
    cases queuePutLoop_cases hbody with
    | commit hroom hwrite =>
        rw [startShared_canFit, hfit] at hroom
        cases hroom
    | full hroom hstop => exact rfl
    | wait hroom hblock htimer =>
        simp only [startRemaining] at htimer
        simp [PutArgs.givesUp, hblock, htimer] at hgives
  · exact h.elim

omit [Fintype T] [DecidableEq T] in
theorem uniform_init (hM : M ≤ 2 ^ 63) (hlen : buffer.length = M) :
    Uniform n k (System.init T M N buffer) (.empty : MessageStore M N) where
  admissible := ⟨.init hM hlen, by rintro t r (hr | hr) <;> cases hr⟩
  queued := by simp [BoundedFifo.Store.empty]

omit [Fintype T] in
theorem BoundedRun.uniform (h : BoundedRun M N buffer moves w)
    (halike : ∀ m ∈ moves, Enters (Call.Alike n k) m.label) :
    ∃ f : MessageStore M N, Uniform n k w f :=
  h.trace.invariant (I := fun v => ∃ f : MessageStore M N, Uniform n k v f)
    (fun _ hm hstep ⟨_, hf⟩ => hf.step hm hstep)
    (fun m hm => (h.bounded m hm).and (halike m hm)) ⟨_, uniform_init h.capacity h.length_buffer⟩

theorem producers_served_of_alike (h : BoundedRun M N buffer moves w)
    (halike : ∀ m ∈ moves, Enters (Call.Alike n k) m.label)
    (hcalls : ∀ m ∈ moves, Enters (Call.Ordinary b) m.label) :
    ∀ v ∈ visited (System.init T M N buffer) moves, ProducersServed v := by
  apply served_of_no_drop h (h.ordinary hcalls)
  intro m hm
  obtain ⟨before, after, hmoves, hrun, hstep⟩ := h.before hm
  obtain ⟨f, hf⟩ := hrun.uniform (forall_before halike hmoves).1
  exact hf.not_drops hstep

theorem consumers_served_of_not_strands {buffer : Bytes}
    (h : Trace (Step program) (System.init T M N buffer) moves w)
    (hgood : ∀ m ∈ moves, ¬StrandsConsumer m) :
    ∀ v ∈ visited (System.init T M N buffer) moves, ConsumersServed v := by
  intro v hv
  have hkeep := h.invariant_visited (I := fun v => Counted v ∧ ConsumerBaton v)
    (fun m hm hstep hI => ⟨hI.1.step hstep, hI.2.step hI.1 hstep hm⟩) hgood
    ⟨counted_init M N buffer, fun hsize => absurd hsize (Nat.lt_irrefl 0)⟩
  exact (consumersServed_iff v).mpr (hkeep v hv).2

theorem consumers_served_of_singles (h : BoundedRun M N buffer moves w)
    (halike : ∀ m ∈ moves, Enters (Call.Alike n 1) m.label) :
    ∀ v ∈ visited (System.init T M N buffer) moves, ConsumersServed v := by
  apply consumers_served_of_not_strands h.trace
  intro m hm
  obtain ⟨before, after, hmoves, hrun, hstep⟩ := h.before hm
  obtain ⟨-, ⟨f, hf⟩, hguard⟩ := hrun.trace.invariant
    (I := fun v => Counted v ∧ (∃ f : MessageStore M N, Uniform n 1 v f) ∧ Guarded M N n v)
    (fun _ hm hstep ⟨hcount, ⟨_, hf⟩, hguard⟩ =>
      ⟨hcount.step hstep, hf.step hm hstep, hguard.step hf hcount hm hstep⟩)
    (fun m hm => (hrun.bounded m hm).and ((forall_before halike hmoves).1 m hm))
    ⟨counted_init M N buffer, ⟨_, uniform_init h.capacity h.length_buffer⟩,
      fun _ hsize => absurd hsize (Nat.lt_irrefl 0)⟩
  exact hguard.not_strands hf hstep

/-- Where all batches are alike, no producer is left asleep while its batch fits, if the calls are
ordinary, and where they are single messages, no consumer is left asleep in front of one. -/
theorem alike_batches_served (h : BoundedRun M N buffer moves w)
    (halike : ∀ m ∈ moves, Enters (Call.Alike n k) m.label) :
    ∀ v ∈ visited (System.init T M N buffer) moves,
      ((∃ b, ∀ m ∈ moves, Enters (Call.Ordinary b) m.label) → ProducersServed v) ∧
        (k = 1 → ConsumersServed v) := by
  intro v hv
  refine ⟨fun ⟨b, hcalls⟩ => producers_served_of_alike h halike hcalls v hv, ?_⟩
  rintro rfl
  exact consumers_served_of_singles h halike v hv

/-- Producers and consumers, however many, do not all wait for each other over batches that an
empty queue can take, as long as no put gives up after a wait; where all batches are single
messages of one weight, or one thread alone gets, it does not matter who gives up. -/
theorem crowd_never_deadlocks (h : BoundedRun M N buffer moves w)
    (hfits : ∀ m ∈ moves, Enters (Call.Fits M N) m.label)
    (hpatient : (∀ m ∈ moves, ¬RefusedWaiting m.label) ∨
      (∃ n, ∀ m ∈ moves, Enters (Call.Alike n 1) m.label) ∨
      ∃ x, ∀ m ∈ moves, m.label.Keeps (Sole .notEmpty x))
    (hquiet : Quiescent w) (hconsumer : Sleeping w .notEmpty) : ¬Sleeping w .notFull := by
  intro hproducer
  have hzero : w.shared.queue.size = 0 := by
    by_contra hsize
    rcases hpatient with hpatient | ⟨n, hsingles⟩ | ⟨x, hsole⟩
    · have hserved := consumers_served_of_not_strands h.trace fun m hm hstrands => by
        obtain ⟨before, after, -, -, hstep⟩ := h.before hm
        exact hpatient m hm (hstrands.refused hstep)
      exact hserved w h.trace.mem_visited hquiet (Nat.pos_of_ne_zero hsize) hconsumer
    · exact consumers_served_of_singles h hsingles w h.trace.mem_visited hquiet
        (Nat.pos_of_ne_zero hsize) hconsumer
    · exact hsize (consumer_rests h.trace hsole hconsumer)
  obtain ⟨v, hv⟩ := h.fed hfits hzero hproducer
  have hwoken := isWoken_of_wokenOn hv
  rw [hquiet v] at hwoken
  cases hwoken

end Runs

/-- One message fills the ring; a producer overtaken by another one gives up while consumers
wait. -/
def overtakenSchedule (fast slow first second : T) : List (Action T Call Clock) :=
  let early : Clock := ⟨⟨0, 0⟩, ⟨0, 0⟩⟩
  let late : Clock := ⟨⟨2, 0⟩, ⟨2, 0⟩⟩
  let put := Call.put ⟨[[1, 2, 3, 4]], true, 1000000⟩
  let get := Call.get ⟨List.replicate 12 0, 5, 12, true, 10000000⟩
  [.enter fast put early none, .enter slow put early none, .enter first get early (some slow),
    .enter first get early none, .enter second get early none, .enter fast put early (some first),
    .resume slow late none, .resume first early none]

theorem overtaken_run :
    ∃ (moves : List (Move (System (Fin 4)) (Event (Fin 4)))) (w : System (Fin 4)),
      BoundedRun 12 5 (List.replicate 12 0) moves w ∧
      (∀ m ∈ moves, Enters (Call.Alike 12 1) m.label) ∧
      (∀ m ∈ moves, Enters (Call.Ordinary 12) m.label) ∧
      (∀ m ∈ moves, Enters (Call.Fits 12 5) m.label) ∧
      (∃ m ∈ moves, RefusedWaiting m.label) ∧ Quiescent w ∧ Sleeping w .notEmpty := by
  have hrun : (program.run (System.init (Fin 4) 12 5 (List.replicate 12 0))
      (overtakenSchedule 0 1 2 3)).any (fun r => decide
        ((∀ m ∈ r.1, BoundedEvent m.label) ∧ (∀ m ∈ r.1, Enters (Call.Alike 12 1) m.label) ∧
        (∀ m ∈ r.1, Enters (Call.Ordinary 12) m.label) ∧
        (∀ m ∈ r.1, Enters (Call.Fits 12 5) m.label) ∧ (∃ m ∈ r.1, RefusedWaiting m.label) ∧
        Quiescent r.2 ∧ Sleeping r.2 .notEmpty)) = true := by decide +kernel
  obtain ⟨moves, w, htrace, hw⟩ := reach_of_run hrun
  obtain ⟨hbounded, hrest⟩ := of_decide_eq_true hw
  exact ⟨moves, w, ⟨by decide, rfl, htrace, hbounded⟩, hrest⟩

theorem alike_batches_served_overtaken :
    ∃ (moves : List (Move (System (Fin 4)) (Event (Fin 4)))) (w : System (Fin 4)),
      BoundedRun 12 5 (List.replicate 12 0) moves w ∧ (∃ m ∈ moves, RefusedWaiting m.label) ∧
      Quiescent w ∧ Sleeping w .notEmpty ∧
      ∀ v ∈ visited (System.init (Fin 4) 12 5 (List.replicate 12 0)) moves,
        ProducersServed v ∧ ConsumersServed v := by
  obtain ⟨moves, w, hrun, halike, hcalls, -, hrefused, hquiet, hsleeping⟩ := overtaken_run
  refine ⟨moves, w, hrun, hrefused, hquiet, hsleeping, ?_⟩
  intro v hv
  obtain ⟨hproducers, hconsumers⟩ := alike_batches_served hrun halike v hv
  exact ⟨hproducers ⟨12, hcalls⟩, hconsumers rfl⟩

theorem crowd_never_deadlocks_overtaken :
    ∃ (moves : List (Move (System (Fin 4)) (Event (Fin 4)))) (w : System (Fin 4)),
      BoundedRun 12 5 (List.replicate 12 0) moves w ∧ (∃ m ∈ moves, RefusedWaiting m.label) ∧
      Quiescent w ∧ Sleeping w .notEmpty ∧ ¬Sleeping w .notFull := by
  obtain ⟨moves, w, hrun, halike, -, hfits, hrefused, hquiet, hsleeping⟩ := overtaken_run
  exact ⟨moves, w, hrun, hrefused, hquiet, hsleeping,
    crowd_never_deadlocks hrun hfits (.inr (.inl ⟨12, halike⟩)) hquiet hsleeping⟩

end FasterFifo
