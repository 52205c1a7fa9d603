import FasterFifo.System
import FasterFifo.Service

/-! Every section of a bounded call is a step of the message store or leaves it alone: a put that
commits is `enqueue`, a get that finds messages is `dequeue` of the prefix it serves. -/
namespace FasterFifo
open CheckedMemory CyclicBuffer Framing Transition Monitor
open BoundedFifo (total Store served total_append total_cons total_nil)

/-- The exact total of a batch is below 2^63. -/
def Call.Bounded : Call → Prop
  | .put a => total msgWeight a.msgs < 2 ^ 63
  | .get _ => True

instance (c : Call) : Decidable c.Bounded :=
  match c with
  | .put _ => inferInstanceAs (Decidable (_ < _))
  | .get _ => isTrue trivial

/-- Every message is small enough to be an object in memory. -/
def Call.Addressable : Call → Prop
  | .put a => ∀ m ∈ a.msgs, m.length < 2 ^ 63
  | .get _ => True

instance (c : Call) : Decidable c.Addressable :=
  match c with
  | .put _ => inferInstanceAs (Decidable (∀ _ ∈ _, _))
  | .get _ => isTrue trivial

theorem Call.Bounded.addressable {c : Call} (h : c.Bounded) : c.Addressable := by
  cases c with
  | get a => trivial
  | put a =>
      intro m hm
      have hle := total_le_of_mem hm
      have htotal : total msgWeight a.msgs < 2 ^ 63 := h
      rw [msgWeight] at hle
      omega

variable {T : Type}

/-- The call that a section enters, if it enters one, is of the kind `C`. -/
def Enters (C : Call → Prop) : Event T → Prop
  | .crit _ (.enter c) _ _ _ => C c
  | _ => True

instance (C : Call → Prop) [DecidablePred C] (e : Event T) : Decidable (Enters C e) :=
  match e with
  | .crit _ (.enter c) _ _ _ => inferInstanceAs (Decidable (C c))
  | .crit _ (.resume _) _ _ _ => isTrue trivial
  | .wake _ => isTrue trivial

theorem Enters.and {C D : Call → Prop} {e : Event T} (h : Enters C e) (h' : Enters D e) :
    Enters (fun c => C c ∧ D c) e := by
  cases e with
  | wake t => trivial
  | crit t start clock o pick =>
      cases start with
      | enter c => exact ⟨h, h'⟩
      | resume r => trivial

theorem Enters.mono {C D : Call → Prop} {e : Event T} (h : Enters C e) (hCD : ∀ c, C c → D c) :
    Enters D e := by
  cases e with
  | wake t => trivial
  | crit t start clock o pick =>
      cases start with
      | enter c => exact hCD c h
      | resume r => trivial

abbrev BoundedEvent (e : Event T) : Prop := Enters Call.Bounded e

/-- The messages in the receive buffer, if the bytes read are exactly their frames. -/
def GetResult.messages (r : GetResult) : Option (List Bytes) :=
  match splitFrames sizeT r.messagesRead (r.msgBuffer.take r.bytesRead) with
  | some (ms, []) => some ms
  | _ => none

/-- The batch of a put that returned `Q_SUCCESS`. -/
def committed : Event T → List Bytes
  | .crit _ start _ o _ =>
      match startCall start, o.exit with
      | .put a, .returned (.put .success) => a.msgs
      | _, _ => []
  | .wake _ => []

/-- What a get that returned reports and leaves in the receive buffer. -/
def delivery : Event T → Option GetResult
  | .crit _ start _ o _ =>
      match startCall start, o.exit with
      | .get _, .returned (.get r) => some r
      | _, _ => none
  | .wake _ => none

def delivered (e : Event T) : List Bytes := ((delivery e).bind GetResult.messages).getD []

/-- The messages decodable from the ring, if its content is exactly their frames. -/
def Shared.messages (s : Shared) : Option (List Bytes) :=
  match splitFrames sizeT s.queue.numElem s.content with
  | some (ms, []) => some ms
  | _ => none

section Store
variable {M N : ℕ} {s : Shared} {f : MessageStore M N} {start : Start Call Request}
  {clock : Clock} {o : Section}

theorem Represents.messages_eq (h : Represents s f) : s.messages = some f.items := by
  rw [Shared.messages, h.splitFrames_eq]

theorem Represents.startShared (h : Represents s f) (start : Start Call Request) :
    Represents (startShared start s) f := by
  cases start with
  | enter c => exact h
  | resume r => exact h.addWaiter r.call.cond (-1)

/-- The same indices, counts and ring bytes; the waiter counters may differ. -/
structure SameRing (s t : Shared) : Prop where
  head : t.queue.head = s.queue.head
  tail : t.queue.tail = s.queue.tail
  size : t.queue.size = s.queue.size
  numElem : t.queue.numElem = s.queue.numElem
  buffer : t.buffer = s.buffer

theorem SameRing.addWaiter (s : Shared) (c : Cond) (d : ℤ) : SameRing s (s.addWaiter c d) := by
  cases c <;> exact ⟨rfl, rfl, rfl, rfl, rfl⟩

theorem SameRing.startShared (start : Start Call Request) (s : Shared) :
    SameRing s (startShared start s) := by
  cases start with
  | enter c => exact ⟨rfl, rfl, rfl, rfl, rfl⟩
  | resume r => exact .addWaiter s r.call.cond (-1)

theorem SameRing.trans {s t u : Shared} (h : SameRing s t) (k : SameRing t u) : SameRing s u :=
  ⟨k.head.trans h.head, k.tail.trans h.tail, k.size.trans h.size, k.numElem.trans h.numElem,
    k.buffer.trans h.buffer⟩

theorem served_messages (h : Represents s f) (a : GetArgs) :
    ((a.start s).served a f.items).result.messages =
      some (f.items.take (a.serves (a.start s) f.items)) := by
  have hcut : ((a.start s).served a f.items).result.msgBuffer.take
      ((a.start s).served a f.items).result.bytesRead =
      frames sizeT (f.items.take (a.serves (a.start s) f.items)) := by
    have hroom := served_total_le a s f.items
    have htake : (splice a.msgBuffer 0 (frames sizeT (f.items.take (a.serves (a.start s)
        f.items)))).take (0 + (frames sizeT (f.items.take (a.serves (a.start s) f.items))).length) =
        a.msgBuffer.take 0 ++ frames sizeT (f.items.take (a.serves (a.start s) f.items)) :=
      take_splice (by rw [length_frames_eq, Nat.zero_add]; exact hroom)
    rw [length_frames_eq, List.take_zero, List.nil_append] at htake
    exact htake
  have hcount : ((a.start s).served a f.items).result.messagesRead =
      (f.items.take (a.serves (a.start s) f.items)).length := by
    rw [length_take_serves]
    exact Nat.zero_add _
  have hlen : ∀ m ∈ f.items.take (a.serves (a.start s) f.items), m.length < sizeT.bound :=
    fun m hm => h.length_lt (List.mem_of_mem_take hm)
  have hsplit := splitFrames_frames hlen []
  rw [List.append_nil] at hsplit
  rw [GetResult.messages, hcut, hcount, hsplit]

/-- A put that finds room commits its whole batch. -/
theorem commit_spec (h : Represents s f) {a : PutArgs} (ha : (Call.put a).Addressable)
    {s' : Shared} (hfit : s.queue.canFit (totalSize a.msgSizes) a.msgs.length = true)
    (hwrite : writeMessages s a.msgs = .ok s') :
    ∃ hroom : f.Fits a.msgs, Represents s' (f.enqueue a.msgs hroom) ∧ Kept s s' := by
  have hbytes := writeMessages_room h.ring ha hwrite
  have hcount := mul_length_le_weight a.msgs
  have hnum := h.numElem_le
  have hcap := h.ring.capacity_le
  have hsum : addSize s.queue.numElem a.msgs.length = s.queue.numElem + a.msgs.length :=
    addSize_eq (by simp only [sizeModulus, sizeofSizeT] at *; omega)
  have hroom : f.Fits a.msgs := by
    rw [Store.Fits, ← h.size_eq, ← h.numElem_eq, ← h.capacity, ← h.limit, ← hsum]
    exact ⟨hbytes, of_decide_eq_true ((Bool.and_eq_true _ _).mp hfit).2⟩
  obtain ⟨hok, hrep⟩ := writeMessages_eq h hroom
  cases hok.symm.trans hwrite
  exact ⟨hroom, hrep, kept_foldl_pushed h hroom⟩

/-- A get in a non-empty queue serves a prefix. -/
theorem read_spec (h : Represents s f) {a : GetArgs} {st : GetState} (hsize : 0 < s.queue.size)
    (hloop : queueGetLoop a a.maxMessagesToGet ⟨s, a.msgBuffer, 0, 0, 0, .success⟩ = .ok st) :
    f.items ≠ [] ∧ st = (a.start s).served a f.items ∧
      Represents st.shared (f.dequeue (a.serves (a.start s) f.items)) := by
  have hne : f.items ≠ [] := fun hnil => hsize.ne' (h.size_eq_zero_iff.mpr hnil)
  have hserved : st = (a.start s).served a f.items :=
    Except.ok.inj (hloop.symm.trans (queueGetLoop_eq (h.serving a) hne))
  refine ⟨hne, hserved, ?_⟩
  rw [hserved]
  exact h.dropped _

/-- What a section does to the store. -/
def storeLabels : Event T → List (BoundedFifo.Label Bytes)
  | .crit _ start _ o _ =>
      match startCall start, o.exit with
      | .put a, .returned (.put .success) => [.enqueue a.msgs]
      | .get _, .returned (.get r) => [.dequeue (r.messages.getD [])]
      | _, _ => []
  | .wake _ => []

theorem section_refines (t : T) (pick : Option T) (h : Represents s f)
    (haddr : (startCall start).Addressable) (hbody : program.body start clock s = .ok o) :
    ∃ as g, Trace BoundedFifo.Step f as g ∧
      as.map Move.label = storeLabels (.crit t start clock o pick) ∧ Represents o.shared g := by
  have hstart := h.startShared start
  rw [body_eq] at hbody
  cases hc : startCall start with
  | put a =>
      rw [hc] at hbody haddr
      have hsection := queuePutLoop_cases hbody
      cases hsection with
      | commit hfit hwrite =>
          obtain ⟨hroom, hrep, -⟩ := commit_spec hstart haddr hfit hwrite
          exact ⟨_, _, .single (.enqueue f a.msgs hroom), by simp [storeLabels, hc], hrep⟩
      | full hfit hstop => exact ⟨[], f, .nil, by simp [storeLabels, hc], hstart⟩
      | wait hfit hblock htimer =>
          exact ⟨[], f, .nil, by simp [storeLabels, hc, beginWait], hstart.addWaiter _ _⟩
  | get a =>
      rw [hc] at hbody
      have hsection := queueGetWait_cases hbody
      cases hsection with
      | empty hsize hstop =>
          have hnone : (GetResult.mk .empty 0 0 0 a.msgBuffer).messages = some [] := rfl
          refine ⟨_, _, .single (.dequeue f 0), by simp [storeLabels, hc, hnone], ?_⟩
          exact ⟨hstart.ring, hstart.capacity, hstart.limit, hstart.content_eq, hstart.numElem_eq⟩
      | wait hsize hblock htimer =>
          exact ⟨[], f, .nil, by simp [storeLabels, hc, beginWait], hstart.addWaiter _ _⟩
      | read hsize hloop =>
          obtain ⟨-, rfl, hrep⟩ := read_spec hstart hsize hloop
          refine ⟨_, _, .single (.dequeue f (a.serves (a.start _) f.items)), ?_, hrep⟩
          simp only [List.map_cons, List.map_nil, storeLabels, hc, served_messages hstart,
            Option.getD_some]

theorem section_decodable (h : Represents s f) (hbody : program.body start clock s = .ok o)
    {a : GetArgs} (hc : startCall start = .get a) {r : GetResult}
    (hx : o.exit = .returned (.get r)) : ∃ ms, r.messages = some ms := by
  have hstart := h.startShared start
  rw [body_eq, hc] at hbody
  cases queueGetWait_cases hbody with
  | empty hsize hstop =>
      cases hx
      exact ⟨[], rfl⟩
  | wait hsize hblock htimer => cases hx
  | read hsize hloop =>
      cases hx
      rw [(read_spec hstart hsize hloop).2.1]
      exact ⟨_, served_messages hstart a⟩

/-- A section of a bounded call runs to its end. -/
theorem section_ok (h : Represents s f) (hbound : (startCall start).Bounded) (clock : Clock) :
    ∃ o, program.body start clock s = .ok o := by
  have hstart := h.startShared start
  rw [body_eq]
  cases hc : startCall start with
  | put a =>
      rw [hc] at hbound
      simp only [Call.loop, queuePutLoop]
      split
      · rename_i hfit
        rw [(writeMessages_eq hstart ((canFit_iff hstart hbound).mp hfit)).1]
        exact ⟨_, rfl⟩
      · split <;> exact ⟨_, rfl⟩
  | get a =>
      simp only [Call.loop, queueGetWait]
      split
      · split <;> exact ⟨_, rfl⟩
      · rename_i hsize
        have hne : f.items ≠ [] := fun hnil =>
          hsize (Nat.le_zero.mpr (hstart.size_eq_zero_iff.mpr hnil))
        exact ⟨_, queueGetBody_eq hstart hne a⟩

theorem storeLabels_accepted (e : Event T) :
    (storeLabels e).flatMap BoundedFifo.Label.accepted = committed e := by
  cases e with
  | wake t => rfl
  | crit t start clock o pick =>
      simp only [storeLabels, committed]
      split
      · rename_i hc hx
        simp only [hc, hx]
        exact List.append_nil _
      · rename_i hc hx
        rw [hc]
        rfl
      · rename_i hput _
        split
        · rename_i a hc hx
          exact absurd hx (hput a hc)
        · rfl

theorem storeLabels_delivered (e : Event T) :
    (storeLabels e).flatMap BoundedFifo.Label.delivered = delivered e := by
  cases e with
  | wake t => rfl
  | crit t start clock o pick =>
      simp only [storeLabels, delivered, delivery]
      split
      · rename_i hc _
        rw [hc]
        rfl
      · rename_i hc hx
        simp only [hc, hx]
        exact List.append_nil _
      · rename_i _ hget
        split
        · rename_i a r hc hx
          exact absurd hx (hget a r hc)
        · rfl

end Store

section Runs
variable [DecidableEq T] {M N : ℕ} {buffer : Bytes} {moves : List (Move (System T) (Event T))}
  {w w' : System T} {f : MessageStore M N}

/-- A run from `create_queue` with capacity at most 2^63 and every batch total below 2^63. -/
structure BoundedRun (M N : ℕ) (buffer : Bytes) (moves : List (Move (System T) (Event T)))
    (w : System T) : Prop where
  capacity : M ≤ 2 ^ 63
  length_buffer : buffer.length = M
  trace : Trace (Step program) (System.init T M N buffer) moves w
  bounded : ∀ m ∈ moves, BoundedEvent m.label

/-- The store represented, and the waiting calls of a kind `C`. -/
structure Admissible (C : Call → Prop) (w : System T) (f : MessageStore M N) : Prop where
  represents : Represents w.shared f
  pending : ∀ t r, w.Pending t r → C r.call

abbrev Sound (w : System T) (f : MessageStore M N) : Prop := Admissible Call.Bounded w f

section Admissible
variable {C : Call → Prop}

omit [DecidableEq T] in
theorem Admissible.start_call (h : Admissible C w f) {t : T} {start : Start Call Request}
    {clock : Clock} {o : Section} {pick : Option T} (hphase : w.phase t = start.phase)
    (hb : Enters C (.crit t start clock o pick)) : C (startCall start) := by
  cases start with
  | enter c => exact hb
  | resume r => exact h.pending t r (.inr hphase)

theorem Admissible.step (hC : ∀ c, C c → c.Addressable) {e : Event T} (h : Admissible C w f)
    (hb : Enters C e) (hstep : Step program w e w') :
    ∃ as g, Trace BoundedFifo.Step f as g ∧ as.map Move.label = storeLabels e ∧
      Admissible C w' g := by
  cases e with
  | wake t =>
      refine ⟨[], f, .nil, rfl, ?_, fun u r hr => h.pending u r (hstep.wake_pending hr)⟩
      rw [hstep.wake_inv.1]
      exact h.represents
  | crit t start clock o pick =>
      obtain ⟨hphase, hbody, hshared, -⟩ := hstep.crit_inv
      have hcall := h.start_call hphase hb
      obtain ⟨as, g, htrace, hlabels, hrep⟩ :=
        section_refines t pick h.represents (hC _ hcall) hbody
      refine ⟨as, g, htrace, hlabels, by rwa [hshared], ?_⟩
      intro u r hr
      rcases hstep.pending hr with ⟨-, hold⟩ | ⟨-, hnew⟩
      · exact h.pending u r hold
      · rw [waiting_call hbody hnew]
        exact hcall

/-- One step: what leaves the store leaves it in front, what is committed goes behind. -/
theorem Admissible.step_items (hC : ∀ c, C c → c.Addressable) {e : Event T}
    (h : Admissible C w f) (hb : Enters C e) (hstep : Step program w e w') :
    ∃ g : MessageStore M N, Admissible C w' g ∧
      delivered e ++ g.items = f.items ++ committed e := by
  obtain ⟨as, g, htrace, hlabels, hg⟩ := h.step hC hb hstep
  have hconserved := BoundedFifo.conservation htrace
  rw [hlabels, storeLabels_delivered, storeLabels_accepted] at hconserved
  exact ⟨g, hg, hconserved⟩

end Admissible

theorem Admissible.step_all {P : Bytes → Prop} (hC : ∀ c, C c → c.Addressable)
    (hput : ∀ a, C (.put a) → ∀ x ∈ a.msgs, P x) {e : Event T} (h : Admissible C w f)
    (hall : ∀ x ∈ f.items, P x) (hb : Enters C e) (hstep : Step program w e w') :
    ∃ g : MessageStore M N, Admissible C w' g ∧ ∀ x ∈ g.items, P x := by
  obtain ⟨g, hg, hitems⟩ := h.step_items hC hb hstep
  refine ⟨g, hg, ?_⟩
  intro x hx
  have hmem : x ∈ f.items ++ committed e := by
    rw [← hitems]
    exact List.mem_append_right _ hx
  rcases List.mem_append.mp hmem with hold | hnew
  · exact hall x hold
  · cases e with
    | wake t => cases hnew
    | crit t start clock o pick =>
        have hcall := h.start_call hstep.crit_inv.1 hb
        simp only [committed] at hnew
        split at hnew
        · rename_i a hc _
          rw [hc] at hcall
          exact hput a hcall x hnew
        · cases hnew

theorem Sound.step {e : Event T} (h : Sound w f) (hb : BoundedEvent e)
    (hstep : Step program w e w') :
    ∃ as g, Trace BoundedFifo.Step f as g ∧ as.map Move.label = storeLabels e ∧ Sound w' g :=
  Admissible.step (fun _ => Call.Bounded.addressable) h hb hstep

theorem Sound.step_items {e : Event T} (h : Sound w f) (hb : BoundedEvent e)
    (hstep : Step program w e w') :
    ∃ g : MessageStore M N, Sound w' g ∧ delivered e ++ g.items = f.items ++ committed e :=
  Admissible.step_items (fun _ => Call.Bounded.addressable) h hb hstep

omit [DecidableEq T] in
theorem Represents.init (hM : M ≤ 2 ^ 63) (hlen : buffer.length = M) :
    Represents (System.init T M N buffer).shared (Store.empty : MessageStore M N) where
  ring := ⟨hlen, hM, id, Nat.zero_le _, (Nat.zero_mod _).symm⟩
  capacity := rfl
  limit := rfl
  content_eq := rfl
  numElem_eq := rfl

omit [DecidableEq T] in
theorem Sound.init (hM : M ≤ 2 ^ 63) (hlen : buffer.length = M) :
    Sound (System.init T M N buffer) (Store.empty : MessageStore M N) where
  represents := .init hM hlen
  pending := by
    rintro t r (hr | hr) <;> cases hr

theorem admissible_all_of_trace {C : Call → Prop} {P : Bytes → Prop}
    (hC : ∀ c, C c → c.Addressable) (hput : ∀ a, C (.put a) → ∀ x ∈ a.msgs, P x)
    (hM : M ≤ 2 ^ 63) (hlen : buffer.length = M)
    (h : Trace (Step program) (System.init T M N buffer) moves w)
    (hb : ∀ m ∈ moves, Enters C m.label) :
    ∃ f : MessageStore M N, Admissible C w f ∧ ∀ x ∈ f.items, P x := by
  refine h.invariant
    (I := fun w => ∃ f : MessageStore M N, Admissible C w f ∧ ∀ x ∈ f.items, P x) ?_ hb ?_
  · rintro m hm hstep ⟨f, hf, hall⟩
    exact hf.step_all hC hput hall hm hstep
  · refine ⟨Store.empty, ⟨.init hM hlen, ?_⟩, fun x hx => absurd hx List.not_mem_nil⟩
    rintro t r (hr | hr) <;> cases hr

theorem admissible_of_trace {C : Call → Prop} (hC : ∀ c, C c → c.Addressable) (hM : M ≤ 2 ^ 63)
    (hlen : buffer.length = M) (h : Trace (Step program) (System.init T M N buffer) moves w)
    (hb : ∀ m ∈ moves, Enters C m.label) : ∃ f : MessageStore M N, Admissible C w f := by
  obtain ⟨f, hf, -⟩ := admissible_all_of_trace (P := fun _ => True) hC (fun _ _ _ _ => trivial)
    hM hlen h hb
  exact ⟨f, hf⟩

/-- Every run of the system is a run of the message store. -/
theorem BoundedRun.simulates (h : BoundedRun M N buffer moves w) :
    ∃ as f, Trace BoundedFifo.Step (Store.empty : MessageStore M N) as f ∧
      as.map Move.label = moves.flatMap (fun m => storeLabels m.label) ∧ Sound w f :=
  h.trace.simulate (fun _ hb hstep _ hsound => hsound.step hb hstep) h.bounded
    (.init h.capacity h.length_buffer)

theorem BoundedRun.sound (h : BoundedRun M N buffer moves w) :
    ∃ f : MessageStore M N, Sound w f := by
  obtain ⟨-, f, -, -, hf⟩ := h.simulates
  exact ⟨f, hf⟩

theorem BoundedRun.snoc (h : BoundedRun M N buffer moves w) {e : Event T}
    (hstep : Step program w e w') (hb : BoundedEvent e) :
    BoundedRun M N buffer (moves ++ [⟨w, e, w'⟩]) w' where
  capacity := h.capacity
  length_buffer := h.length_buffer
  trace := h.trace.snoc hstep
  bounded := by
    intro m hm
    rcases List.mem_append.mp hm with hm | hm
    · exact h.bounded m hm
    · rw [List.mem_singleton.mp hm]
      exact hb

theorem BoundedRun.before (h : BoundedRun M N buffer moves w) {m : Move (System T) (Event T)}
    (hm : m ∈ moves) : ∃ before after, moves = before ++ m :: after ∧
      BoundedRun M N buffer before m.pre ∧ Step program m.pre m.label m.post := by
  obtain ⟨before, after, hmoves, hbefore, hstep⟩ := h.trace.of_mem hm
  exact ⟨before, after, hmoves,
    ⟨h.capacity, h.length_buffer, hbefore, (forall_before h.bounded hmoves).1⟩, hstep⟩

theorem BoundedRun.decodable (h : BoundedRun M N buffer moves w) {m : Move (System T) (Event T)}
    (hm : m ∈ moves) {r : GetResult} (hr : delivery m.label = some r) :
    ∃ ms, r.messages = some ms := by
  obtain ⟨before, after, -, hrun, hstep⟩ := h.before hm
  obtain ⟨f, hf⟩ := hrun.sound
  cases he : m.label with
  | wake t => rw [he] at hr; cases hr
  | crit t start clock o pick =>
      rw [he] at hstep hr
      simp only [delivery] at hr
      split at hr
      · rename_i hc hx
        cases hr
        exact section_decodable hf.represents hstep.crit_inv.2.1 hc hx
      · cases hr

/-- Exactly-once FIFO: what has been delivered, followed by what is queued, is what
has been committed, each in the order of its critical sections. -/
theorem exactly_once_fifo (h : BoundedRun M N buffer moves w) :
    (∀ m ∈ moves, ∀ r, delivery m.label = some r → ∃ ms, r.messages = some ms) ∧
      ∃ queued, w.shared.messages = some queued ∧
        moves.flatMap (fun m => delivered m.label) ++ queued =
          moves.flatMap (fun m => committed m.label) := by
  obtain ⟨as, f, htrace, hlabels, hf⟩ := h.simulates
  have hconserved := BoundedFifo.conservation htrace
  simp only [hlabels, List.flatMap_assoc, storeLabels_delivered, storeLabels_accepted] at hconserved
  exact ⟨fun m hm r hr => h.decodable hm hr, f.items, hf.represents.messages_eq, hconserved⟩

end Runs

/-- A producer that waits for room in a ring of 24 bytes, and a consumer that makes it. -/
def exchangeSchedule (producer consumer : T) : List (Action T Call Clock) :=
  let clock : Clock := ⟨⟨0, 0⟩, ⟨0, 0⟩⟩
  [.enter producer (.put ⟨[[1], [2, 3]], true, 1000000⟩) clock none,
    .enter producer (.put ⟨[[4, 5, 6]], true, 1000000⟩) clock none,
    .enter consumer (.get ⟨List.replicate 32 0, 1, 24, true, 1000000⟩) clock (some producer),
    .resume producer clock none]

theorem exchange_run :
    ∃ (moves : List (Move (System (Fin 2)) (Event (Fin 2)))) (w : System (Fin 2)),
      BoundedRun 24 5 (List.replicate 24 0) moves w ∧ w.phase 0 = .idle ∧
      w.shared.queue.size = 21 ∧ w.shared.messages = some [[2, 3], [4, 5, 6]] ∧
      moves.flatMap (fun m => delivered m.label) = [[1]] := by
  have hrun : (program.run (System.init (Fin 2) 24 5 (List.replicate 24 0))
      (exchangeSchedule 0 1)).any (fun r => decide
        ((∀ m ∈ r.1, BoundedEvent m.label) ∧ r.2.phase 0 = .idle ∧
        r.2.shared.queue.size = 21 ∧ r.2.shared.messages = some [[2, 3], [4, 5, 6]] ∧
        r.1.flatMap (fun m => delivered m.label) = [[1]])) = true := by decide +kernel
  obtain ⟨moves, w, htrace, hw⟩ := reach_of_run hrun
  obtain ⟨hbounded, hrest⟩ := of_decide_eq_true hw
  exact ⟨moves, w, ⟨by decide, rfl, htrace, hbounded⟩, hrest⟩

theorem exactly_once_fifo_exchange :
    ∃ (moves : List (Move (System (Fin 2)) (Event (Fin 2)))) (w : System (Fin 2)),
      BoundedRun 24 5 (List.replicate 24 0) moves w ∧
      (∀ m ∈ moves, ∀ r, delivery m.label = some r → ∃ ms, r.messages = some ms) ∧
      w.shared.messages = some [[2, 3], [4, 5, 6]] ∧
      moves.flatMap (fun m => delivered m.label) = [[1]] ∧
      moves.flatMap (fun m => committed m.label) = [[1], [2, 3], [4, 5, 6]] := by
  obtain ⟨moves, w, hrun, -, -, hqueued, hdelivered⟩ := exchange_run
  obtain ⟨hdecodable, queued, hmessages, hconserved⟩ := exactly_once_fifo hrun
  rw [hqueued] at hmessages
  cases hmessages
  rw [hdelivered] at hconserved
  exact ⟨moves, w, hrun, hdecodable, hqueued, hdelivered, hconserved.symm⟩

end FasterFifo
