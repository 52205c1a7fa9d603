import FasterFifo.Refinement

/-! The contracts of the two calls in every reachable state: the fields of the queue object, the
absence of faults, the exact result of `queue_get`, and the all-or-nothing effect of `queue_put`. -/
namespace FasterFifo
open CheckedMemory CyclicBuffer Framing Transition Monitor
open BoundedFifo (total Store total_append total_cons total_nil)

variable {T : Type} [DecidableEq T] {M N : ℕ} {buffer : Bytes}
  {moves : List (Move (System T) (Event T))} {w : System T}

/-- Whenever the mutex is free the fields agree with each other and with the frames in the ring. -/
theorem fields_agree (hM : 1 ≤ M) (h : BoundedRun M N buffer moves w) :
    w.shared.queue.head < M ∧ w.shared.queue.tail < M ∧ w.shared.queue.size ≤ M ∧
      w.shared.queue.tail = (w.shared.queue.head + w.shared.queue.size) % M ∧
      w.shared.queue.numElem ≤ N ∧
      (∃ ms, splitFrames sizeT w.shared.queue.numElem w.shared.content = some (ms, []) ∧
        w.shared.content = frames sizeT ms ∧
        getDataSize w.shared = (ms.map fun m => 8 + m.length).sum ∧
        getQueueSize w.shared = ms.length) ∧
      (w.shared.queue.size = 0 ↔ w.shared.queue.numElem = 0) := by
  obtain ⟨f, hf⟩ := h.sound
  have hrep := hf.represents
  have hring := hrep.ring
  have hcap := hrep.capacity
  have hpos : 0 < w.shared.queue.maxSizeBytes := by rw [hcap]; exact hM
  refine ⟨hcap ▸ hring.head_lt hpos, hcap ▸ hring.tail_lt hpos, hcap ▸ hring.size_le,
    hcap ▸ hring.tail_eq, ?_, ⟨f.items, hrep.splitFrames_eq, hrep.content_eq, hrep.size_eq,
      hrep.numElem_eq⟩, ?_⟩
  · rw [hrep.numElem_eq]
    exact f.count_le
  · rw [hrep.size_eq_zero_iff, hrep.numElem_eq, List.length_eq_zero_iff]

theorem fields_agree_exchange :
    ∃ (moves : List (Move (System (Fin 2)) (Event (Fin 2)))) (w : System (Fin 2)),
      BoundedRun 24 5 (List.replicate 24 0) moves w ∧
      w.shared.queue.head < 24 ∧ w.shared.queue.tail < 24 ∧ w.shared.queue.size = 21 ∧
      w.shared.queue.tail = (w.shared.queue.head + 21) % 24 ∧ w.shared.queue.numElem ≤ 5 ∧
      w.shared.queue.numElem ≠ 0 ∧
      ∃ ms, splitFrames sizeT w.shared.queue.numElem w.shared.content = some (ms, []) ∧
        w.shared.content = frames sizeT ms ∧ 21 = (ms.map fun m => 8 + m.length).sum ∧
        getQueueSize w.shared = ms.length := by
  obtain ⟨moves, w, hrun, -, hsize, -⟩ := exchange_run
  obtain ⟨hhead, htail, -, hsplit, hnum, ⟨ms, hparsed, hframes, hbytes, hcount⟩, hempty⟩ :=
    fields_agree (by decide) hrun
  rw [hsize] at hsplit hempty
  have hdata : getDataSize w.shared = 21 := hsize
  rw [hdata] at hbytes
  exact ⟨moves, w, hrun, hhead, htail, hsize, hsplit, hnum, by simpa using hempty, ms, hparsed,
    hframes, hbytes, hcount⟩

/-- No section of a bounded call stops with a fault: every copy stays inside its two
blocks, no subtraction goes below zero, and no assertion fails. -/
theorem sections_never_fault (h : BoundedRun M N buffer moves w) {t : T}
    {start : Start Call Request} (hphase : w.phase t = start.phase)
    (hbound : ∀ c, start = .enter c → c.Bounded) (clock : Clock) :
    w.shared.buffer.length = M ∧ w.shared.queue.maxSizeBytes = M ∧
      ∃ o, program.body start clock w.shared = .ok o ∧ o.shared.buffer.length = M := by
  obtain ⟨f, hf⟩ := h.sound
  have hcall : (startCall start).Bounded := by
    cases start with
    | enter c => exact hbound c rfl
    | resume r => exact hf.pending t r (.inr hphase)
  obtain ⟨o, ho⟩ := section_ok hf.represents hcall clock
  obtain ⟨-, g, -, -, hg⟩ := section_refines t none hf.represents hcall.addressable ho
  exact ⟨hf.represents.ring.length_buffer.trans hf.represents.capacity, hf.represents.capacity,
    o, ho, hg.ring.length_buffer.trans hg.capacity⟩

theorem sections_never_fault_exchange :
    ∃ (moves : List (Move (System (Fin 2)) (Event (Fin 2)))) (w : System (Fin 2)),
      BoundedRun 24 5 (List.replicate 24 0) moves w ∧
      w.shared.buffer.length = 24 ∧ w.shared.queue.maxSizeBytes = 24 ∧
      ∃ o, program.body (.enter (.put ⟨[[7]], false, 0⟩)) ⟨⟨0, 0⟩, ⟨0, 0⟩⟩ w.shared = .ok o ∧
        o.shared.buffer.length = 24 := by
  obtain ⟨moves, w, hrun, hidle, -⟩ := exchange_run
  have hbound : ∀ c, (Start.enter (.put ⟨[[7]], false, 0⟩) : Start Call Request) = .enter c →
      c.Bounded := by
    rintro c ⟨⟩
    decide
  exact ⟨moves, w, hrun, sections_never_fault hrun hidle hbound ⟨⟨0, 0⟩, ⟨0, 0⟩⟩⟩

section Get
variable {s : Shared} {f : MessageStore M N}

/-- The loop stops at a wanted message exactly when the receive buffer is too small for it. -/
theorem refuses_iff (a : GetArgs) (s : Shared) (ms : List Bytes) :
    a.refuses (a.start s) ms ↔
      a.serves (a.start s) ms < a.maxMessagesToGet ∧
      total msgWeight (ms.take (a.serves (a.start s) ms)) < a.maxBytesToGet ∧
      a.serves (a.start s) ms < ms.length ∧
      a.msgBufferSize < total msgWeight (ms.take (a.serves (a.start s) ms + 1)) := by
  have hclosed := BoundedFifo.closed_at_served msgWeight a.maxMessagesToGet a.maxBytesToGet
    a.msgBufferSize 0 0 ms
  simp only [Nat.zero_add] at hclosed
  simp only [GetArgs.refuses, GetArgs.serves, GetArgs.start, Nat.zero_add]
  omega

theorem serves_isLeast (a : GetArgs) (s : Shared) (ms : List Bytes) :
    IsLeast {k | a.maxMessagesToGet ≤ k ∨ a.maxBytesToGet ≤ total msgWeight (ms.take k) ∨
      k = ms.length ∨ a.msgBufferSize < total msgWeight (ms.take (k + 1))}
      (a.serves (a.start s) ms) :=
  BoundedFifo.served_isLeast msgWeight a.maxMessagesToGet a.maxBytesToGet a.msgBufferSize ms

/-- The result record as a function of the number of messages served. -/
theorem served_result (a : GetArgs) (s : Shared) (ms : List Bytes) :
    ((a.start s).served a ms).result =
      { status := if a.refuses (a.start s) ms then .msgBufferTooSmall else .success
        messagesRead := a.serves (a.start s) ms
        bytesRead := total msgWeight (ms.take (a.serves (a.start s) ms))
        messagesSize :=
          if a.refuses (a.start s) ms then total msgWeight (ms.take (a.serves (a.start s) ms + 1))
          else total msgWeight (ms.take (a.serves (a.start s) ms))
        msgBuffer := frames sizeT (ms.take (a.serves (a.start s) ms)) ++
          a.msgBuffer.drop (total msgWeight (ms.take (a.serves (a.start s) ms))) } := by
  simp only [GetState.served, GetState.result, GetArgs.start, splice, List.take_zero,
    List.nil_append, Nat.zero_add, length_frames_eq]

theorem serves_pos {a : GetArgs} (s : Shared) {m : Bytes} (ms : List Bytes)
    (hK : 1 ≤ a.maxMessagesToGet) (hX : 1 ≤ a.maxBytesToGet)
    (hB : msgWeight m ≤ a.msgBufferSize) : 1 ≤ a.serves (a.start s) (m :: ms) := by
  have hopen : 0 < a.maxMessagesToGet ∧ 0 < a.maxBytesToGet ∧ 0 + msgWeight m ≤ a.msgBufferSize :=
    ⟨hK, hX, by rwa [Nat.zero_add]⟩
  rw [GetArgs.serves, GetArgs.start, BoundedFifo.served, if_pos hopen]
  exact Nat.le_add_left _ _

/-- A get that finds the queue non-empty, in any section of its call. -/
theorem get_section_eq (h : Represents s f) (hne : f.items ≠ []) {a : GetArgs}
    {start : Start Call Request} (hget : startCall start = .get a) (clock : Clock) :
    program.body start clock s = .ok
      { shared := ((a.start (startShared start s)).served a f.items).shared
        signalled := ((a.start (startShared start s)).served a f.items).shared.queue.signalAfterGet
          (a.serves (a.start (startShared start s)) f.items)
        exit := .returned (.get ((a.start (startShared start s)).served a f.items).result) } := by
  have hstart := h.startShared start
  have hsize : ¬(startShared start s).queue.size ≤ 0 :=
    fun h0 => hne (hstart.size_eq_zero_iff.mp (Nat.le_zero.mp h0))
  rw [body_eq, hget, Call.loop, queueGetWait, if_neg hsize]
  exact queueGetBody_eq hstart hne a

theorem served_none (h : Represents s f) (hne : f.items ≠ []) {a : GetArgs}
    (hk : a.serves (a.start s) f.items = 0) : ((a.start s).served a f.items).shared = s := by
  simp only [GetState.served, hk, List.take_zero]
  exact dropped_nil h.ring (h.capacity_pos hne)

/-- A get that wants a message and serves none reports the room that the first one needs. -/
theorem refused_size {a : GetArgs} (s : Shared) {m : Bytes} {ms : List Bytes}
    (hk : a.serves (a.start s) (m :: ms) = 0) (hK : 1 ≤ a.maxMessagesToGet)
    (hX : 1 ≤ a.maxBytesToGet) :
    ((a.start s).served a (m :: ms)).result.messagesSize = msgWeight m := by
  have hrefuses : a.refuses (a.start s) (m :: ms) := by
    rw [GetArgs.refuses, hk, List.take_zero, total_nil]
    exact ⟨hK, hX, Nat.succ_pos _⟩
  rw [served_result, hk]
  simp only [if_pos hrefuses, Nat.zero_add, List.take_succ_cons, List.take_zero, total_cons,
    total_nil, Nat.add_zero]

end Get

/-- The exact result of `queue_get` in a non-empty queue: `k` messages are served, where
`k` is the first count at which a limit, the end of the queue or the receive buffer stops it. -/
theorem queue_get_exact (h : BoundedRun M N buffer moves w) {start : Start Call Request}
    {a : GetArgs} (hget : startCall start = .get a) (hsize : 0 < w.shared.queue.size)
    (clock : Clock) :
    ∃ ms k o r, w.shared.messages = some ms ∧ program.body start clock w.shared = .ok o ∧
      o.exit = .returned (.get r) ∧
      IsLeast {j | a.maxMessagesToGet ≤ j ∨ a.maxBytesToGet ≤ total msgWeight (ms.take j) ∨
        j = ms.length ∨ a.msgBufferSize < total msgWeight (ms.take (j + 1))} k ∧
      r.messagesRead = k ∧ r.bytesRead = total msgWeight (ms.take k) ∧
      total msgWeight (ms.take k) ≤ a.msgBufferSize ∧
      r.msgBuffer = frames sizeT (ms.take k) ++ a.msgBuffer.drop (total msgWeight (ms.take k)) ∧
      o.shared.messages = some (ms.drop k) ∧
      (if k < a.maxMessagesToGet ∧ total msgWeight (ms.take k) < a.maxBytesToGet ∧
          k < ms.length ∧ a.msgBufferSize < total msgWeight (ms.take (k + 1)) then
        r.status = .msgBufferTooSmall ∧ r.messagesSize = total msgWeight (ms.take (k + 1))
      else r.status = .success ∧ r.messagesSize = total msgWeight (ms.take k)) ∧
      (k = 0 → SameRing w.shared o.shared ∧
        ∀ (msgBuffer : Bytes) (clock' : Clock), r.messagesSize ≤ msgBuffer.length →
          1 ≤ a.maxMessagesToGet → 1 ≤ a.maxBytesToGet →
          ∃ o' r', program.body (.enter (.get { a with msgBuffer := msgBuffer })) clock' o.shared =
            .ok o' ∧ o'.exit = .returned (.get r') ∧ 1 ≤ r'.messagesRead) := by
  obtain ⟨f, hf⟩ := h.sound
  have hrep := hf.represents
  have hstart := hrep.startShared start
  have hne : f.items ≠ [] := fun hnil => hsize.ne' (hrep.size_eq_zero_iff.mpr hnil)
  have hbody := get_section_eq hrep hne hget clock
  have hresult := served_result a (startShared start w.shared) f.items
  refine ⟨f.items, a.serves (a.start (startShared start w.shared)) f.items, _, _, hrep.messages_eq,
    hbody, rfl, serves_isLeast a _ _, ?_, ?_, served_total_le a _ _, ?_, ?_, ?_, ?_⟩
  · rw [hresult]
  · rw [hresult]
  · rw [hresult]
  · exact (hstart.dropped _).messages_eq
  · simp only [hresult, ← refuses_iff]
    by_cases hr : a.refuses (a.start (startShared start w.shared)) f.items <;> simp [hr]
  · intro hk
    rw [served_none hstart hne hk]
    refine ⟨.startShared start w.shared, ?_⟩
    intro msgBuffer clock' hroom hK hX
    cases hitems : f.items with
    | nil => exact absurd hitems hne
    | cons m ms =>
        rw [hitems] at hk hroom
        rw [refused_size _ hk hK hX] at hroom
        refine ⟨_, _, get_section_eq hstart hne rfl clock', rfl, ?_⟩
        rw [served_result, hitems]
        exact serves_pos _ ms hK hX hroom

/-- Of the two queued messages only the first fits into the receive buffer of 16 bytes. -/
theorem queue_get_exact_exchange :
    ∃ (moves : List (Move (System (Fin 2)) (Event (Fin 2)))) (w : System (Fin 2)) (o : Section)
      (r : GetResult), BoundedRun 24 5 (List.replicate 24 0) moves w ∧
      program.body (.enter (.get ⟨List.replicate 16 0, 5, 24, true, 0⟩)) ⟨⟨0, 0⟩, ⟨0, 0⟩⟩
        w.shared = .ok o ∧ o.exit = .returned (.get r) ∧ r.messagesRead = 1 ∧ r.bytesRead = 10 ∧
      r.msgBuffer = frames sizeT [[2, 3]] ++ List.replicate 6 0 ∧
      r.status = .msgBufferTooSmall ∧ r.messagesSize = 21 ∧
      o.shared.messages = some [[4, 5, 6]] := by
  obtain ⟨moves, w, hrun, -, hsize, hmessages, -⟩ := exchange_run
  obtain ⟨ms, k, o, r, hqueued, hbody, hx, hk, hread, hbytes, -, hbuffer, hrest, hstatus, -⟩ :=
    queue_get_exact hrun
      (show startCall (.enter (.get ⟨List.replicate 16 0, 5, 24, true, 0⟩)) = _ from rfl)
      (by rw [hsize]; decide) ⟨⟨0, 0⟩, ⟨0, 0⟩⟩
  rw [hmessages] at hqueued
  cases hqueued
  obtain rfl : k = 1 := by
    refine hk.unique ⟨.inr (.inr (.inr (by decide))), fun j hj => Nat.one_le_iff_ne_zero.mpr ?_⟩
    rintro rfl
    revert hj
    decide
  rw [if_pos (by decide)] at hstatus
  exact ⟨moves, w, o, r, hrun, hbody, hx, hread, hbytes, hbuffer, hstatus.1, hstatus.2, hrest⟩

section Put

/-- The sections of the call that thread `t` is in, or has just left. -/
def callMoves (t : T) (moves : List (Move (System T) (Event T))) :
    List (Move (System T) (Event T)) :=
  moves.foldl (fun acc m =>
    match m.label with
    | .crit u (.enter _) _ _ _ => if u = t then [m] else acc
    | .crit u (.resume _) _ _ _ => if u = t then acc ++ [m] else acc
    | .wake _ => acc) []

/-- What the sections of a list add to a waiter counter. -/
def counterChange (k : Cond) (moves : List (Move (System T) (Event T))) : ℤ :=
  (moves.map fun m => m.post.shared.queue.waiters k - m.pre.shared.queue.waiters k).sum

section CallMoves
variable {t u : T} {m : Move (System T) (Event T)} {clock : Clock} {o : Section} {pick : Option T}

theorem callMoves_enter {c : Call} (h : m.label = .crit t (.enter c) clock o pick) :
    callMoves t (moves ++ [m]) = [m] := by
  simp [callMoves, h]

theorem callMoves_resume {r : Request} (h : m.label = .crit t (.resume r) clock o pick) :
    callMoves t (moves ++ [m]) = callMoves t moves ++ [m] := by
  simp [callMoves, h]

theorem callMoves_other {start : Start Call Request} (h : m.label = .crit u start clock o pick)
    (hne : u ≠ t) : callMoves t (moves ++ [m]) = callMoves t moves := by
  cases start <;> simp [callMoves, h, hne]

theorem callMoves_wake (h : m.label = .wake u) :
    callMoves t (moves ++ [m]) = callMoves t moves := by
  simp [callMoves, h]

/-- The sections of one call, in order, and how the last of them ended. -/
inductive CallSections (c : Call) :
    List (Move (System T) (Event T)) → Exit Request Result → Prop
  | enter {w w' : System T} {t : T} {clock : Clock} {o : Section} {pick : Option T}
      (hstep : Step program w (.crit t (.enter c) clock o pick) w') :
      CallSections c [⟨w, .crit t (.enter c) clock o pick, w'⟩] o.exit
  | resume {call : List (Move (System T) (Event T))} {r : Request} {w w' : System T} {t : T}
      {clock : Clock} {o : Section} {pick : Option T} (h : CallSections c call (.waiting r))
      (hcall : r.call = c) (hstep : Step program w (.crit t (.resume r) clock o pick) w') :
      CallSections c (call ++ [⟨w, .crit t (.resume r) clock o pick, w'⟩]) o.exit

/-- In every run the sections of a waiting call are those of its thread since it entered. -/
theorem callSections_of_pending {w₀ : System T} (h : Trace (Step program) w₀ moves w)
    (h₀ : ∀ t, w₀.phase t = .idle) {r : Request} (hr : w.Pending t r) :
    CallSections r.call (callMoves t moves) (.waiting r) := by
  induction h generalizing r with
  | nil => rcases hr with hr | hr <;> rw [h₀] at hr <;> cases hr
  | snoc htrace hstep ih =>
      rename_i e
      cases e with
      | wake v =>
          rw [callMoves_wake rfl]
          exact ih (hstep.wake_pending hr)
      | crit v start clock o pick =>
          rcases hstep.pending hr with ⟨hne, hold⟩ | ⟨rfl, hnew⟩
          · rw [callMoves_other rfl hne.symm]
            exact ih hold
          · have hcall := waiting_call hstep.crit_inv.2.1 hnew
            cases start with
            | enter c =>
                rw [callMoves_enter rfl, ← hnew, hcall]
                exact .enter hstep
            | resume q =>
                rw [callMoves_resume rfl, ← hnew, hcall]
                exact .resume (ih (.inr hstep.crit_inv.1)) rfl hstep

theorem callSections_of_step {w₀ w' : System T} (h : Trace (Step program) w₀ moves w)
    (h₀ : ∀ t, w₀.phase t = .idle) {start : Start Call Request}
    (hstep : Step program w (.crit t start clock o pick) w') :
    CallSections (startCall start)
      (callMoves t (moves ++ [⟨w, .crit t start clock o pick, w'⟩])) o.exit := by
  cases start with
  | enter c =>
      rw [callMoves_enter rfl]
      exact .enter hstep
  | resume r =>
      rw [callMoves_resume rfl]
      exact .resume (callSections_of_pending h h₀ (.inr hstep.crit_inv.1)) rfl hstep

end CallMoves

theorem unsuccessful_section {start : Start Call Request} {a : PutArgs} {clock : Clock}
    {s : Shared} {o : Section} (hc : startCall start = .put a)
    (hbody : program.body start clock s = .ok o) (hx : o.exit ≠ .returned (.put .success)) :
    SameRing s o.shared := by
  rw [body_eq, hc] at hbody
  cases queuePutLoop_cases hbody with
  | commit hfit hwrite => exact absurd rfl hx
  | full hfit hstop => exact .startShared start s
  | wait hfit hblock htimer => exact (SameRing.startShared start s).trans (.addWaiter _ _ _)

/-- The sections of a list left the ring as it was, and what they added to the waiter counters is
the place that `x` takes in a wait set, which is none for a thread that has returned. -/
structure Untouched (x : Phase Request) (moves : List (Move (System T) (Event T))) : Prop where
  ring : ∀ m ∈ moves, SameRing m.pre.shared m.post.shared
  counters : ∀ k, counterChange k moves = (x.waitsOn program.cond k).toNat

/-- The batch goes behind the messages in the queue, none of whose bytes is written to. -/
structure Appends (pre post : Shared) (msgs : List Bytes) : Prop where
  messages : ∃ c, pre.messages = some c ∧ post.messages = some (c ++ msgs)
  head : post.queue.head = pre.queue.head
  bytes : ∀ i < pre.queue.size,
    post.buffer[(pre.queue.head + i) % pre.queue.maxSizeBytes]? =
      pre.buffer[(pre.queue.head + i) % pre.queue.maxSizeBytes]?

theorem section_counterChange {w w' : System T} {t : T} {start : Start Call Request}
    {clock : Clock} {o : Section} {pick : Option T}
    (hstep : Step program w (.crit t start clock o pick) w') (k : Cond) :
    counterChange k [⟨w, .crit t start clock o pick, w'⟩] =
      (o.exit.phase.waitsOn program.cond k).toNat - (start.phase.waitsOn program.cond k).toNat := by
  obtain ⟨-, hbody, hshared, -⟩ := hstep.crit_inv
  have hcounter := body_waiters hbody k
  rw [counterChange, List.map_singleton, List.sum_singleton]
  dsimp only
  rw [hshared]
  omega

/-- While a put waits, and when it gives up, it has left everything alone but its place in the
wait set. -/
theorem CallSections.untouched {a : PutArgs} {call : List (Move (System T) (Event T))}
    {x : Exit Request Result} (h : CallSections (.put a) call x)
    (hx : x ≠ .returned (.put .success)) : Untouched x.phase call := by
  induction h with
  | enter hstep =>
      have hshared := hstep.crit_inv.2.2.1
      constructor
      · intro m hm
        rw [List.mem_singleton.mp hm, hshared]
        exact unsuccessful_section rfl hstep.crit_inv.2.1 hx
      · intro k
        rw [section_counterChange hstep, Start.phase, waitsOn_idle]
        exact sub_zero _
  | @resume call r w w' t clock o pick h hcall hstep ih =>
      have hshared := hstep.crit_inv.2.2.1
      have hput : startCall (.resume r) = .put a := hcall
      obtain ⟨hold, hcount⟩ := ih (by simp)
      constructor
      · intro m hm
        rcases List.mem_append.mp hm with hm | hm
        · exact hold m hm
        · rw [List.mem_singleton.mp hm, hshared]
          exact unsuccessful_section hput hstep.crit_inv.2.1 hx
      · intro k
        have hsum : counterChange k
            (call ++ [⟨w, .crit t (.resume r) clock o pick, w'⟩]) =
            counterChange k call +
              counterChange k [⟨w, .crit t (.resume r) clock o pick, w'⟩] := by
          simp only [counterChange, List.map_append, List.sum_append]
        rw [hsum, hcount k, section_counterChange hstep, Start.phase, Exit.phase, waitsOn_asleep,
          waitsOn_woken]
        exact add_sub_cancel _ _

theorem returned_put_untouched {w₀ w' : System T} (h : Trace (Step program) w₀ moves w)
    (h₀ : ∀ t, w₀.phase t = .idle) {t : T} {start : Start Call Request} {a : PutArgs}
    {clock : Clock} {o : Section} {pick : Option T} {status : Status}
    (hstep : Step program w (.crit t start clock o pick) w') (hc : startCall start = .put a)
    (hx : o.exit = .returned (.put status)) (hne : status ≠ .success) :
    Untouched .idle (callMoves t (moves ++ [⟨w, .crit t start clock o pick, w'⟩])) := by
  have hcall := callSections_of_step h h₀ hstep
  rw [hc] at hcall
  have huntouched := hcall.untouched (by rw [hx]; simpa using hne)
  rw [hx] at huntouched
  exact huntouched

section Sections
variable {s : Shared} {f : MessageStore M N} {start : Start Call Request} {a : PutArgs}
  {clock : Clock} {o : Section}

theorem fits_iff (h : Represents s f) (batch : List Bytes) :
    f.Fits batch ↔ s.queue.size + total msgWeight batch ≤ M ∧
      s.queue.numElem + batch.length ≤ N := by
  rw [BoundedFifo.Store.Fits, h.size_eq, h.numElem_eq]

theorem put_section_eq (h : Represents s f) (hc : startCall start = .put a)
    (hbound : (startCall start).Bounded) (hfit : f.Fits a.msgs) (clock : Clock) :
    program.body start clock s = .ok
      { shared := a.msgs.foldl Shared.pushed (startShared start s)
        signalled := (a.msgs.foldl Shared.pushed (startShared start s)).queue.signalAfterPut
        exit := .returned (.put .success) } := by
  have hstart := h.startShared start
  rw [hc] at hbound
  have hroom := (canFit_iff hstart hbound).mpr hfit
  rw [body_eq, hc, Call.loop, queuePutLoop, if_pos hroom, (writeMessages_eq hstart hfit).1, ok_bind]
  rfl

theorem put_fits (h : Represents s f) (hc : startCall start = .put a)
    (hbound : (startCall start).Bounded) (hbody : program.body start clock s = .ok o)
    (hx : o.exit = .returned (.put .success)) : f.Fits a.msgs := by
  rw [body_eq, hc] at hbody
  rw [hc] at hbound
  cases queuePutLoop_cases hbody with
  | commit hfit hwrite => exact (canFit_iff (h.startShared start) hbound).mp hfit
  | full hfit hstop => cases hx
  | wait hfit hblock htimer => cases hx

theorem put_refused_eq (h : Represents s f) (hbound : (Call.put a).Bounded)
    (hfit : ¬f.Fits a.msgs) (hblock : a.block = false) (clock : Clock) :
    program.body (.enter (.put a)) clock s = .ok ⟨s, none, .returned (.put .full)⟩ := by
  have hroom : ¬s.queue.canFit (totalSize a.msgSizes) a.msgs.length = true :=
    fun hroom => hfit ((canFit_iff h hbound).mp hroom)
  rw [body_eq, startCall, Call.loop, startShared, queuePutLoop, if_neg hroom, hblock]
  rfl

theorem put_commits (h : Represents s f) (hc : startCall start = .put a)
    (hbound : (startCall start).Bounded) (hbody : program.body start clock s = .ok o)
    (hx : o.exit = .returned (.put .success)) : Appends s o.shared a.msgs := by
  have hstart := h.startShared start
  have hsame := SameRing.startShared start s
  have hfit := put_fits h hc hbound hbody hx
  cases hbody.symm.trans (put_section_eq h hc hbound hfit clock)
  have hkept := kept_foldl_pushed hstart hfit
  constructor
  · exact ⟨f.items, h.messages_eq, (writeMessages_eq hstart hfit).2.messages_eq⟩
  · exact hkept.head.trans hsame.head
  · intro i hi
    rw [← hsame.size] at hi
    have hbyte := hkept.bytes i hi
    rwa [hsame.head, hsame.buffer, hstart.capacity, ← h.capacity] at hbyte

theorem put_accepted (h : Represents s f) (hc : startCall start = .put a)
    (hbound : (startCall start).Bounded) (hbody : program.body start clock s = .ok o)
    (hsize : s.queue.size + total msgWeight a.msgs ≤ M)
    (hcount : s.queue.numElem + a.msgs.length ≤ N) : o.exit = .returned (.put .success) := by
  have hfit : f.Fits a.msgs := (fits_iff h a.msgs).mpr ⟨hsize, hcount⟩
  cases hbody.symm.trans (put_section_eq h hc hbound hfit clock)
  rfl

theorem put_rejected (h : Represents s f) (hc : startCall start = .put a)
    (hbound : (startCall start).Bounded) (hbody : program.body start clock s = .ok o)
    (hx : o.exit = .returned (.put .full)) :
    M < s.queue.size + total msgWeight a.msgs ∨ N < s.queue.numElem + a.msgs.length := by
  by_contra hfits
  rw [not_or, not_lt, not_lt] at hfits
  rw [put_accepted h hc hbound hbody hfits.1 hfits.2] at hx
  cases hx

end Sections

end Put

end FasterFifo
