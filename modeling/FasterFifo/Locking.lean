import FasterFifo.System
import FasterFifo.Library.Mutex

/-! The sections of the two calls, one access of the shared state at a time. What is left of a
section at each of its points is the tail of the section as `program` runs it, so the sections are
atomic for everybody who takes the mutex. -/
namespace FasterFifo
open CheckedMemory Transition Monitor

/-- Where the thread that has the mutex is, with the locals that it still needs and the signal
that it has given. -/
inductive Point where
  | locked (start : Start Call Request) (clock : Clock)
  | fitting (a : PutArgs) (waitRemaining now : Timeval)
  | refused (a : PutArgs) (waitRemaining now : Timeval)
  | waking (a : PutArgs) (waitRemaining now : Timeval)
  | header (msgs : List Bytes)
  | payload (m : Bytes) (msgs : List Bytes)
  | counting (msgs : List Bytes)
  | waiting (a : GetArgs) (waitRemaining now : Timeval)
  | reading (a : GetArgs) (rounds : ℕ) (r : GetResult)
  | sized (a : GetArgs) (rounds : ℕ) (r : GetResult) (msgSize : ℕ)
  | popping (a : GetArgs) (rounds : ℕ) (r : GetResult) (readNumBytes : ℕ)
  | popped (a : GetArgs) (rounds : ℕ) (r : GetResult)
  | counted (a : GetArgs) (rounds : ℕ) (r : GetResult)
  | finished (r : GetResult)
  | signalling (k : Cond) (r : Result)
  | sleeping (signalled : Option Cond) (c : Call) (waitRemaining now : Timeval)
  | leaving (signalled : Option Cond) (exit : Exit Request Result)

abbrev FineSystem (T : Type) := Locked T Shared Call Request Clock Point

abbrev FineEvent (T : Type) := Tick T Call Clock Shared Cond Request Result

/-- `++q->num_elem`. -/
def Shared.counted (s : Shared) : Shared :=
  { s with queue := { s.queue with numElem := addSize s.queue.numElem 1 } }

/-- `*bytes_read += read_num_bytes; *messages_read += 1`. -/
def GetResult.popped (r : GetResult) (readNumBytes : ℕ) (msgBuffer : Bytes) : GetResult :=
  { r with
    messagesRead := addSize r.messagesRead 1
    bytesRead := addSize r.bytesRead readNumBytes
    msgBuffer := msgBuffer }

/-- A call that is done signals first, if it signals at all. -/
def Point.returning (r : Result) : Option Cond → Point
  | some k => .signalling k r
  | none => .leaving none (.returned r)

/-- The code from one access of the shared state to the next. -/
def Point.advance (s : Shared) : Point → Except Fault (Advance Point Shared Cond Request Result)
  | .locked start clock =>
      -- back from `pthread_cond_timedwait`, the waiter counter is decremented first
      let waitRemaining := startRemaining start clock
      match startCall start with
      | .put a => .ok (.more (.fitting a waitRemaining clock.now) (startShared start s))
      | .get a => .ok (.more (.waiting a waitRemaining clock.now) (startShared start s))
  | .fitting a waitRemaining now =>
      if s.queue.canFit (totalSize a.msgSizes) a.msgs.length then .ok (.more (.header a.msgs) s)
      else if !a.block || !timerPositive waitRemaining then
        .ok (.more (.leaving none (.returned (.put .full))) s)
      else .ok (.more (.refused a waitRemaining now) s)
  | .refused a waitRemaining now =>
      -- if there are any consumers waiting, wake them up
      if s.queue.notEmptyNWaiters > 0 then .ok (.more (.waking a waitRemaining now) s)
      else .ok (.more (.sleeping none (.put a) waitRemaining now) s)
  | .waking a waitRemaining now =>
      .ok (.signal .notEmpty (.sleeping (some .notEmpty) (.put a) waitRemaining now))
  | .header [] => .ok (.more (.returning (.put .success) s.queue.signalAfterPut) s)
  | .header (m :: ms) => do
      let s ← circularBufferWrite s (sizeT.encode m.length) sizeofSizeT
      pure (.more (.payload m ms) s)
  | .payload m ms => do
      let s ← circularBufferWrite s m m.length
      pure (.more (.counting ms) s)
  | .counting ms => .ok (.more (.header ms) s.counted)
  | .waiting a waitRemaining now =>
      if s.queue.size ≤ 0 then
        if !a.block || !timerPositive waitRemaining then
          .ok (.more (.leaving none (.returned (.get ⟨.empty, 0, 0, 0, a.msgBuffer⟩))) s)
        else .ok (.more (.sleeping none (.get a) waitRemaining now) s)
      else .ok (.more (.reading a a.maxMessagesToGet ⟨.success, 0, 0, 0, a.msgBuffer⟩) s)
  | .reading _ 0 r => .ok (.more (.finished r) s)
  | .reading a (rounds+1) r =>
      if r.messagesRead < a.maxMessagesToGet ∧ r.bytesRead < a.maxBytesToGet then do
        let (_, msgSize) ← circularBufferRead s (List.replicate sizeofSizeT 0) 0 sizeofSizeT false
        pure (.more (.sized a rounds r (sizeT.decode msgSize)) s)
      else .ok (.more (.finished r) s)
  | .sized a rounds r msgSize =>
      let readNumBytes := addSize sizeofSizeT msgSize
      let messagesSize := addSize r.messagesSize readNumBytes
      if a.msgBufferSize < messagesSize then
        .ok (.more (.finished { r with messagesSize := messagesSize, status := .msgBufferTooSmall }) s)
      else do
        logAssert (readNumBytes ≤ s.queue.size) "Queue size is less than message size!"
        pure (.more (.popping a rounds { r with messagesSize := messagesSize } readNumBytes) s)
  | .popping a rounds r readNumBytes => do
      let (s, msgBuffer) ← circularBufferRead s r.msgBuffer r.bytesRead readNumBytes true
      pure (.more (.popped a rounds (r.popped readNumBytes msgBuffer)) s)
  | .popped a rounds r => do
      let numElem ← checkedSub s.queue.numElem 1
      pure (.more (.counted a rounds r) { s with queue := { s.queue with numElem := numElem } })
  | .counted a rounds r =>
      if s.queue.size ≤ 0 then .ok (.more (.finished r) s) else .ok (.more (.reading a rounds r) s)
  | .finished r => .ok (.more (.returning (.get r) (s.queue.signalAfterGet r.messagesRead)) s)
  | .signalling k r => .ok (.signal k (.leaving (some k) (.returned r)))
  | .sleeping signalled c waitRemaining now =>
      .ok (.more (.leaving signalled (.waiting ⟨c, timeradd now waitRemaining⟩))
        (s.addWaiter c.cond 1))
  | .leaving signalled exit => .ok (.release { shared := s, signalled := signalled, exit := exit })

/-- The queue as a monitor, access by access. -/
def code : Code Point Shared Cond Call Request Clock Result Fault where
  cond r := r.call.cond
  begins := .locked
  advance l s := l.advance s

section Rest

/-- The end of a section of `queue_put` that has written its batch. -/
def putDone (s : Shared) : Section where
  shared := s
  signalled := s.queue.signalAfterPut
  exit := .returned (.put .success)

/-- The end of a section of `queue_get` that has left its read loop. -/
def GetState.done (st : GetState) : Section where
  shared := st.shared
  signalled := st.shared.queue.signalAfterGet st.messagesRead
  exit := .returned (.get st.result)

def GetResult.state (r : GetResult) (s : Shared) : GetState :=
  ⟨s, r.msgBuffer, r.messagesRead, r.bytesRead, r.messagesSize, r.status⟩

/-- What is left once a round of the read loop has counted its message off. -/
def countedRest (a : GetArgs) (rounds : ℕ) (r : GetResult) (s : Shared) : Except Fault Section :=
  if s.queue.size ≤ 0 then .ok (r.state s).done
  else (queueGetLoop a rounds (r.state s)).map GetState.done

def poppedRest (a : GetArgs) (rounds : ℕ) (r : GetResult) (s : Shared) : Except Fault Section := do
  let numElem ← checkedSub s.queue.numElem 1
  countedRest a rounds r { s with queue := { s.queue with numElem := numElem } }

def poppingRest (a : GetArgs) (rounds : ℕ) (r : GetResult) (readNumBytes : ℕ) (s : Shared) :
    Except Fault Section := do
  let (s, msgBuffer) ← circularBufferRead s r.msgBuffer r.bytesRead readNumBytes true
  poppedRest a rounds (r.popped readNumBytes msgBuffer) s

def sizedRest (a : GetArgs) (rounds : ℕ) (r : GetResult) (msgSize : ℕ) (s : Shared) :
    Except Fault Section :=
  let readNumBytes := addSize sizeofSizeT msgSize
  let messagesSize := addSize r.messagesSize readNumBytes
  if a.msgBufferSize < messagesSize then
    .ok (({ r with messagesSize := messagesSize,
                   status := .msgBufferTooSmall } : GetResult).state s).done
  else do
    logAssert (readNumBytes ≤ s.queue.size) "Queue size is less than message size!"
    poppingRest a rounds { r with messagesSize := messagesSize } readNumBytes s

/-- What is left of a section. -/
def Point.rest (s : Shared) : Point → Except Fault Section
  | .locked start clock => program.body start clock s
  | .fitting a waitRemaining now => queuePutLoop s a waitRemaining now
  | .refused a waitRemaining now =>
      let signalled := if s.queue.notEmptyNWaiters > 0 then some Cond.notEmpty else none
      .ok (beginWait s (.put a) signalled waitRemaining now)
  | .waking a waitRemaining now => .ok (beginWait s (.put a) (some .notEmpty) waitRemaining now)
  | .header ms => (writeMessages s ms).map putDone
  | .payload m ms => do
      let s ← circularBufferWrite s m m.length
      (writeMessages s.counted ms).map putDone
  | .counting ms => (writeMessages s.counted ms).map putDone
  | .waiting a waitRemaining now => queueGetWait s a waitRemaining now
  | .reading a rounds r => (queueGetLoop a rounds (r.state s)).map GetState.done
  | .sized a rounds r msgSize => sizedRest a rounds r msgSize s
  | .popping a rounds r readNumBytes => poppingRest a rounds r readNumBytes s
  | .popped a rounds r => poppedRest a rounds r s
  | .counted a rounds r => countedRest a rounds r s
  | .finished r => .ok (r.state s).done
  | .signalling k r => .ok { shared := s, signalled := some k, exit := .returned r }
  | .sleeping signalled c waitRemaining now => .ok (beginWait s c signalled waitRemaining now)
  | .leaving signalled exit => .ok { shared := s, signalled := signalled, exit := exit }

def Point.sent : Point → Option Cond
  | .sleeping signalled _ _ _ => signalled
  | .leaving signalled _ => signalled
  | _ => none

/-- How many steps are left at most. -/
def Point.left : Point → ℕ
  | .locked start _ =>
      match startCall start with
      | .put a => 3 * a.msgs.length + 6
      | .get a => 5 * a.maxMessagesToGet + 6
  | .fitting a _ _ => 3 * a.msgs.length + 5
  | .refused _ _ _ => 4
  | .waking _ _ _ => 3
  | .header ms => 3 * ms.length + 3
  | .payload _ ms => 3 * ms.length + 5
  | .counting ms => 3 * ms.length + 4
  | .waiting a _ _ => 5 * a.maxMessagesToGet + 5
  | .reading _ rounds _ => 5 * rounds + 4
  | .sized _ rounds _ _ => 5 * rounds + 8
  | .popping _ rounds _ _ => 5 * rounds + 7
  | .popped _ rounds _ => 5 * rounds + 6
  | .counted _ rounds _ => 5 * rounds + 5
  | .finished _ => 3
  | .signalling _ _ => 2
  | .sleeping _ _ _ _ => 2
  | .leaving _ _ => 1

def account : Account Point Shared Cond Request Result Fault where
  rest l s := l.rest s
  sent := Point.sent
  left := Point.left

theorem keeps_bind {l : Point} {s : Shared} {β : Type} {x : Except Fault β}
    {f : β → Except Fault (Advance Point Shared Cond Request Result)}
    {g : β → Except Fault Section} (hrest : l.rest s = x >>= g)
    (hf : ∀ b, l.rest s = g b → account.Keeps l s (f b)) : account.Keeps l s (x >>= f) := by
  cases x with
  | error e => exact hrest
  | ok b => exact hf b hrest

theorem map_bind {β δ ζ : Type} (x : Except Fault β) (f : β → Except Fault δ) (g : δ → ζ) :
    (x >>= f).map g = x >>= fun b => (f b).map g := by
  cases x <;> rfl

theorem keeps_locked (s : Shared) (start : Start Call Request) (clock : Clock) :
    account.Keeps (.locked start clock) s ((Point.locked start clock).advance s) := by
  have hbody := body_eq start clock s
  rw [Point.advance]
  cases hc : startCall start with
  | put a =>
      rw [hc] at hbody
      refine ⟨hbody.symm, rfl, ?_⟩
      simp only [account, Point.left, hc]
      omega
  | get a =>
      rw [hc] at hbody
      refine ⟨hbody.symm, rfl, ?_⟩
      simp only [account, Point.left, hc]
      omega

theorem keeps_fitting (s : Shared) (a : PutArgs) (waitRemaining now : Timeval) :
    account.Keeps (.fitting a waitRemaining now) s
      ((Point.fitting a waitRemaining now).advance s) := by
  rw [Point.advance]
  split
  · rename_i hfit
    refine ⟨?_, rfl, by simp only [account, Point.left]; omega⟩
    simp only [account, Point.rest, queuePutLoop, if_pos hfit]
    cases writeMessages s a.msgs <;> rfl
  · rename_i hfit
    split
    · rename_i hstop
      refine ⟨?_, rfl, by simp only [account, Point.left]; omega⟩
      simp only [account, Point.rest, queuePutLoop, if_neg hfit, if_pos hstop]
      rfl
    · rename_i hwait
      refine ⟨?_, rfl, by simp only [account, Point.left]; omega⟩
      simp only [account, Point.rest, queuePutLoop, if_neg hfit, if_neg hwait]
      rfl

theorem keeps_refused (s : Shared) (a : PutArgs) (waitRemaining now : Timeval) :
    account.Keeps (.refused a waitRemaining now) s
      ((Point.refused a waitRemaining now).advance s) := by
  rw [Point.advance]
  split
  · rename_i hwaiters
    refine ⟨?_, rfl, by simp only [account, Point.left]; omega⟩
    simp only [account, Point.rest, if_pos hwaiters]
  · rename_i hnobody
    refine ⟨?_, rfl, by simp only [account, Point.left]; omega⟩
    simp only [account, Point.rest, if_neg hnobody]

theorem keeps_waiting (s : Shared) (a : GetArgs) (waitRemaining now : Timeval) :
    account.Keeps (.waiting a waitRemaining now) s
      ((Point.waiting a waitRemaining now).advance s) := by
  rw [Point.advance]
  split
  · rename_i hsize
    split
    · rename_i hstop
      refine ⟨?_, rfl, by simp only [account, Point.left]; omega⟩
      simp only [account, Point.rest, queueGetWait, if_pos hsize, if_pos hstop]
      rfl
    · rename_i hwait
      refine ⟨?_, rfl, by simp only [account, Point.left]; omega⟩
      simp only [account, Point.rest, queueGetWait, if_pos hsize, if_neg hwait]
      rfl
  · rename_i hsize
    refine ⟨?_, rfl, by simp only [account, Point.left]; omega⟩
    simp only [account, Point.rest, queueGetWait, if_neg hsize, queueGetBody, GetResult.state]
    cases queueGetLoop a a.maxMessagesToGet ⟨s, a.msgBuffer, 0, 0, 0, .success⟩ <;> rfl

/-- A round of the read loop begins by reading the size of the next message. -/
theorem rest_reading {a : GetArgs} {r : GetResult} (rounds : ℕ) (s : Shared)
    (hlimits : r.messagesRead < a.maxMessagesToGet ∧ r.bytesRead < a.maxBytesToGet) :
    (Point.reading a (rounds + 1) r).rest s =
      circularBufferRead s (List.replicate sizeofSizeT 0) 0 sizeofSizeT false >>= fun x =>
        sizedRest a rounds r (sizeT.decode x.2) s := by
  have hopen : (r.state s).messagesRead < a.maxMessagesToGet ∧
      (r.state s).bytesRead < a.maxBytesToGet := hlimits
  simp only [Point.rest]
  rw [queueGetLoop, if_pos hopen, map_bind]
  congr 1
  funext x
  rw [sizedRest]
  dsimp only
  by_cases hsmall : a.msgBufferSize < addSize r.messagesSize (addSize sizeofSizeT (sizeT.decode x.2))
  · have hleft : a.msgBufferSize <
        addSize (r.state s).messagesSize (addSize sizeofSizeT (sizeT.decode x.2)) := hsmall
    rw [if_pos hsmall, if_pos hleft]
    rfl
  · have hleft : ¬a.msgBufferSize <
        addSize (r.state s).messagesSize (addSize sizeofSizeT (sizeT.decode x.2)) := hsmall
    rw [if_neg hsmall, if_neg hleft, map_bind]
    congr 1
    funext _
    rw [map_bind, poppingRest]
    congr 1
    funext x
    obtain ⟨s', msgBuffer⟩ := x
    rw [map_bind]
    congr 1
    funext numElem
    by_cases hlast : s'.queue.size ≤ 0
    · simp only [countedRest, if_pos hlast]
      rfl
    · simp only [countedRest, if_neg hlast]
      rfl

theorem keeps_reading (s : Shared) (a : GetArgs) (rounds : ℕ) (r : GetResult) :
    account.Keeps (.reading a rounds r) s ((Point.reading a rounds r).advance s) := by
  cases rounds with
  | zero => exact ⟨rfl, rfl, by simp only [account, Point.left]; omega⟩
  | succ rounds =>
      rw [Point.advance]
      split
      · rename_i hlimits
        apply keeps_bind (rest_reading rounds s hlimits)
        intro x hrest
        exact ⟨hrest.symm, rfl, by simp only [account, Point.left]; omega⟩
      · rename_i hlimits
        refine ⟨?_, rfl, by simp only [account, Point.left]; omega⟩
        have hclosed : ¬((r.state s).messagesRead < a.maxMessagesToGet ∧
            (r.state s).bytesRead < a.maxBytesToGet) := hlimits
        simp only [account, Point.rest]
        rw [queueGetLoop, if_neg hclosed]
        rfl

theorem keeps_sized (s : Shared) (a : GetArgs) (rounds : ℕ) (r : GetResult) (msgSize : ℕ) :
    account.Keeps (.sized a rounds r msgSize) s ((Point.sized a rounds r msgSize).advance s) := by
  rw [Point.advance]
  split
  · rename_i hsmall
    refine ⟨?_, rfl, by simp only [account, Point.left]; omega⟩
    simp only [account, Point.rest, sizedRest, if_pos hsmall]
  · rename_i hroom
    have hrest : (Point.sized a rounds r msgSize).rest s =
        logAssert (addSize sizeofSizeT msgSize ≤ s.queue.size)
          "Queue size is less than message size!" >>= fun _ =>
            poppingRest a rounds
              { r with messagesSize := addSize r.messagesSize (addSize sizeofSizeT msgSize) }
              (addSize sizeofSizeT msgSize) s := by
      simp only [Point.rest, sizedRest, if_neg hroom]
    apply keeps_bind hrest
    intro _ hrest
    exact ⟨hrest.symm, rfl, by simp only [account, Point.left]; omega⟩

theorem keeps_counted (s : Shared) (a : GetArgs) (rounds : ℕ) (r : GetResult) :
    account.Keeps (.counted a rounds r) s ((Point.counted a rounds r).advance s) := by
  rw [Point.advance]
  split
  · rename_i hsize
    refine ⟨?_, rfl, by simp only [account, Point.left]; omega⟩
    simp only [account, Point.rest, countedRest, if_pos hsize]
  · rename_i hsize
    refine ⟨?_, rfl, by simp only [account, Point.left]; omega⟩
    simp only [account, Point.rest, countedRest, if_neg hsize]

theorem rest_returning (r : Result) (k : Option Cond) (s : Shared) :
    (Point.returning r k).rest s = .ok { shared := s, signalled := k, exit := .returned r } := by
  cases k <;> rfl

theorem left_returning (r : Result) (k : Option Cond) : (Point.returning r k).left ≤ 2 := by
  cases k with
  | some k => exact le_rfl
  | none => exact Nat.le_succ 1

theorem sent_returning (r : Result) (k : Option Cond) : (Point.returning r k).sent = none := by
  cases k <;> rfl

theorem advance_keeps (l : Point) (s : Shared) : account.Keeps l s (l.advance s) := by
  cases l with
  | locked start clock => exact keeps_locked s start clock
  | fitting a waitRemaining now => exact keeps_fitting s a waitRemaining now
  | refused a waitRemaining now => exact keeps_refused s a waitRemaining now
  | waking a waitRemaining now => exact ⟨rfl, ⟨rfl, rfl⟩, Nat.lt_succ_self _⟩
  | header ms =>
      cases ms with
      | nil =>
          refine ⟨rest_returning _ _ s, sent_returning _ _, ?_⟩
          exact (left_returning _ _).trans_lt (Nat.lt_succ_self _)
      | cons m ms =>
          have hrest : (Point.header (m :: ms)).rest s =
              circularBufferWrite s (sizeT.encode m.length) sizeofSizeT >>=
                (Point.payload m ms).rest := by
            simp only [Point.rest, writeMessages, map_bind]
            rfl
          apply keeps_bind hrest
          intro s' hrest
          exact ⟨hrest.symm, rfl, by simp only [account, Point.left, List.length_cons]; omega⟩
  | payload m ms =>
      have hrest : (Point.payload m ms).rest s =
          circularBufferWrite s m m.length >>= (Point.counting ms).rest := rfl
      apply keeps_bind hrest
      intro s' hrest
      exact ⟨hrest.symm, rfl, by simp only [account, Point.left]; omega⟩
  | counting ms => exact ⟨rfl, rfl, by simp only [account, Point.left]; omega⟩
  | waiting a waitRemaining now => exact keeps_waiting s a waitRemaining now
  | reading a rounds r => exact keeps_reading s a rounds r
  | sized a rounds r msgSize => exact keeps_sized s a rounds r msgSize
  | popping a rounds r readNumBytes =>
      have hrest : (Point.popping a rounds r readNumBytes).rest s =
          circularBufferRead s r.msgBuffer r.bytesRead readNumBytes true >>= _ := rfl
      apply keeps_bind hrest
      intro x hrest
      exact ⟨hrest.symm, rfl, by simp only [account, Point.left]; omega⟩
  | popped a rounds r =>
      have hrest : (Point.popped a rounds r).rest s = checkedSub s.queue.numElem 1 >>= _ := rfl
      apply keeps_bind hrest
      intro numElem hrest
      exact ⟨hrest.symm, rfl, by simp only [account, Point.left]; omega⟩
  | counted a rounds r => exact keeps_counted s a rounds r
  | finished r =>
      refine ⟨rest_returning _ _ s, sent_returning _ _, ?_⟩
      exact (left_returning _ _).trans_lt (Nat.lt_succ_self _)
  | signalling k r => exact ⟨rfl, ⟨rfl, rfl⟩, Nat.lt_succ_self _⟩
  | sleeping signalled c waitRemaining now => exact ⟨rfl, rfl, Nat.lt_succ_self _⟩
  | leaving signalled exit => exact ⟨rfl, rfl⟩

theorem code_implements : Implements code program account where
  cond := rfl
  begins _ _ _ := rfl
  silent _ _ := rfl
  keeps := advance_keeps

end Rest

section Runs
variable {T : Type} [DecidableEq T] {M N : ℕ} {buffer : Bytes}

/-- Run access by access under the mutex, the calls do exactly what they do section by section:
the same sections with the same outcomes, and the same queue and the same threads waiting whenever
the mutex is free. A signal given before the release wakes a thread that the section found asleep. -/
theorem sections_atomic :
    (∀ (ticks : List (Move (FineSystem T) (FineEvent T))) (w : FineSystem T),
      Trace (FineStep code) (System.init T M N buffer).unlocked ticks w →
      ∃ moves v, Trace (Step program) (System.init T M N buffer) moves v ∧
        moves.map Move.label = ticks.flatMap (fun m => m.label.labels) ∧
        (w.holder = none → v.phase = w.phase ∧ v.shared = w.shared) ∧
        ∀ h, w.holder = some h →
          Signals program.cond v.phase h.point.sent h.pick w.phase ∧
          h.point.rest w.shared = program.body h.start h.clock v.shared) ∧
    ∀ (moves : List (Move (System T) (Event T))) (v : System T),
      Trace (Step program) (System.init T M N buffer) moves v →
      ∃ ticks : List (Move (FineSystem T) (FineEvent T)),
        Trace (FineStep code) (System.init T M N buffer).unlocked ticks v.unlocked ∧
        ticks.flatMap (fun m => m.label.labels) = moves.map Move.label := by
  constructor
  · intro ticks w htrace
    obtain ⟨moves, v, hv, hlabels, hmirrors⟩ := atomic_of_fine code_implements htrace
    exact ⟨moves, v, hv, hlabels, hmirrors.free, fun h hholds => (hmirrors.held h hholds).2⟩
  · intro moves v htrace
    exact fine_of_atomic code_implements htrace

end Runs
end FasterFifo
