import FasterFifo.Queue
import FasterFifo.Library.Monitor

/-! The two calls, one critical section at a time. A section runs from taking the mutex to giving it
up, on return or inside `wait`; it is a function of the shared state, the call and the clock. -/
namespace FasterFifo
open CheckedMemory Monitor

inductive Status where
  | success
  | empty
  | full
  | msgBufferTooSmall
  deriving DecidableEq, Repr

def Status.code : Status → ℤ
  | .success => 0
  | .empty => -1
  | .full => -2
  | .msgBufferTooSmall => -3

/-- The arguments of `queue_put`; `msg_sizes[i]` is the length of the i-th message
and `timeout` the number of microseconds waited for. -/
structure PutArgs where
  msgs : List Bytes
  block : Bool
  timeout : ℕ
  deriving DecidableEq, Repr

def PutArgs.msgSizes (a : PutArgs) : List ℕ := a.msgs.map List.length

/-- The arguments of `queue_get`; `msg_buffer_size` is the length of the receive buffer. -/
structure GetArgs where
  msgBuffer : Bytes
  maxMessagesToGet : ℕ
  maxBytesToGet : ℕ
  block : Bool
  timeout : ℕ
  deriving DecidableEq, Repr

def GetArgs.msgBufferSize (a : GetArgs) : ℕ := a.msgBuffer.length

/-- What `queue_get` leaves behind its out-parameters and in the receive buffer. -/
structure GetResult where
  status : Status
  messagesRead : ℕ
  bytesRead : ℕ
  messagesSize : ℕ
  msgBuffer : Bytes
  deriving DecidableEq, Repr

inductive Call where
  | put (a : PutArgs)
  | get (a : GetArgs)
  deriving DecidableEq, Repr

inductive Result where
  | put (status : Status)
  | get (r : GetResult)
  deriving DecidableEq, Repr

/-- What a thread inside `wait` goes on with: its call and the absolute deadline. -/
structure Request where
  call : Call
  waitUntil : Timeval
  deriving DecidableEq, Repr

abbrev Section := Outcome Shared Cond Request Result

/-- The readings of `gettimeofday` in one section: on waking, and on going to wait. -/
structure Clock where
  woke : Timeval
  now : Timeval
  deriving DecidableEq, Repr

def Shared.addWaiter (s : Shared) (c : Cond) (d : ℤ) : Shared :=
  { s with queue := s.queue.addWaiter c d }

def Call.cond : Call → Cond
  | .put _ => .notFull
  | .get _ => .notEmpty

def Call.timeout : Call → ℕ
  | .put a => a.timeout
  | .get a => a.timeout

def Call.block : Call → Bool
  | .put a => a.block
  | .get a => a.block

def Result.status : Result → Status
  | .put status => status
  | .get r => r.status

/-- `wait` up to the point where `pthread_cond_timedwait` releases the mutex. -/
def beginWait (s : Shared) (c : Call) (signalled : Option Cond) (waitTime now : Timeval) :
    Section where
  shared := s.addWaiter c.cond 1
  signalled := signalled
  exit := .waiting ⟨c, timeradd now waitTime⟩

/-- `total_size`, accumulated in `size_t`. -/
def totalSize (msgSizes : List ℕ) : ℕ :=
  msgSizes.foldl addSize (mulSize msgSizes.length sizeofSizeT)

def writeMessages (s : Shared) : List Bytes → Except Fault Shared
  | [] => .ok s
  | m :: ms => do
      let s ← circularBufferWrite s (sizeT.encode m.length) sizeofSizeT
      let s ← circularBufferWrite s m m.length
      writeMessages { s with queue := { s.queue with numElem := addSize s.queue.numElem 1 } } ms

/-- Consumers first; in the case of many producers and one batched consumer,
producers wake each other up. -/
def Queue.signalAfterPut (q : Queue) : Option Cond :=
  if q.notEmptyNWaiters > 0 then some .notEmpty
  else if q.notFullNWaiters ≠ 0 ∧ q.canFit minMsgSize 1 then some .notFull
  else none

/-- `queue_put` from its `while` on. -/
def queuePutLoop (s : Shared) (a : PutArgs) (waitRemaining now : Timeval) : Except Fault Section :=
  if s.queue.canFit (totalSize a.msgSizes) a.msgs.length then do
    let s ← writeMessages s a.msgs
    pure { shared := s, signalled := s.queue.signalAfterPut, exit := .returned (.put .success) }
  else if !a.block || !timerPositive waitRemaining then
    pure { shared := s, signalled := none, exit := .returned (.put .full) }
  else
    -- if there are any consumers waiting, wake them up
    let signalled := if s.queue.notEmptyNWaiters > 0 then some Cond.notEmpty else none
    pure (beginWait s (.put a) signalled waitRemaining now)

@[ext] structure GetState where
  shared : Shared
  msgBuffer : Bytes
  messagesRead : ℕ
  bytesRead : ℕ
  messagesSize : ℕ
  status : Status
  deriving DecidableEq, Repr

/-- The read loop. Every round counts a message, so `max_messages_to_get` rounds
are enough for the loop condition to fail. -/
def queueGetLoop (a : GetArgs) : ℕ → GetState → Except Fault GetState
  | 0, st => .ok st
  | fuel+1, st =>
      if st.messagesRead < a.maxMessagesToGet ∧ st.bytesRead < a.maxBytesToGet then do
        let (_, header) ←
          circularBufferRead st.shared (List.replicate sizeofSizeT 0) 0 sizeofSizeT false
        let readNumBytes := addSize sizeofSizeT (sizeT.decode header)
        let messagesSize := addSize st.messagesSize readNumBytes
        if a.msgBufferSize < messagesSize then
          pure { st with messagesSize := messagesSize, status := .msgBufferTooSmall }
        else do
          logAssert (readNumBytes ≤ st.shared.queue.size) "Queue size is less than message size!"
          let (s, msgBuffer) ←
            circularBufferRead st.shared st.msgBuffer st.bytesRead readNumBytes true
          let numElem ← checkedSub s.queue.numElem 1
          let st' : GetState :=
            { shared := { s with queue := { s.queue with numElem := numElem } }
              msgBuffer := msgBuffer
              messagesRead := addSize st.messagesRead 1
              bytesRead := addSize st.bytesRead readNumBytes
              messagesSize := messagesSize
              status := st.status }
          if st'.shared.queue.size ≤ 0 then pure st' else queueGetLoop a fuel st'
      else pure st

/-- Producers first when anything was read; in the case of many consumers and a
single batched producer, consumers wake each other up. -/
def Queue.signalAfterGet (q : Queue) (messagesRead : ℕ) : Option Cond :=
  if messagesRead > 0 ∧ q.notFullNWaiters > 0 then some .notFull
  else if q.size > 0 ∧ q.notEmptyNWaiters > 0 then some .notEmpty
  else none

def GetState.result (st : GetState) : GetResult :=
  ⟨st.status, st.messagesRead, st.bytesRead, st.messagesSize, st.msgBuffer⟩

/-- `queue_get` after the emptiness check has passed. -/
def queueGetBody (s : Shared) (a : GetArgs) : Except Fault Section := do
  let st ← queueGetLoop a a.maxMessagesToGet ⟨s, a.msgBuffer, 0, 0, 0, .success⟩
  pure { shared := st.shared
         signalled := st.shared.queue.signalAfterGet st.messagesRead
         exit := .returned (.get st.result) }

/-- `queue_get` from its `while` on. -/
def queueGetWait (s : Shared) (a : GetArgs) (waitRemaining now : Timeval) : Except Fault Section :=
  if s.queue.size ≤ 0 then
    if !a.block || !timerPositive waitRemaining then
      pure { shared := s, signalled := none,
             exit := .returned (.get ⟨.empty, 0, 0, 0, a.msgBuffer⟩) }
    else pure (beginWait s (.get a) none waitRemaining now)
  else queueGetBody s a

/-- The part of a call that runs whenever the mutex has been acquired. -/
def Call.loop (s : Shared) (waitRemaining now : Timeval) : Call → Except Fault Section
  | .put a => queuePutLoop s a waitRemaining now
  | .get a => queueGetWait s a waitRemaining now

/-- The first section of a call. -/
def Call.enter (c : Call) (s : Shared) (clock : Clock) : Except Fault Section :=
  c.loop s (floatSecondsToTimeval c.timeout) clock.now

/-- The section that begins when `pthread_cond_timedwait` gives the mutex back. -/
def Request.resume (r : Request) (s : Shared) (clock : Clock) : Except Fault Section :=
  r.call.loop (s.addWaiter r.call.cond (-1)) (timersub r.waitUntil clock.woke) clock.now

/-- The queue as a monitor: the calls, section by section. -/
def program : Program Shared Cond Call Request Clock Result Fault where
  cond r := r.call.cond
  body
    | .enter c, clock, s => c.enter s clock
    | .resume r, clock, s => r.resume s clock

end FasterFifo
