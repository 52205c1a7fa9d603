import FasterFifo.Machine
import FasterFifo.Library.CheckedMemory

/-! The fields of the C++ object, less the mutex and the condition variables, which are modelled by
the threads. A ring operation stops with a fault where the C++ one would copy outside a block,
subtract below zero or fail a `LOG_ASSERT`. -/
namespace FasterFifo
open CheckedMemory

inductive Cond where
  | notEmpty
  | notFull
  deriving DecidableEq, Repr

structure Queue where
  maxSizeBytes : ℕ
  maxsize : ℕ
  head : ℕ
  tail : ℕ
  size : ℕ
  numElem : ℕ
  notEmptyNWaiters : ℤ
  notFullNWaiters : ℤ
  deriving DecidableEq, Repr

def createQueue (maxSizeBytes maxsize : ℕ) : Queue where
  maxSizeBytes := maxSizeBytes
  maxsize := maxsize
  head := 0
  tail := 0
  size := 0
  numElem := 0
  notEmptyNWaiters := 0
  notFullNWaiters := 0

/-- `MIN_MSG_SIZE`: eight bytes for the size and one for the minimal message. -/
def minMsgSize : ℕ := sizeofSizeT + 1

def Queue.canFit (q : Queue) (dataSize additionalSize : ℕ) : Bool :=
  decide (addSize q.size dataSize ≤ q.maxSizeBytes) &&
    decide (addSize q.numElem additionalSize ≤ q.maxsize)

def Queue.waiters (q : Queue) : Cond → ℤ
  | .notEmpty => q.notEmptyNWaiters
  | .notFull => q.notFullNWaiters

def Queue.addWaiter (q : Queue) (c : Cond) (d : ℤ) : Queue :=
  match c with
  | .notEmpty => { q with notEmptyNWaiters := q.notEmptyNWaiters + d }
  | .notFull => { q with notFullNWaiters := q.notFullNWaiters + d }

/-- The queue object together with the circular buffer. -/
structure Shared where
  queue : Queue
  buffer : Bytes
  deriving DecidableEq, Repr

/-- This function does not check if there is enough space in the circular buffer. -/
def circularBufferWrite (s : Shared) (data : Bytes) (dataSize : ℕ) : Except Fault Shared := do
  let q := s.queue
  let (buffer, tail) ←
    if addSize q.tail dataSize < q.maxSizeBytes then do
      let buffer ← memcpy s.buffer q.tail data 0 dataSize
      pure (buffer, addSize q.tail dataSize)
    else do
      let beforeWrap ← checkedSub q.maxSizeBytes q.tail
      let afterWrap ← checkedSub dataSize beforeWrap
      let buffer ← memcpy s.buffer q.tail data 0 beforeWrap
      let buffer ← memcpy buffer 0 data beforeWrap afterWrap
      pure (buffer, afterWrap)
  let size := addSize q.size dataSize
  logAssert (size ≤ q.maxSizeBytes) "Combined message size exceeds the size of the queue"
  logAssert (tail < q.maxSizeBytes) "Tail pointer points past the buffer boundary"
  pure { queue := { q with tail := tail, size := size }, buffer := buffer }

/-- Copies `readSize` bytes from the head to offset `off` of `data`. -/
def circularBufferRead (s : Shared) (data : Bytes) (off readSize : ℕ) (popMessage : Bool) :
    Except Fault (Shared × Bytes) := do
  let q := s.queue
  let (data, newHead) ←
    if addSize q.head readSize < q.maxSizeBytes then do
      let data ← memcpy data off s.buffer q.head readSize
      pure (data, addSize q.head readSize)
    else do
      let beforeWrap ← checkedSub q.maxSizeBytes q.head
      let afterWrap ← checkedSub readSize beforeWrap
      let data ← memcpy data off s.buffer q.head beforeWrap
      let data ← memcpy data (off + beforeWrap) s.buffer 0 afterWrap
      pure (data, afterWrap)
  let newSize ← checkedSub q.size readSize
  logAssert (newHead < q.maxSizeBytes) "Circular buffer head pointer is incorrect"
  logAssert (0 ≤ newSize ∧ newSize ≤ q.maxSizeBytes)
    "New size is incorrect after reading from buffer"
  if popMessage then
    pure ({ s with queue := { q with head := newHead, size := newSize } }, data)
  else pure (s, data)

def getQueueSize (s : Shared) : ℕ := s.queue.numElem

def getDataSize (s : Shared) : ℕ := s.queue.size

def isQueueFull (s : Shared) : Bool :=
  let minMessageSize := 1
  let minMessagesCount := 1
  !s.queue.canFit (addSize minMessageSize sizeofSizeT) minMessagesCount

end FasterFifo
