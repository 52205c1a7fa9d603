import FasterFifo.Library.Framing
import Mathlib.Algebra.Order.Group.Int

/-! `size_t` values are naturals; sums and products are reduced modulo 2^64 where the code forms
them, and subtractions are checked where it relies on them not to wrap. A `timeval` is a pair of
integers. -/
namespace FasterFifo
open Framing

abbrev Bytes := List UInt8

def sizeModulus : ℕ := 2 ^ 64

def addSize (a b : ℕ) : ℕ := (a + b) % sizeModulus

def mulSize (a b : ℕ) : ℕ := (a * b) % sizeModulus

def sizeofSizeT : ℕ := 8

/-- The bytes of a `size_t` in memory, on both sides of the language boundary. -/
def sizeT : HeaderCodec UInt8 := littleEndian sizeofSizeT

theorem sizeT_bound : sizeT.bound = sizeModulus := by decide

theorem addSize_eq {a b : ℕ} (h : a + b < sizeModulus) : addSize a b = a + b :=
  Nat.mod_eq_of_lt h

structure Timeval where
  sec : ℤ
  usec : ℤ
  deriving DecidableEq, Repr

structure Timespec where
  sec : ℤ
  nsec : ℤ
  deriving DecidableEq, Repr

def million : ℕ := 1000000

/-- `waitUs` is the value of `uint64_t(seconds * million)`. -/
def floatSecondsToTimeval (waitUs : ℕ) : Timeval := ⟨(waitUs / million : ℕ), (waitUs % million : ℕ)⟩

def timeradd (a b : Timeval) : Timeval :=
  if a.usec + b.usec ≥ 1000000 then ⟨a.sec + b.sec + 1, a.usec + b.usec - 1000000⟩
  else ⟨a.sec + b.sec, a.usec + b.usec⟩

def timersub (a b : Timeval) : Timeval :=
  if a.usec - b.usec < 0 then ⟨a.sec - b.sec - 1, a.usec - b.usec + 1000000⟩
  else ⟨a.sec - b.sec, a.usec - b.usec⟩

def timerPositive (timer : Timeval) : Bool :=
  decide (timer.sec > 0) || (decide (timer.sec = 0) && decide (timer.usec > 0))

/-- The absolute deadline for `pthread_cond_timedwait`; the product is formed in an
unsigned long and read back as a signed one. -/
def Timeval.waitUntilTs (waitUntil : Timeval) : Timespec :=
  ⟨waitUntil.sec, (waitUntil.usec * 1000).bmod sizeModulus⟩

end FasterFifo
