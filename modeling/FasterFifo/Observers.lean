import FasterFifo.Locking
import FasterFifo.Contracts

/-! `qsize`, `data_size`, `empty` and `full` take no lock. Under the mutex a put only adds to what
they read and a get only takes away, so they answer for the queue as the section in progress found
it or will leave it. -/
namespace FasterFifo
open CheckedMemory Transition Monitor
open BoundedFifo (total total_cons)

/-- `empty()`. -/
def empty (s : Shared) : Bool := decide (getQueueSize s = 0)

/-- `full()`: `can_fit` reads `size` in the first state and `num_elem` in the second. -/
def full (first second : Shared) : Bool :=
  let minMessageSize := 1
  let minMessagesCount := 1
  let condSize := decide (addSize first.queue.size (addSize minMessageSize sizeofSizeT) ≤
    first.queue.maxSizeBytes)
  let condNum := decide (addSize second.queue.numElem minMessagesCount ≤ second.queue.maxsize)
  !(condSize && condNum)

theorem full_self (s : Shared) : full s s = isQueueFull s := rfl

section Fields

/-- No more bytes and no more messages. -/
structure Below (s s' : Shared) : Prop where
  size : s.queue.size ≤ s'.queue.size
  numElem : s.queue.numElem ≤ s'.queue.numElem

theorem Below.refl (s : Shared) : Below s s := ⟨le_rfl, le_rfl⟩

theorem Below.trans {s s' s'' : Shared} (h : Below s s') (k : Below s' s'') : Below s s'' :=
  ⟨h.size.trans k.size, h.numElem.trans k.numElem⟩

/-- A put adds, a get takes away. -/
def Along (puts : Bool) (s s' : Shared) : Prop := if puts then Below s s' else Below s' s

theorem Along.refl (puts : Bool) (s : Shared) : Along puts s s := by
  cases puts <;> exact Below.refl s

theorem Along.trans {puts : Bool} {s s' s'' : Shared} (h : Along puts s s')
    (k : Along puts s' s'') : Along puts s s'' := by
  cases puts with
  | false => exact Below.trans k h
  | true => exact Below.trans h k

/-- The same limits. -/
def SameLimits (s s' : Shared) : Prop :=
  s'.queue.maxSizeBytes = s.queue.maxSizeBytes ∧ s'.queue.maxsize = s.queue.maxsize

theorem circularBufferWrite_fields (s : Shared) (data : Bytes) (n : ℕ) :
    Yields (fun s' => SameLimits s s' ∧ s'.queue.size = addSize s.queue.size n ∧
      s'.queue.numElem = s.queue.numElem) (circularBufferWrite s data n) := by
  unfold circularBufferWrite
  dsimp only
  split
  all_goals
    repeat refine Yields.after fun _ => ?_
    exact Yields.ok ⟨⟨rfl, rfl⟩, rfl, rfl⟩

theorem circularBufferRead_fields (s : Shared) (data : Bytes) (off n : ℕ) (pop : Bool) :
    Yields (fun r => SameLimits s r.1 ∧ r.1.queue.size ≤ s.queue.size ∧
      r.1.queue.numElem = s.queue.numElem) (circularBufferRead s data off n pop) := by
  have hless : Yields (· ≤ s.queue.size) (checkedSub s.queue.size n) := by
    intro newSize h
    unfold checkedSub at h
    split at h <;> cases h
    exact Nat.sub_le _ _
  unfold circularBufferRead
  dsimp only
  split
  · refine Yields.after fun _ => Yields.after fun _ => Yields.bind hless fun newSize hsize => ?_
    refine Yields.after fun _ => Yields.after fun _ => ?_
    split
    · exact Yields.ok ⟨⟨rfl, rfl⟩, hsize, rfl⟩
    · exact Yields.ok ⟨⟨rfl, rfl⟩, le_rfl, rfl⟩
  · refine Yields.after fun _ => Yields.after fun _ => Yields.after fun _ => Yields.after fun _ => ?_
    refine Yields.after fun _ => Yields.bind hless fun newSize hsize => ?_
    refine Yields.after fun _ => Yields.after fun _ => ?_
    split
    · exact Yields.ok ⟨⟨rfl, rfl⟩, hsize, rfl⟩
    · exact Yields.ok ⟨⟨rfl, rfl⟩, le_rfl, rfl⟩

theorem addWaiter_fields (s : Shared) (c : Cond) (d : ℤ) :
    SameLimits s (s.addWaiter c d) ∧ (s.addWaiter c d).queue.size = s.queue.size ∧
      (s.addWaiter c d).queue.numElem = s.queue.numElem := by
  cases c <;> exact ⟨⟨rfl, rfl⟩, rfl, rfl⟩

theorem startShared_fields (start : Start Call Request) (s : Shared) :
    SameLimits s (startShared start s) ∧ (startShared start s).queue.size = s.queue.size ∧
      (startShared start s).queue.numElem = s.queue.numElem := by
  cases start with
  | enter c => exact ⟨⟨rfl, rfl⟩, rfl, rfl⟩
  | resume r => exact addWaiter_fields s r.call.cond (-1)

end Fields

section Points

def Call.puts : Call → Bool
  | .put _ => true
  | .get _ => false

def Result.puts : Result → Bool
  | .put _ => true
  | .get _ => false

/-- The point is one of `queue_put`. -/
def Point.puts : Point → Bool
  | .locked start _ => (startCall start).puts
  | .fitting _ _ _ | .refused _ _ _ | .waking _ _ _ => true
  | .header _ | .payload _ _ | .counting _ => true
  | .waiting _ _ _ | .reading _ _ _ | .sized _ _ _ _ | .popping _ _ _ _ => false
  | .popped _ _ _ | .counted _ _ _ | .finished _ => false
  | .signalling _ r => r.puts
  | .sleeping _ c _ _ => c.puts
  | .leaving _ (.returned r) => r.puts
  | .leaving _ (.waiting r) => r.call.puts

/-- The batch whose room has not been checked yet. -/
def Point.batch : Point → Option PutArgs
  | .locked start _ =>
      match startCall start with
      | .put a => some a
      | .get _ => none
  | .fitting a _ _ => some a
  | _ => none

/-- The bytes that a put has still to add. -/
def Point.owedBytes : Point → ℕ
  | .header ms => total msgWeight ms
  | .payload m ms => m.length + total msgWeight ms
  | .counting ms => total msgWeight ms
  | _ => 0

/-- The messages that a put has still to count. -/
def Point.owedMessages : Point → ℕ
  | .header ms => ms.length
  | .payload _ ms => ms.length + 1
  | .counting ms => ms.length + 1
  | _ => 0

/-- Room for more bytes and messages, in sums that do not wrap. -/
structure Shared.Room (M N : ℕ) (s : Shared) (bytes messages : ℕ) : Prop where
  size_le : s.queue.size + bytes ≤ M
  numElem_le : s.queue.numElem + messages ≤ N
  numElem_lt : s.queue.numElem + messages < 2 ^ 63

/-- What a put still owes has room, and so has a batch that passes the check. -/
structure Point.Ready (M N : ℕ) (l : Point) (s : Shared) : Prop where
  capacity_le : M ≤ 2 ^ 63
  limits : s.queue.maxSizeBytes = M ∧ s.queue.maxsize = N
  room : s.Room M N l.owedBytes l.owedMessages
  batch : ∀ a, l.batch = some a →
    s.queue.canFit (totalSize a.msgSizes) a.msgs.length = true →
    s.Room M N (total msgWeight a.msgs) a.msgs.length

variable {M N : ℕ} {l l' : Point} {s s' : Shared} {o : Section}

theorem Point.Ready.next (h : l.Ready M N s) (hlimits : SameLimits s s')
    (hsize : s'.queue.size + l'.owedBytes ≤ s.queue.size + l.owedBytes)
    (hnum : s'.queue.numElem + l'.owedMessages ≤ s.queue.numElem + l.owedMessages)
    (hbatch : l'.batch = none) : l'.Ready M N s' where
  capacity_le := h.capacity_le
  limits := ⟨hlimits.1.trans h.limits.1, hlimits.2.trans h.limits.2⟩
  room := ⟨hsize.trans h.room.size_le, hnum.trans h.room.numElem_le,
    hnum.trans_lt h.room.numElem_lt⟩
  batch := by
    intro a ha
    rw [hbatch] at ha
    cases ha

/-- The point owes nothing and has no room to check. -/
structure Point.Quiet (l : Point) : Prop where
  bytes : l.owedBytes = 0
  messages : l.owedMessages = 0
  batch : l.batch = none

theorem Point.Ready.quiet (h : l.Ready M N s) (hl' : l'.Quiet) (hlimits : SameLimits s s')
    (hsize : s'.queue.size ≤ s.queue.size) (hnum : s'.queue.numElem ≤ s.queue.numElem) :
    l'.Ready M N s' := by
  refine h.next hlimits ?_ ?_ hl'.batch
  · rw [hl'.bytes]
    exact hsize.trans (Nat.le_add_right _ _)
  · rw [hl'.messages]
    exact hnum.trans (Nat.le_add_right _ _)

theorem Point.Ready.still (h : l.Ready M N s) (hl' : l'.Quiet) : l'.Ready M N s :=
  h.quiet hl' ⟨rfl, rfl⟩ le_rfl le_rfl

theorem quiet_returning (r : Result) (k : Option Cond) : (Point.returning r k).Quiet := by
  cases k <;> exact ⟨rfl, rfl, rfl⟩

theorem puts_returning (r : Result) (k : Option Cond) : (Point.returning r k).puts = r.puts := by
  cases k <;> rfl

/-- The check of the room that the section is about to make is the one it was ready for. -/
theorem Point.Ready.start {start : Start Call Request} {clock : Clock} {a : PutArgs}
    {waitRemaining now : Timeval} (h : (Point.locked start clock).Ready M N s)
    (hc : startCall start = .put a) :
    (Point.fitting a waitRemaining now).Ready M N (startShared start s) := by
  obtain ⟨hlimits, hsize, hnum⟩ := startShared_fields start s
  constructor
  · exact h.capacity_le
  · exact ⟨hlimits.1.trans h.limits.1, hlimits.2.trans h.limits.2⟩
  · constructor
    · exact (congrArg (· + 0) hsize).trans_le h.room.size_le
    · exact (congrArg (· + 0) hnum).trans_le h.room.numElem_le
    · exact (congrArg (· + 0) hnum).trans_lt h.room.numElem_lt
  · rintro b ⟨⟩ hfit
    rw [startShared_canFit] at hfit
    have hbatch := h.batch a (by simp only [Point.batch, hc]) hfit
    constructor
    · rw [hsize]
      exact hbatch.size_le
    · rw [hnum]
      exact hbatch.numElem_le
    · rw [hnum]
      exact hbatch.numElem_lt

/-- A ring write pays for the bytes it adds. -/
theorem Point.Ready.write {data : Bytes} {n : ℕ} (h : l.Ready M N s) (l' : Point)
    (hwrite : circularBufferWrite s data n = .ok s') (hbytes : l.owedBytes = n + l'.owedBytes)
    (hmessages : l.owedMessages = l'.owedMessages) (hbatch : l'.batch = none) :
    l'.Ready M N s' ∧ Below s s' := by
  obtain ⟨hlimits, hsize, hnum⟩ := circularBufferWrite_fields s _ _ _ hwrite
  have hcap := h.capacity_le
  have hsum := h.room.size_le
  rw [addSize_eq (by simp only [sizeModulus]; omega)] at hsize
  exact ⟨h.next hlimits (by omega) (by omega) hbatch, ⟨by omega, hnum.ge⟩⟩

/-- A step inside a section of `queue_put` pays for one field of what it owes. -/
theorem put_more (h : l.Ready M N s) (hputs : l.puts = true)
    (hmore : l.advance s = .ok (.more l' s')) :
    l'.Ready M N s' ∧ l'.puts = true ∧ Below s s' := by
  have hroom := h.room
  cases l with
  | locked start clock =>
      simp only [Point.puts] at hputs
      simp only [Point.advance] at hmore
      cases hc : startCall start with
      | get a =>
          rw [hc] at hputs
          cases hputs
      | put a =>
          rw [hc] at hmore
          cases hmore
          obtain ⟨-, hsize, hnum⟩ := startShared_fields start s
          exact ⟨h.start hc, rfl, ⟨hsize.ge, hnum.ge⟩⟩
  | fitting a waitRemaining now =>
      simp only [Point.advance] at hmore
      split at hmore
      · rename_i hfit
        cases hmore
        refine ⟨⟨h.capacity_le, h.limits, h.batch a rfl hfit, ?_⟩, rfl, Below.refl s⟩
        intro b hb
        cases hb
      · split at hmore <;> cases hmore <;>
          exact ⟨h.still ⟨rfl, rfl, rfl⟩, rfl, Below.refl s⟩
  | refused a waitRemaining now =>
      simp only [Point.advance] at hmore
      split at hmore <;> cases hmore <;>
        exact ⟨h.still ⟨rfl, rfl, rfl⟩, rfl, Below.refl s⟩
  | waking a waitRemaining now => cases hmore
  | header ms =>
      cases ms with
      | nil =>
          cases hmore
          exact ⟨h.still (quiet_returning _ _), puts_returning _ _, Below.refl s⟩
      | cons m ms =>
          obtain ⟨s₁, hwrite, hpure⟩ := bind_eq_ok.mp hmore
          cases hpure
          have hbytes : (Point.header (m :: ms)).owedBytes =
              sizeofSizeT + (Point.payload m ms).owedBytes := by
            simp only [Point.owedBytes, total_cons, msgWeight]
            omega
          obtain ⟨hready, hbelow⟩ := h.write (.payload m ms) hwrite hbytes rfl rfl
          exact ⟨hready, rfl, hbelow⟩
  | payload m ms =>
      obtain ⟨s₁, hwrite, hpure⟩ := bind_eq_ok.mp hmore
      cases hpure
      obtain ⟨hready, hbelow⟩ := h.write (.counting ms) hwrite rfl rfl rfl
      exact ⟨hready, rfl, hbelow⟩
  | counting ms =>
      cases hmore
      have hsum := hroom.numElem_lt
      simp only [Point.owedMessages] at hsum
      have hnum : s.counted.queue.numElem = s.queue.numElem + 1 :=
        addSize_eq (by simp only [sizeModulus]; omega)
      refine ⟨h.next ⟨rfl, rfl⟩ le_rfl ?_ rfl, rfl, ⟨le_rfl, by omega⟩⟩
      simp only [Point.owedMessages]
      omega
  | waiting a waitRemaining now => cases hputs
  | reading a rounds r => cases hputs
  | sized a rounds r msgSize => cases hputs
  | popping a rounds r readNumBytes => cases hputs
  | popped a rounds r => cases hputs
  | counted a rounds r => cases hputs
  | finished r => cases hputs
  | signalling k r => cases hmore
  | sleeping signalled c waitRemaining now =>
      cases hmore
      obtain ⟨hlimits, hsize, hnum⟩ := addWaiter_fields s c.cond 1
      exact ⟨h.quiet ⟨rfl, rfl, rfl⟩ hlimits hsize.le hnum.le, hputs, ⟨hsize.ge, hnum.ge⟩⟩
  | leaving signalled exit => cases hmore

/-- A step inside a section of `queue_get` only takes away. -/
theorem get_more (h : l.Ready M N s) (hputs : l.puts = false)
    (hmore : l.advance s = .ok (.more l' s')) :
    l'.Ready M N s' ∧ l'.puts = false ∧ Below s' s := by
  cases l with
  | locked start clock =>
      simp only [Point.puts] at hputs
      simp only [Point.advance] at hmore
      obtain ⟨hlimits, hsize, hnum⟩ := startShared_fields start s
      cases hc : startCall start with
      | put a =>
          rw [hc] at hputs
          cases hputs
      | get a =>
          rw [hc] at hmore
          cases hmore
          exact ⟨h.quiet ⟨rfl, rfl, rfl⟩ hlimits hsize.le hnum.le, rfl, ⟨hsize.le, hnum.le⟩⟩
  | fitting a waitRemaining now => cases hputs
  | refused a waitRemaining now => cases hputs
  | waking a waitRemaining now => cases hputs
  | header ms => cases hputs
  | payload m ms => cases hputs
  | counting ms => cases hputs
  | waiting a waitRemaining now =>
      simp only [Point.advance] at hmore
      split at hmore
      · split at hmore <;> cases hmore <;> exact ⟨h.still ⟨rfl, rfl, rfl⟩, rfl, Below.refl s⟩
      · cases hmore
        exact ⟨h.still ⟨rfl, rfl, rfl⟩, rfl, Below.refl s⟩
  | reading a rounds r =>
      cases rounds with
      | zero =>
          cases hmore
          exact ⟨h.still ⟨rfl, rfl, rfl⟩, rfl, Below.refl s⟩
      | succ rounds =>
          simp only [Point.advance] at hmore
          split at hmore
          · obtain ⟨x, -, hpure⟩ := bind_eq_ok.mp hmore
            cases hpure
            exact ⟨h.still ⟨rfl, rfl, rfl⟩, rfl, Below.refl s⟩
          · cases hmore
            exact ⟨h.still ⟨rfl, rfl, rfl⟩, rfl, Below.refl s⟩
  | sized a rounds r msgSize =>
      simp only [Point.advance] at hmore
      split at hmore
      · cases hmore
        exact ⟨h.still ⟨rfl, rfl, rfl⟩, rfl, Below.refl s⟩
      · obtain ⟨_, -, hpure⟩ := bind_eq_ok.mp hmore
        cases hpure
        exact ⟨h.still ⟨rfl, rfl, rfl⟩, rfl, Below.refl s⟩
  | popping a rounds r readNumBytes =>
      obtain ⟨x, hread, hpure⟩ := bind_eq_ok.mp hmore
      cases hpure
      obtain ⟨hlimits, hsize, hnum⟩ := circularBufferRead_fields s _ _ _ _ _ hread
      exact ⟨h.quiet ⟨rfl, rfl, rfl⟩ hlimits hsize hnum.le, rfl, ⟨hsize, hnum.le⟩⟩
  | popped a rounds r =>
      obtain ⟨numElem, hcount, hpure⟩ := bind_eq_ok.mp hmore
      cases hpure
      have hnum : numElem ≤ s.queue.numElem := by
        unfold checkedSub at hcount
        split at hcount <;> cases hcount
        exact Nat.sub_le _ _
      exact ⟨h.quiet ⟨rfl, rfl, rfl⟩ ⟨rfl, rfl⟩ le_rfl hnum, rfl, ⟨le_rfl, hnum⟩⟩
  | counted a rounds r =>
      simp only [Point.advance] at hmore
      split at hmore <;> cases hmore <;>
        exact ⟨h.still ⟨rfl, rfl, rfl⟩, rfl, Below.refl s⟩
  | finished r =>
      cases hmore
      exact ⟨h.still (quiet_returning _ _), puts_returning _ _, Below.refl s⟩
  | signalling k r => cases hmore
  | sleeping signalled c waitRemaining now =>
      cases hmore
      obtain ⟨hlimits, hsize, hnum⟩ := addWaiter_fields s c.cond 1
      exact ⟨h.quiet ⟨rfl, rfl, rfl⟩ hlimits hsize.le hnum.le, hputs, ⟨hsize.le, hnum.le⟩⟩
  | leaving signalled exit => cases hmore

theorem ready_more (h : l.Ready M N s) (hmore : l.advance s = .ok (.more l' s')) :
    l'.Ready M N s' ∧ l'.puts = l.puts ∧ Along l.puts s s' := by
  cases hputs : l.puts with
  | false => exact get_more h hputs hmore
  | true => exact put_more h hputs hmore

theorem advance_inv {a : Advance Point Shared Cond Request Result} (h : l.advance s = .ok a) :
    (∃ l' s', a = .more l' s') ∨
      (∃ k l', a = .signal k l' ∧ l'.Quiet ∧ l'.puts = l.puts) ∨
      ∃ signalled exit, a = .release ⟨s, signalled, exit⟩ := by
  cases l with
  | waking a waitRemaining now =>
      cases h
      exact .inr (.inl ⟨_, _, rfl, ⟨rfl, rfl, rfl⟩, rfl⟩)
  | signalling k r =>
      cases h
      exact .inr (.inl ⟨_, _, rfl, ⟨rfl, rfl, rfl⟩, rfl⟩)
  | leaving signalled exit =>
      cases h
      exact .inr (.inr ⟨_, _, rfl⟩)
  | locked start clock =>
      simp only [Point.advance] at h
      split at h <;> cases h <;> exact .inl ⟨_, _, rfl⟩
  | fitting a waitRemaining now | waiting a waitRemaining now =>
      simp only [Point.advance] at h
      split at h
      all_goals try split at h
      all_goals
        cases h
        exact .inl ⟨_, _, rfl⟩
  | refused a waitRemaining now | counted a rounds r =>
      simp only [Point.advance] at h
      split at h <;> cases h <;> exact .inl ⟨_, _, rfl⟩
  | counting ms | finished r | sleeping signalled c waitRemaining now =>
      cases h
      exact .inl ⟨_, _, rfl⟩
  | header ms =>
      cases ms with
      | nil =>
          cases h
          exact .inl ⟨_, _, rfl⟩
      | cons m ms =>
          obtain ⟨s₁, -, hpure⟩ := bind_eq_ok.mp h
          cases hpure
          exact .inl ⟨_, _, rfl⟩
  | payload m ms =>
      obtain ⟨s₁, -, hpure⟩ := bind_eq_ok.mp h
      cases hpure
      exact .inl ⟨_, _, rfl⟩
  | popping a rounds r readNumBytes =>
      obtain ⟨x, -, hpure⟩ := bind_eq_ok.mp h
      cases hpure
      exact .inl ⟨_, _, rfl⟩
  | popped a rounds r =>
      obtain ⟨numElem, -, hpure⟩ := bind_eq_ok.mp h
      cases hpure
      exact .inl ⟨_, _, rfl⟩
  | reading a rounds r =>
      cases rounds with
      | zero =>
          cases h
          exact .inl ⟨_, _, rfl⟩
      | succ rounds =>
          simp only [Point.advance] at h
          split at h
          · obtain ⟨x, -, hpure⟩ := bind_eq_ok.mp h
            cases hpure
            exact .inl ⟨_, _, rfl⟩
          · cases h
            exact .inl ⟨_, _, rfl⟩
  | sized a rounds r msgSize =>
      simp only [Point.advance] at h
      split at h
      · cases h
        exact .inl ⟨_, _, rfl⟩
      · obtain ⟨_, -, hpure⟩ := bind_eq_ok.mp h
        cases hpure
        exact .inl ⟨_, _, rfl⟩

theorem ready_signal (h : l.Ready M N s) {k : Cond} (hsignal : l.advance s = .ok (.signal k l')) :
    l'.Ready M N s ∧ l'.puts = l.puts := by
  rcases advance_inv hsignal with ⟨_, _, ⟨⟩⟩ | ⟨k, l', ⟨⟩, hquiet, hputs⟩ | ⟨_, _, ⟨⟩⟩
  exact ⟨h.quiet hquiet ⟨rfl, rfl⟩ le_rfl le_rfl, hputs⟩

theorem release_shared (hrelease : l.advance s = .ok (.release o)) : o.shared = s := by
  rcases advance_inv hrelease with ⟨_, _, ⟨⟩⟩ | ⟨_, _, ⟨⟩, -⟩ | ⟨signalled, exit, ⟨⟩⟩
  rfl

theorem Point.Ready.ends (h : l.Ready M N s) (hrest : l.rest s = .ok o) :
    Along l.puts s o.shared := by
  induction hn : l.left using Nat.strong_induction_on generalizing l s with
  | h n ih =>
      subst hn
      cases hadvance : l.advance s with
      | error e => exact (code_implements.not_fault hrest hadvance).elim
      | ok a =>
          cases a with
          | more l' s' =>
              obtain ⟨hkept, -, hless⟩ := code_implements.more hadvance
              obtain ⟨hready, hputs, halong⟩ := ready_more h hadvance
              have hlater := ih l'.left hless hready (hkept.trans hrest) rfl
              rw [hputs] at hlater
              exact halong.trans hlater
          | signal k l' =>
              obtain ⟨hkept, -, hless⟩ := code_implements.signal hadvance
              obtain ⟨hready, hputs⟩ := ready_signal h hadvance
              have hlater := ih l'.left hless hready (hkept.trans hrest) rfl
              rw [hputs] at hlater
              exact hlater
          | release o' =>
              cases hrest.symm.trans (code_implements.release hadvance).1
              rw [release_shared hadvance]
              exact Along.refl _ _

/-- While the queue has no room for another message, only takings are under way. -/
theorem more_of_full (h : l.Ready M N s) (hmore : l.advance s = .ok (.more l' s'))
    (hfull : N < s.queue.numElem + 1) : s'.queue.size ≤ s.queue.size := by
  have hroom := h.room.numElem_le
  cases l with
  | header ms =>
      cases ms with
      | nil =>
          cases hmore
          exact le_rfl
      | cons m ms =>
          simp only [Point.owedMessages, List.length_cons] at hroom
          omega
  | payload m ms =>
      simp only [Point.owedMessages] at hroom
      omega
  | counting ms =>
      simp only [Point.owedMessages] at hroom
      omega
  | locked start clock =>
      simp only [Point.advance] at hmore
      split at hmore <;> cases hmore <;> exact (startShared_fields start s).2.1.le
  | fitting a waitRemaining now =>
      simp only [Point.advance] at hmore
      split at hmore
      · cases hmore
        exact le_rfl
      · split at hmore <;> cases hmore <;> exact le_rfl
  | refused a waitRemaining now =>
      simp only [Point.advance] at hmore
      split at hmore <;> cases hmore <;> exact le_rfl
  | waking a waitRemaining now => cases hmore
  | signalling k r => cases hmore
  | leaving signalled exit => cases hmore
  | sleeping signalled c waitRemaining now =>
      cases hmore
      exact (addWaiter_fields s c.cond 1).2.1.le
  | waiting a waitRemaining now => exact Below.size (get_more h rfl hmore).2.2
  | reading a rounds r => exact Below.size (get_more h rfl hmore).2.2
  | sized a rounds r msgSize => exact Below.size (get_more h rfl hmore).2.2
  | popping a rounds r readNumBytes => exact Below.size (get_more h rfl hmore).2.2
  | popped a rounds r => exact Below.size (get_more h rfl hmore).2.2
  | counted a rounds r => exact Below.size (get_more h rfl hmore).2.2
  | finished r => exact Below.size (get_more h rfl hmore).2.2

theorem Represents.room {f : MessageStore M N} (h : Represents s f) : s.Room M N 0 0 := by
  have hcap := h.capacity_le
  have hsize := h.size_eq
  have hcount := h.numElem_le
  have hweight := f.weight_le
  have hlength := f.count_le
  have hnum := h.numElem_eq
  constructor <;> omega

theorem Represents.ready {f : MessageStore M N} (h : Represents s f) {start : Start Call Request}
    (hbound : (startCall start).Bounded) (clock : Clock) :
    (Point.locked start clock).Ready M N s := by
  constructor
  · exact h.capacity_le
  · exact ⟨h.capacity, h.limit⟩
  · exact h.room
  · intro a ha hfit
    simp only [Point.batch] at ha
    cases hc : startCall start with
    | get b =>
        rw [hc] at ha
        cases ha
    | put b =>
        rw [hc] at ha hbound
        cases ha
        obtain ⟨hbytes, helems⟩ := (fits_iff h a.msgs).mp ((canFit_iff h hbound).mp hfit)
        have hcap := h.capacity_le
        have hcount := h.numElem_le
        have hlen := mul_length_le_weight a.msgs
        rw [sizeofSizeT] at hlen
        exact ⟨hbytes, helems, by omega⟩

end Points

section Runs
variable {T : Type} [DecidableEq T] {M N : ℕ} {buffer : Bytes}
  {ticks more : List (Move (FineSystem T) (FineEvent T))} {w first second : FineSystem T}
  {v : System T} {moves : List (Move (System T) (Event T))} {s : Shared}

def BoundedTick : FineEvent T → Prop
  | .lock _ (.enter c) _ => c.Bounded
  | _ => True

/-- A run access by access, with the bounds of `BoundedRun`. -/
structure FineRun (M N : ℕ) (buffer : Bytes) (ticks : List (Move (FineSystem T) (FineEvent T)))
    (w : FineSystem T) : Prop where
  capacity : M ≤ 2 ^ 63
  length_buffer : buffer.length = M
  trace : Trace (FineStep code) (System.init T M N buffer).unlocked ticks w
  bounded : ∀ m ∈ ticks, BoundedTick m.label

theorem FineRun.append (h : FineRun M N buffer ticks first)
    (hmore : Trace (FineStep code) first more second) (hbounded : ∀ m ∈ more, BoundedTick m.label) :
    FineRun M N buffer (ticks ++ more) second where
  capacity := h.capacity
  length_buffer := h.length_buffer
  trace := h.trace.append hmore
  bounded := by
    intro m hm
    rcases List.mem_append.mp hm with hm | hm
    · exact h.bounded m hm
    · exact hbounded m hm

/-- The queue between sections, and how far the section in progress has come from there. -/
structure Observed (M N : ℕ) (v : System T) (w : FineSystem T) : Prop where
  mirrors : Mirrors program account v w
  held : ∀ h, w.holder = some h → (startCall h.start).Bounded ∧ h.point.Ready M N w.shared ∧
    Along h.point.puts v.shared w.shared

theorem observed_unlocked (v : System T) : Observed M N v v.unlocked where
  mirrors := mirrors_unlocked v
  held := by rintro h ⟨⟩

omit [DecidableEq T] in
theorem boundedEvent_of_call {t : T} {start : Start Call Request} {clock : Clock} {o : Section}
    {pick : Option T} (h : (startCall start).Bounded) :
    BoundedEvent (.crit t start clock o pick) := by
  cases start with
  | enter c => exact h
  | resume r => trivial

/-- A small step moves the queue between sections only at the end of a section. -/
theorem Observed.step (h : Observed M N v w) (hrun : BoundedRun M N buffer moves v)
    {e : FineEvent T} {w' : FineSystem T} (he : BoundedTick e) (hstep : FineStep code w e w') :
    ∃ last v', BoundedRun M N buffer (moves ++ last) v' ∧ last.map Move.label = e.labels ∧
      Observed M N v' w' ∧ (w'.holder ≠ none → v'.shared = v.shared) := by
  obtain ⟨hmirrors, hheld⟩ := h
  obtain ⟨f, hf⟩ := hrun.sound
  cases hstep with
  | @lock t start clock hfree hphase =>
      refine ⟨[], v, by rwa [List.append_nil], rfl, ⟨hmirrors.lock code_implements hfree hphase, ?_⟩,
        fun _ => rfl⟩
      rintro h ⟨⟩
      have hcall : (startCall start).Bounded := by
        cases start with
        | enter c => exact he
        | resume r =>
            rw [← (hmirrors.free hfree).1] at hphase
            exact hf.pending t r (.inr hphase)
      have hsame := (hmirrors.free hfree).2
      refine ⟨hcall, ?_, ?_⟩
      · rw [← hsame]
        exact hf.represents.ready hcall clock
      · rw [hsame]
        exact Along.refl _ _
  | @advance h l s hholds hmore =>
      refine ⟨[], v, by rwa [List.append_nil], rfl,
        ⟨hmirrors.advance code_implements hholds hmore, ?_⟩, fun _ => rfl⟩
      rintro h' ⟨⟩
      obtain ⟨hcall, hready, halong⟩ := hheld h hholds
      obtain ⟨hnext, hputs, hstep⟩ := ready_more hready hmore
      refine ⟨hcall, hnext, ?_⟩
      rw [hputs]
      exact halong.trans hstep
  | @signal h k l pick g hholds hsignal hwakes =>
      refine ⟨[], v, by rwa [List.append_nil], rfl,
        ⟨hmirrors.signal code_implements hholds hsignal hwakes, ?_⟩, fun _ => rfl⟩
      rintro h' ⟨⟩
      obtain ⟨hcall, hready, halong⟩ := hheld h hholds
      obtain ⟨hnext, hputs⟩ := ready_signal hready hsignal
      refine ⟨hcall, hnext, ?_⟩
      rw [hputs]
      exact halong
  | @unlock h o hholds hrelease =>
      have hstep := hmirrors.unlock code_implements hholds hrelease
      have hevent : BoundedEvent (.crit h.thread h.start h.clock o h.pick) :=
        boundedEvent_of_call (hheld h hholds).1
      exact ⟨_, _, hrun.snoc hstep hevent, rfl, observed_unlocked ⟨_, _⟩, fun hne => absurd rfl hne⟩
  | @wake t p hasleep =>
      have hstep : Step program v (.wake t) _ := .wake (hmirrors.asleep hasleep)
      exact ⟨_, _, hrun.snoc hstep trivial, rfl, ⟨hmirrors.wake hasleep, hheld⟩, fun _ => rfl⟩

theorem boundedRun_nil (hM : M ≤ 2 ^ 63) (hlen : buffer.length = M) :
    BoundedRun M N buffer [] (System.init T M N buffer) :=
  ⟨hM, hlen, .nil, fun _ hm => absurd hm List.not_mem_nil⟩

theorem FineRun.observed (h : FineRun M N buffer ticks w) :
    ∃ moves v, BoundedRun M N buffer moves v ∧
      moves.map Move.label = ticks.flatMap (fun m => m.label.labels) ∧ Observed M N v w := by
  obtain ⟨hcapacity, hlength, htrace, hbounded⟩ := h
  induction htrace with
  | nil => exact ⟨[], _, boundedRun_nil hcapacity hlength, rfl, observed_unlocked _⟩
  | @snoc w w' ticks e htrace hstep ih =>
      obtain ⟨moves, v, hrun, hlabels, hobserved⟩ :=
        ih fun m hm => hbounded m (List.mem_append_left _ hm)
      have hlast : BoundedTick e := hbounded _ (List.mem_append_right _ List.mem_cons_self)
      obtain ⟨last, v', hrun', hlabels', hobserved', -⟩ := hobserved.step hrun hlast hstep
      refine ⟨_, v', hrun', ?_, hobserved'⟩
      rw [List.map_append, hlabels, hlabels', List.flatMap_append, List.flatMap_singleton]

/-- The queue as the section in progress found it, or as it will leave it. -/
inductive Borders (v : System T) (w : FineSystem T) : Shared → Prop
  | before : Borders v w v.shared
  | after {h : Holder T Call Request Clock Point} {o : Section} (hholds : w.holder = some h)
      (hbody : program.body h.start h.clock v.shared = .ok o) : Borders v w o.shared

/-- The section in progress has brought both fields somewhere between their last value and
their next. -/
theorem Observed.between (h : Observed M N v w) (hrun : BoundedRun M N buffer moves v) :
    ∃ lo hi, Borders v w lo ∧ Borders v w hi ∧ Below lo w.shared ∧ Below w.shared hi := by
  cases hholder : w.holder with
  | none =>
      have hsame := (h.mirrors.free hholder).2
      exact ⟨_, _, .before, .before, hsame ▸ Below.refl _, hsame ▸ Below.refl _⟩
  | some holder =>
      obtain ⟨hcall, hready, halong⟩ := h.held holder hholder
      obtain ⟨f, hf⟩ := hrun.sound
      obtain ⟨o, hbody⟩ := section_ok hf.represents hcall holder.clock
      have hafter := hready.ends ((h.mirrors.held holder hholder).2.2.trans hbody)
      have hends : Borders v w o.shared := .after hholder hbody
      cases hputs : holder.point.puts with
      | false =>
          rw [hputs] at halong hafter
          exact ⟨_, _, hends, .before, hafter, halong⟩
      | true =>
          rw [hputs] at halong hafter
          exact ⟨_, _, .before, hends, halong, hafter⟩

theorem Observed.represents (h : Observed M N v w) (hrun : BoundedRun M N buffer moves v)
    (hs : Borders v w s) : ∃ f : MessageStore M N, Represents s f := by
  obtain ⟨f, hf⟩ := hrun.sound
  cases hs with
  | before => exact ⟨f, hf.represents⟩
  | @after holder o hholds hbody =>
      obtain ⟨hcall, -⟩ := h.held holder hholds
      obtain ⟨pick, v', hstep⟩ := exists_step (h.mirrors.held holder hholds).1 hbody
      obtain ⟨g, hg, -⟩ := hf.step_items (boundedEvent_of_call hcall) hstep
      have hshared := hstep.crit_inv.2.2.1
      exact ⟨g, hshared ▸ hg.represents⟩

theorem full_iff {s' : Shared} (hM : M ≤ 2 ^ 63)
    (hlimits : s.queue.maxSizeBytes = M ∧ s.queue.maxsize = N) (hroom : s.Room M N 0 0)
    (hlimits' : s'.queue.maxSizeBytes = M ∧ s'.queue.maxsize = N) (hroom' : s'.Room M N 0 0) :
    full s s' = true ↔ M < s.queue.size + 9 ∨ N < s'.queue.numElem + 1 := by
  have hsize := hroom.size_le
  have hnum := hroom'.numElem_lt
  have hprobe : addSize 1 sizeofSizeT = 9 := by decide
  have hbytes : addSize s.queue.size 9 = s.queue.size + 9 :=
    addSize_eq (by simp only [sizeModulus]; omega)
  have helems : addSize s'.queue.numElem 1 = s'.queue.numElem + 1 :=
    addSize_eq (by simp only [sizeModulus]; omega)
  simp only [full, hprobe, hbytes, helems, hlimits.1, hlimits'.2, Bool.not_eq_true',
    Bool.and_eq_false_iff, decide_eq_false_iff_not, not_le]

theorem isQueueFull_iff (hM : M ≤ 2 ^ 63) (hlimits : s.queue.maxSizeBytes = M ∧ s.queue.maxsize = N)
    (hroom : s.Room M N 0 0) :
    isQueueFull s = true ↔ M < s.queue.size + 9 ∨ N < s.queue.numElem + 1 := by
  rw [← full_self]
  exact full_iff hM hlimits hroom hlimits hroom

theorem Observed.room (h : Observed M N v w) (hrun : BoundedRun M N buffer moves v) :
    (w.shared.queue.maxSizeBytes = M ∧ w.shared.queue.maxsize = N) ∧ w.shared.Room M N 0 0 := by
  cases hholder : w.holder with
  | none =>
      obtain ⟨f, hf⟩ := hrun.sound
      rw [← (h.mirrors.free hholder).2]
      exact ⟨⟨hf.represents.capacity, hf.represents.limit⟩, hf.represents.room⟩
  | some holder =>
      obtain ⟨-, hready, -⟩ := h.held holder hholder
      have hroom := hready.room
      refine ⟨hready.limits, ⟨?_, ?_, ?_⟩⟩
      · exact (Nat.add_le_add_left (Nat.zero_le _) _).trans hroom.size_le
      · exact (Nat.add_le_add_left (Nat.zero_le _) _).trans hroom.numElem_le
      · exact (Nat.add_le_add_left (Nat.zero_le _) _).trans_lt hroom.numElem_lt

/-- Full in the middle of a section means full on one side of it, and so does not full. -/
theorem Observed.isQueueFull (h : Observed M N v w) (hrun : BoundedRun M N buffer moves v) :
    ∃ s, Borders v w s ∧ FasterFifo.isQueueFull w.shared = FasterFifo.isQueueFull s := by
  obtain ⟨f₀, hf₀⟩ := hrun.sound
  have hM := hf₀.represents.capacity_le
  obtain ⟨lo, hi, hlo, hhi, hbelow, habove⟩ := h.between hrun
  obtain ⟨f, hf⟩ := h.represents hrun hlo
  obtain ⟨g, hg⟩ := h.represents hrun hhi
  obtain ⟨hlimits, hroom⟩ := h.room hrun
  have hfull := isQueueFull_iff hM hlimits hroom
  have hsize := hbelow.size
  have hnum := hbelow.numElem
  have hsize' := habove.size
  have hnum' := habove.numElem
  cases hw : FasterFifo.isQueueFull w.shared with
  | true =>
      have hend := isQueueFull_iff hM ⟨hg.capacity, hg.limit⟩ hg.room
      refine ⟨hi, hhi, (hend.mpr ?_).symm⟩
      have hreason := hfull.mp hw
      omega
  | false =>
      have hend := isQueueFull_iff hM ⟨hf.capacity, hf.limit⟩ hf.room
      refine ⟨lo, hlo, (Bool.eq_false_iff.mpr ?_).symm⟩
      intro hlofull
      have hreason := hend.mp hlofull
      rw [hfull.mpr (by omega)] at hw
      cases hw

/-- The queue between the sections of a run, just before or just after the one in progress. -/
def Settled (M N : ℕ) (buffer : Bytes) (ticks : List (Move (FineSystem T) (FineEvent T)))
    (w : FineSystem T) (s : Shared) : Prop :=
  ∃ moves v, BoundedRun M N buffer moves v ∧
    moves.map Move.label = ticks.flatMap (fun m => m.label.labels) ∧
    Mirrors program account v w ∧ Borders v w s

/-- At any moment, also in the middle of a put or a get, the numbers read without the mutex are
within the limits of the queue and between what they were before the section in progress and what
they will be after it, and `empty()` is right about the queue before it or after it. -/
theorem observers_between (h : FineRun M N buffer ticks w) :
    getQueueSize w.shared ≤ N ∧ getDataSize w.shared ≤ M ∧
      (∃ lo hi, Settled M N buffer ticks w lo ∧ Settled M N buffer ticks w hi ∧
        (getQueueSize lo ≤ getQueueSize w.shared ∧ getQueueSize w.shared ≤ getQueueSize hi) ∧
        getDataSize lo ≤ getDataSize w.shared ∧ getDataSize w.shared ≤ getDataSize hi) ∧
      ∃ s, Settled M N buffer ticks w s ∧ empty w.shared = empty s := by
  obtain ⟨moves, v, hrun, hlabels, hobserved⟩ := h.observed
  obtain ⟨lo, hi, hlo, hhi, hbelow, habove⟩ := hobserved.between hrun
  have hsettled : ∀ s, Borders v w s → Settled M N buffer ticks w s := fun s hs =>
    ⟨moves, v, hrun, hlabels, hobserved.mirrors, hs⟩
  obtain ⟨-, hroom⟩ := hobserved.room hrun
  refine ⟨hroom.numElem_le, hroom.size_le, ⟨lo, hi, hsettled lo hlo, hsettled hi hhi,
    ⟨hbelow.numElem, habove.numElem⟩, hbelow.size, habove.size⟩, ?_⟩
  have hnum := hbelow.numElem
  have hnum' := habove.numElem
  by_cases hzero : w.shared.queue.numElem = 0
  · refine ⟨lo, hsettled lo hlo, ?_⟩
    have hlozero : lo.queue.numElem = 0 := by omega
    simp only [empty, getQueueSize, hzero, hlozero]
  · refine ⟨hi, hsettled hi hhi, ?_⟩
    have hhipos : hi.queue.numElem ≠ 0 := by omega
    simp only [empty, getQueueSize, hzero, hhipos]

theorem FineRun.room (h : FineRun M N buffer ticks w) :
    (w.shared.queue.maxSizeBytes = M ∧ w.shared.queue.maxsize = N) ∧ w.shared.Room M N 0 0 := by
  obtain ⟨moves, v, hrun, -, hobserved⟩ := h.observed
  exact hobserved.room hrun

theorem FineRun.full_between {ticks' : List (Move (FineSystem T) (FineEvent T))}
    (h : FineRun M N buffer ticks first) (h' : FineRun M N buffer ticks' second) :
    full first.shared second.shared = true ↔
      M < first.shared.queue.size + 9 ∨ N < second.shared.queue.numElem + 1 :=
  FasterFifo.full_iff h.capacity h.room.1 h.room.2 h'.room.1 h'.room.2

theorem FineRun.full_iff (h : FineRun M N buffer ticks w) :
    isQueueFull w.shared = true ↔
      M < w.shared.queue.size + 9 ∨ N < w.shared.queue.numElem + 1 :=
  isQueueFull_iff h.capacity h.room.1 h.room.2

theorem FineRun.not_full (h : FineRun M N buffer ticks w) (hsize : w.shared.queue.size + 9 ≤ M)
    (hnum : w.shared.queue.numElem + 1 ≤ N) : isQueueFull w.shared = false := by
  rw [Bool.eq_false_iff]
  intro hfull
  have hreason := h.full_iff.mp hfull
  omega

/-- A moment between two moments of a run. -/
def Meanwhile (first : FineSystem T) (more : List (Move (FineSystem T) (FineEvent T)))
    (second : FineSystem T) (before : List (Move (FineSystem T) (FineEvent T)))
    (w : FineSystem T) : Prop :=
  ∃ after, more = before ++ after ∧ Trace (FineStep code) first before w ∧
    Trace (FineStep code) w after second

theorem Meanwhile.snoc {before : List (Move (FineSystem T) (FineEvent T))} {u : FineSystem T}
    {e : FineEvent T} (h : Meanwhile first more w before u) (hstep : FineStep code w e second) :
    Meanwhile first (more ++ [⟨w, e, second⟩]) second before u := by
  obtain ⟨after, he, hbefore, hafter⟩ := h
  exact ⟨after ++ [⟨w, e, second⟩], by rw [he, List.append_assoc], hbefore, hafter.snoc hstep⟩

theorem meanwhile_last (h : Trace (FineStep code) first more second) :
    Meanwhile first more second more second := ⟨[], (List.append_nil _).symm, h, .nil⟩

theorem FineRun.room_seen (h : FineRun M N buffer ticks first)
    (htrace : Trace (FineStep code) first more second) (hbounded : ∀ m ∈ more, BoundedTick m.label)
    (hsize : first.shared.queue.size + 9 ≤ M) :
    (∃ before w, Meanwhile first more second before w ∧ isQueueFull w.shared = false) ∨
      second.shared.queue.size + 9 ≤ M ∧ N < second.shared.queue.numElem + 1 := by
  induction htrace with
  | nil =>
      by_cases hnum : N < first.shared.queue.numElem + 1
      · exact .inr ⟨hsize, hnum⟩
      · exact .inl ⟨[], first, meanwhile_last .nil, h.not_full hsize (Nat.le_of_not_lt hnum)⟩
  | @snoc w w' more e htrace hstep ih =>
      have hbefore := fun m hm => hbounded m (List.mem_append_left _ hm)
      have hlater := h.append (htrace.snoc hstep) hbounded
      rcases ih hbefore with ⟨before, u, hu, hnot⟩ | ⟨hroom, hfull⟩
      · exact .inl ⟨before, u, hu.snoc hstep, hnot⟩
      · have hend := meanwhile_last (htrace.snoc hstep)
        cases hstep with
        | lock hfree hphase => exact .inr ⟨hroom, hfull⟩
        | wake hasleep => exact .inr ⟨hroom, hfull⟩
        | signal hholds hsignal hwakes => exact .inr ⟨hroom, hfull⟩
        | unlock hholds hrelease =>
            dsimp only
            rw [release_shared hrelease]
            exact .inr ⟨hroom, hfull⟩
        | @advance h' l s hholds hmore =>
            obtain ⟨moves, v, -, -, hobserved⟩ := (h.append htrace hbefore).observed
            obtain ⟨-, hready, -⟩ := hobserved.held h' hholds
            have hless := more_of_full hready hmore hfull
            have hroom' : s.queue.size + 9 ≤ M := by omega
            by_cases hnum : N < s.queue.numElem + 1
            · exact .inr ⟨hroom', hnum⟩
            · exact .inl ⟨_, _, hend, hlater.not_full hroom' (Nat.le_of_not_lt hnum)⟩

/-- What `full()` answers is what `is_queue_full` would have answered at some moment between the
two reads. -/
theorem FineRun.full_seen (h : FineRun M N buffer ticks first)
    (htrace : Trace (FineStep code) first more second)
    (hbounded : ∀ m ∈ more, BoundedTick m.label) :
    ∃ before w, Meanwhile first more second before w ∧
      full first.shared second.shared = isQueueFull w.shared := by
  have hlater := h.append htrace hbounded
  have hanswer := h.full_between hlater
  by_cases hsize : first.shared.queue.size + 9 ≤ M
  · by_cases hnum : second.shared.queue.numElem + 1 ≤ N
    · rcases h.room_seen htrace hbounded hsize with ⟨before, w, hw, hnot⟩ | ⟨-, hfull⟩
      · refine ⟨before, w, hw, ?_⟩
        rw [hnot, Bool.eq_false_iff]
        intro hfull
        have hreason := hanswer.mp hfull
        omega
      · omega
    · refine ⟨more, second, meanwhile_last htrace, ?_⟩
      rw [hanswer.mpr (.inr (Nat.lt_of_not_le hnum)),
        hlater.full_iff.mpr (.inr (Nat.lt_of_not_le hnum))]
  · refine ⟨[], first, ⟨more, rfl, .nil, htrace⟩, ?_⟩
    rw [hanswer.mpr (.inl (Nat.lt_of_not_le hsize)), h.full_iff.mpr (.inl (Nat.lt_of_not_le hsize))]

/-- `full()` reads `size`, then anything may happen, then it reads `num_elem`: its answer is the
right one about the queue just before or just after the section in progress at some moment in
between. -/
theorem full_truthful (h : FineRun M N buffer ticks first)
    (htrace : Trace (FineStep code) first more second)
    (hbounded : ∀ m ∈ more, BoundedTick m.label) :
    ∃ before w s, Meanwhile first more second before w ∧
      Settled M N buffer (ticks ++ before) w s ∧
      full first.shared second.shared = isQueueFull s := by
  obtain ⟨before, w, hmoment, hanswer⟩ := h.full_seen htrace hbounded
  obtain ⟨after, he, hbefore, -⟩ := id hmoment
  have hrun := h.append hbefore fun m hm => hbounded m (he ▸ List.mem_append_left _ hm)
  obtain ⟨moves, v, hv, hlabels, hobserved⟩ := hrun.observed
  obtain ⟨s, hs, hsame⟩ := hobserved.isQueueFull hv
  exact ⟨before, w, s, hmoment, ⟨moves, v, hv, hlabels, hobserved.mirrors, hs⟩,
    hanswer.trans hsame⟩

theorem enters_section {c : Call} {t : T} {clock : Clock} {n : ℕ} {l : Point} {s' : Shared}
    {f : T → Phase Request} (hidle : f t = .idle)
    (h : code.advances n (.locked (.enter c) clock) s = some (l, s')) :
    ∃ ticks : List (Move (FineSystem T) (FineEvent T)),
      Trace (FineStep code) ⟨s, f, none⟩ ticks
        ⟨s', f, some ⟨t, .enter c, clock, l, none⟩⟩ ∧
      ∀ m ∈ ticks, m.label = .lock t (.enter c) clock ∨ m.label = .advance t := by
  have hlock : FineStep code (⟨s, f, none⟩ : FineSystem T) (.lock t (.enter c) clock)
      ⟨s, f, some ⟨t, .enter c, clock, .locked (.enter c) clock, none⟩⟩ := .lock rfl hidle
  obtain ⟨ticks, htrace, hticks⟩ := trace_of_advances (t := t) (f := f) h
  refine ⟨_, (Trace.single hlock).append htrace, ?_⟩
  intro m hm
  rcases List.mem_append.mp hm with hm | hm
  · rw [List.mem_singleton.mp hm]
    exact .inl rfl
  · exact .inr (hticks m hm)

theorem first_section {c : Call} (hM : M ≤ 2 ^ 63) (hlen : buffer.length = M) (hc : c.Bounded)
    (t : T) {clock : Clock} {n : ℕ} {l : Point}
    (h : code.advances n (.locked (.enter c) clock) (System.init T M N buffer).shared = some (l, s)) :
    ∃ ticks, FineRun M N buffer ticks ⟨s, fun _ => .idle, some ⟨t, .enter c, clock, l, none⟩⟩ := by
  obtain ⟨ticks, htrace, hticks⟩ := enters_section (t := t) (f := fun _ => .idle) rfl h
  refine ⟨ticks, hM, hlen, htrace, ?_⟩
  intro m hm
  rcases hticks m hm with he | he
  · rw [he]
    exact hc
  · rw [he]
    trivial

end Runs

/-- A put of two messages that has written 17 of its 19 bytes. -/
theorem observers_between_midway :
    ∃ (ticks : List (Move (FineSystem (Fin 1)) (FineEvent (Fin 1)))) (w : FineSystem (Fin 1))
      (lo hi s : Shared), FineRun 24 5 (List.replicate 24 0) ticks w ∧ getDataSize w.shared = 17 ∧
      getQueueSize w.shared ≤ 5 ∧
      Settled 24 5 (List.replicate 24 0) ticks w lo ∧ Settled 24 5 (List.replicate 24 0) ticks w hi ∧
      (getQueueSize lo ≤ getQueueSize w.shared ∧ getQueueSize w.shared ≤ getQueueSize hi) ∧
      getDataSize lo ≤ 17 ∧ 17 ≤ getDataSize hi ∧
      Settled 24 5 (List.replicate 24 0) ticks w s ∧ empty w.shared = empty s := by
  have hrun : (code.advances 6 (.locked (.enter (.put ⟨[[1], [2, 3]], true, 0⟩)) ⟨⟨0, 0⟩, ⟨0, 0⟩⟩)
      (System.init (Fin 1) 24 5 (List.replicate 24 0)).shared).any
        (fun r => decide (r.2.queue.size = 17)) = true := by decide +kernel
  have hcall : (Call.put ⟨[[1], [2, 3]], true, 0⟩).Bounded := by decide
  obtain ⟨⟨l, s⟩, hadvances, hsize⟩ := (Option.any_eq_true _ _).mp hrun
  obtain ⟨ticks, hfine⟩ := first_section (M := 24) (by decide) rfl hcall 0 hadvances
  obtain ⟨hcount, -, ⟨lo, hi, hlo, hhi, hcounts, hbelow, habove⟩, s', hs, hempty⟩ :=
    observers_between hfine
  have hdata : getDataSize s = 17 := of_decide_eq_true hsize
  exact ⟨ticks, _, lo, hi, s', hfine, hdata, hcount, hlo, hhi, hcounts, hdata ▸ hbelow,
    hdata ▸ habove, hs, hempty⟩

/-- A put that fills the queue between the two reads of `full()`. -/
theorem full_truthful_midway :
    ∃ (ticks more before : List (Move (FineSystem (Fin 1)) (FineEvent (Fin 1))))
      (first w second : FineSystem (Fin 1)) (s : Shared),
      FineRun 24 1 (List.replicate 24 0) ticks first ∧ full first.shared second.shared = true ∧
      Meanwhile first more second before w ∧
      Settled 24 1 (List.replicate 24 0) (ticks ++ before) w s ∧ isQueueFull s = true := by
  have hrun : (code.advances 3 (.locked (.enter (.put ⟨[[1]], true, 0⟩)) ⟨⟨0, 0⟩, ⟨0, 0⟩⟩)
      (System.init (Fin 1) 24 1 (List.replicate 24 0)).shared).any (fun r =>
        (code.advances 2 r.1 r.2).any fun r' => full r.2 r'.2) = true := by decide +kernel
  have hcall : (Call.put ⟨[[1]], true, 0⟩).Bounded := by decide
  obtain ⟨⟨l, s⟩, hadvances, hlater⟩ := (Option.any_eq_true _ _).mp hrun
  obtain ⟨⟨l', s'⟩, hadvances', hfull⟩ := (Option.any_eq_true _ _).mp hlater
  obtain ⟨ticks, hfine⟩ := first_section (M := 24) (by decide) rfl hcall 0 hadvances
  obtain ⟨more, htrace, hmore⟩ := trace_of_advances (t := (0 : Fin 1)) hadvances'
  have hbounded : ∀ m ∈ more, BoundedTick m.label := by
    intro m hm
    rw [hmore m hm]
    trivial
  obtain ⟨before, w, s₀, hmeanwhile, hsettled, hanswer⟩ := full_truthful hfine htrace hbounded
  exact ⟨ticks, more, before, _, w, _, s₀, hfine, hfull, hmeanwhile, hsettled,
    hanswer.symm.trans hfull⟩

end FasterFifo
