import FasterFifo.System

/-! `put_many` and `get_many` around the two calls. A step is a failing preparation, one section
with the Python code up to the next, or a wakeup. The copies of the object in several processes are
one object here: `lastError` is the last error that any of them recorded. -/
namespace FasterFifo
open CheckedMemory Framing Transition Monitor

/-- `DEFAULT_TIMEOUT`, in microseconds. -/
def defaultTimeout : ℕ := 10000000

def initialRecvBufferSize : ℕ := 5000

/-- User code; `none` when it raises. -/
structure Serializer (α : Type) where
  dumps : α → Option Bytes
  loads : Bytes → Option α

inductive PyError where
  | queueError (message : String)
  | full
  | empty
  | unexpected (message : String)
  | dumpsFailed
  | loadsFailed
  /-- The `ValueError` of `c_size_t.from_buffer`. -/
  | bufferTooSmall
  deriving DecidableEq, Repr

/-- The first argument of `put_many`; `other` is anything that is not a list or a tuple. -/
inductive PutMessages (α : Type) where
  | list (xs : List α)
  | tuple (xs : List α)
  | other (typeName : String)

def PutMessages.objects {α : Type} : PutMessages α → List α
  | .list xs => xs
  | .tuple xs => xs
  | .other _ => []

structure PutManyArgs (α : Type) where
  xs : PutMessages α
  block : Bool
  timeout : ℕ

structure GetManyArgs where
  block : Bool
  timeout : ℕ
  maxMessagesToGet : ℕ
  deriving DecidableEq, Repr

/-- What the caller of a method sees of a section. -/
inductive PyOutcome (α : Type) where
  | pending
  | returned
  | got (messages : List α)
  | raised (e : PyError)
  deriving DecidableEq

/-- Where a thread is; `caller` is the `get_many` that was called, `current` the one that runs. -/
inductive Activity (α : Type) where
  | idle
  | putting (args : PutManyArgs α)
  | getting (caller current : GetManyArgs)
  | retrying (caller current : GetManyArgs)

section Methods
variable {α : Type}

def putArgs (x : α) (block : Bool) (timeout : ℕ) : PutManyArgs α := ⟨.list [x], block, timeout⟩

def putManyNowaitArgs (xs : PutMessages α) : PutManyArgs α := ⟨xs, false, defaultTimeout⟩

def putNowaitArgs (x : α) : PutManyArgs α := putManyNowaitArgs (.list [x])

def getManyNowaitArgs (maxMessagesToGet : ℕ) : GetManyArgs :=
  ⟨false, defaultTimeout, maxMessagesToGet⟩

def getArgs (block : Bool) (timeout : ℕ) : GetManyArgs := ⟨block, timeout, 1⟩

def getNowaitArgs : GetManyArgs := getArgs false defaultTimeout

def dumpsAll (S : Serializer α) : List α → Except PyError (List Bytes)
  | [] => .ok []
  | x :: xs =>
      match S.dumps x with
      | none => .error .dumpsFailed
      | some b => (dumpsAll S xs).map (b :: ·)

/-- `put_many` up to the call of `queue_put`. -/
def prepare (S : Serializer α) : PutMessages α → Except PyError (List Bytes)
  | .list xs => dumpsAll S xs
  | .tuple xs => dumpsAll S xs
  | .other typeName =>
      .error (.queueError s!"put_many() expects a list or tuple, got {typeName}")

def unexpectedStatus (status : Status) : PyError :=
  let code := status.code
  .unexpected s!"Unexpected queue error {code}"

def finishPut : Status → PyOutcome α
  | .success => .returned
  | .full => .raised .full
  | status => .raised (unexpectedStatus status)

def parseLoop (S : Serializer α) (msgBuffer : Bytes) : ℕ → ℕ → Except PyError (List α × ℕ)
  | 0, offset => .ok ([], offset)
  | n+1, offset =>
      if msgBuffer.length < offset + sizeofSizeT then .error .bufferTooSmall
      else
        let msgSize := sizeT.decode ((msgBuffer.drop offset).take sizeofSizeT)
        match S.loads ((msgBuffer.drop (offset + sizeofSizeT)).take msgSize) with
        | none => .error .loadsFailed
        | some msg =>
            (parseLoop S msgBuffer n (offset + sizeofSizeT + msgSize)).map fun r =>
              (msg :: r.1, r.2)

def parseMessages (S : Serializer α) (numMessages totalBytes : ℕ) (msgBuffer : Bytes) :
    Except PyError (List α) :=
  match parseLoop S msgBuffer numMessages 0 with
  | .error e => .error e
  | .ok (messages, offset) =>
      if offset ≠ totalBytes then
        .error (.queueError s!"Expected to read {totalBytes} bytes, but got {offset} bytes")
      else .ok messages

def reallocateMsgBuffer (newSize : ℕ) : Bytes :=
  List.replicate (max initialRecvBufferSize newSize) 0

/-- `int(messages_size.value * 1.5)`. -/
def grownSize (messagesSize : ℕ) : ℕ := 3 * messagesSize / 2

/-- The receive buffer that `get_many` starts with. -/
def recvBuffer : Option Bytes → Bytes
  | none => reallocateMsgBuffer initialRecvBufferSize
  | some msgBuffer => msgBuffer

/-- The Python code that runs after a section: where the thread is then, what its
caller sees, and the thread's receive buffer. -/
structure PyEnd (α : Type) where
  activity : Activity α
  outcome : PyOutcome α
  recv : Option Bytes

/-- `get_many` from the return of `queue_get` on. -/
def finishGet (S : Serializer α) (caller current : GetManyArgs) (r : GetResult) : PyEnd α :=
  if r.status = .msgBufferTooSmall ∧ r.messagesRead ≤ 0 then
    ⟨.retrying caller current, .pending, some (reallocateMsgBuffer (grownSize r.messagesSize))⟩
  else if r.status = .success ∨ r.status = .msgBufferTooSmall then
    let messagesRead := r.messagesRead
    let bytesRead := r.bytesRead
    if messagesRead ≤ 0 ∨ bytesRead ≤ 0 then
      let message :=
        s!"Expected to read at least 1 message, but got {messagesRead} messages and {bytesRead} bytes"
      ⟨.idle, .raised (.queueError message), some r.msgBuffer⟩
    else
      match parseMessages S messagesRead bytesRead r.msgBuffer with
      | .error e => ⟨.idle, .raised e, some r.msgBuffer⟩
      | .ok messages =>
          if r.status = .msgBufferTooSmall then
            ⟨.idle, .got messages, some (reallocateMsgBuffer (grownSize r.messagesSize))⟩
          else ⟨.idle, .got messages, some r.msgBuffer⟩
  else if r.status = .empty then ⟨.idle, .raised .empty, some r.msgBuffer⟩
  else ⟨.idle, .raised (unexpectedStatus r.status), some r.msgBuffer⟩

def putEnd (args : PutManyArgs α) (recv : Option Bytes) : Exit Request Result → Option (PyEnd α)
  | .waiting _ => some ⟨.putting args, .pending, recv⟩
  | .returned (.put status) => some ⟨.idle, finishPut status, recv⟩
  | .returned (.get _) => none

def getEnd (S : Serializer α) (caller current : GetManyArgs) (recv : Option Bytes) :
    Exit Request Result → Option (PyEnd α)
  | .waiting _ => some ⟨.getting caller current, .pending, recv⟩
  | .returned (.get r) => some (finishGet S caller current r)
  | .returned (.put _) => none

/-- The arguments of `queue_put`. -/
def PutManyArgs.call (args : PutManyArgs α) (msgs : List Bytes) : Call :=
  .put ⟨msgs, args.block, args.timeout⟩

/-- The arguments of `queue_get`. -/
def GetManyArgs.call (args : GetManyArgs) (maxBytesToRead : ℕ) (msgBuffer : Bytes) : Call :=
  .get ⟨msgBuffer, args.maxMessagesToGet, maxBytesToRead, args.block, args.timeout⟩

/-- `_error` remembers its message. -/
def PyOutcome.record : PyOutcome α → Option String → Option String
  | .raised (.queueError message), _ => some message
  | _, lastError => lastError

end Methods

structure PySystem (T α : Type) where
  world : System T
  recv : T → Option Bytes
  activity : T → Activity α
  lastError : Option String

inductive PyEvent (T α : Type) where
  | putRaise (t : T) (args : PutManyArgs α) (e : PyError)
  | put (t : T) (args : PutManyArgs α) (event : Event T) (outcome : PyOutcome α)
  | get (t : T) (caller current : GetManyArgs) (event : Event T) (outcome : PyOutcome α)
  | wake (t : T)

variable {T α : Type} [DecidableEq T]

/-- A new queue; the receive buffers may hold anything. -/
def PySystem.init (maxSizeBytes maxsize : ℕ) (buffer : Bytes) (recv : T → Option Bytes) :
    PySystem T α where
  world := System.init T maxSizeBytes maxsize buffer
  recv := recv
  activity _ := .idle
  lastError := none

def PySystem.after (p : PySystem T α) (t : T) (w : System T) (e : PyEnd α) : PySystem T α where
  world := w
  recv := Function.update p.recv t e.recv
  activity := Function.update p.activity t e.activity
  lastError := e.outcome.record p.lastError

section After
variable {p : PySystem T α} {w : System T} {e : PyEnd α} {t u : T}

@[simp] theorem after_activity_self : (p.after t w e).activity t = e.activity :=
  Function.update_self _ _ _

theorem after_activity_of_ne (h : u ≠ t) : (p.after t w e).activity u = p.activity u :=
  Function.update_of_ne h _ _

end After

inductive PyStep (S : Serializer α) (maxBytesToRead : ℕ) :
    PySystem T α → PyEvent T α → PySystem T α → Prop
  | putRaise {p : PySystem T α} {t : T} {args : PutManyArgs α} {e : PyError}
      (hidle : p.activity t = .idle) (hprepare : prepare S args.xs = .error e) :
      PyStep S maxBytesToRead p (.putRaise t args e)
        { p with lastError := (PyOutcome.raised e : PyOutcome α).record p.lastError }
  | putEnter {p : PySystem T α} {t : T} {args : PutManyArgs α} {msgs : List Bytes} {clock : Clock}
      {o : Section} {pick : Option T} {w : System T} {e : PyEnd α}
      (hidle : p.activity t = .idle) (hprepare : prepare S args.xs = .ok msgs)
      (hstep : Step program p.world (.crit t (.enter (args.call msgs)) clock o pick) w)
      (hend : putEnd args (p.recv t) o.exit = some e) :
      PyStep S maxBytesToRead p
        (.put t args (.crit t (.enter (args.call msgs)) clock o pick) e.outcome) (p.after t w e)
  | putResume {p : PySystem T α} {t : T} {args : PutManyArgs α} {r : Request} {clock : Clock}
      {o : Section} {pick : Option T} {w : System T} {e : PyEnd α}
      (hputting : p.activity t = .putting args)
      (hstep : Step program p.world (.crit t (.resume r) clock o pick) w)
      (hend : putEnd args (p.recv t) o.exit = some e) :
      PyStep S maxBytesToRead p (.put t args (.crit t (.resume r) clock o pick) e.outcome)
        (p.after t w e)
  | getEnter {p : PySystem T α} {t : T} {args : GetManyArgs} {clock : Clock}
      {o : Section} {pick : Option T} {w : System T} {e : PyEnd α}
      (hidle : p.activity t = .idle)
      (hstep : Step program p.world
        (.crit t (.enter (args.call maxBytesToRead (recvBuffer (p.recv t)))) clock o pick) w)
      (hend : getEnd S args args (some (recvBuffer (p.recv t))) o.exit = some e) :
      PyStep S maxBytesToRead p
        (.get t args args
          (.crit t (.enter (args.call maxBytesToRead (recvBuffer (p.recv t)))) clock o pick)
          e.outcome) (p.after t w e)
  | getRetry {p : PySystem T α} {t : T} {caller last args : GetManyArgs} {clock : Clock}
      {o : Section} {pick : Option T} {w : System T} {e : PyEnd α}
      (hretrying : p.activity t = .retrying caller last)
      (hargs : args = getManyNowaitArgs last.maxMessagesToGet)
      (hstep : Step program p.world
        (.crit t (.enter (args.call maxBytesToRead (recvBuffer (p.recv t)))) clock o pick) w)
      (hend : getEnd S caller args (some (recvBuffer (p.recv t))) o.exit = some e) :
      PyStep S maxBytesToRead p
        (.get t caller args
          (.crit t (.enter (args.call maxBytesToRead (recvBuffer (p.recv t)))) clock o pick)
          e.outcome) (p.after t w e)
  | getResume {p : PySystem T α} {t : T} {caller args : GetManyArgs} {r : Request} {clock : Clock}
      {o : Section} {pick : Option T} {w : System T} {e : PyEnd α}
      (hgetting : p.activity t = .getting caller args)
      (hstep : Step program p.world (.crit t (.resume r) clock o pick) w)
      (hend : getEnd S caller args (p.recv t) o.exit = some e) :
      PyStep S maxBytesToRead p (.get t caller args (.crit t (.resume r) clock o pick) e.outcome)
        (p.after t w e)
  | wake {p : PySystem T α} {t : T} {w : System T} (hstep : Step program p.world (.wake t) w) :
      PyStep S maxBytesToRead p (.wake t) { p with world := w }

section Running
variable [Fintype T]

/-- What the threads and the scheduler may choose. -/
inductive PyAction (T α : Type) where
  | putMany (t : T) (args : PutManyArgs α) (clock : Clock) (pick : Option T)
  | getMany (t : T) (args : GetManyArgs) (clock : Clock) (pick : Option T)
  | retry (t : T) (clock : Clock) (pick : Option T)
  | resume (t : T) (clock : Clock) (pick : Option T)
  | wake (t : T)

def nextPut (p : PySystem T α) (t : T) (args : PutManyArgs α)
    (m : Move (System T) (Event T)) : Option (Move (PySystem T α) (PyEvent T α)) :=
  match m.label with
  | .crit _ _ _ o _ => (putEnd args (p.recv t) o.exit).map fun e =>
      ⟨p, .put t args m.label e.outcome, p.after t m.post e⟩
  | .wake _ => none

def nextGet (S : Serializer α) (p : PySystem T α) (t : T) (caller current : GetManyArgs)
    (recv : Option Bytes) (m : Move (System T) (Event T)) :
    Option (Move (PySystem T α) (PyEvent T α)) :=
  match m.label with
  | .crit _ _ _ o _ => (getEnd S caller current recv o.exit).map fun e =>
      ⟨p, .get t caller current m.label e.outcome, p.after t m.post e⟩
  | .wake _ => none

def PySystem.next (S : Serializer α) (maxBytesToRead : ℕ) (p : PySystem T α) :
    PyAction T α → Option (Move (PySystem T α) (PyEvent T α))
  | .putMany t args clock pick =>
      match p.activity t, prepare S args.xs with
      | .idle, .error e =>
          some ⟨p, .putRaise t args e,
            { p with lastError := (PyOutcome.raised e : PyOutcome α).record p.lastError }⟩
      | .idle, .ok msgs =>
          (program.next p.world (.enter t (args.call msgs) clock pick)).bind (nextPut p t args)
      | _, _ => none
  | .getMany t args clock pick =>
      match p.activity t with
      | .idle =>
          let recv := recvBuffer (p.recv t)
          (program.next p.world (.enter t (args.call maxBytesToRead recv) clock pick)).bind
            (nextGet S p t args args (some recv))
      | _ => none
  | .retry t clock pick =>
      match p.activity t with
      | .retrying caller last =>
          let recv := recvBuffer (p.recv t)
          let args := getManyNowaitArgs last.maxMessagesToGet
          (program.next p.world (.enter t (args.call maxBytesToRead recv) clock pick)).bind
            (nextGet S p t caller args (some recv))
      | _ => none
  | .resume t clock pick =>
      match p.activity t with
      | .putting args => (program.next p.world (.resume t clock pick)).bind (nextPut p t args)
      | .getting caller args =>
          (program.next p.world (.resume t clock pick)).bind
            (nextGet S p t caller args (p.recv t))
      | _ => none
  | .wake t =>
      (program.next p.world (.wake t)).map fun m => ⟨p, .wake t, { p with world := m.post }⟩

def PySystem.run (S : Serializer α) (maxBytesToRead : ℕ) (p : PySystem T α) :
    List (PyAction T α) → Option (List (Move (PySystem T α) (PyEvent T α)) × PySystem T α)
  | [] => some ([], p)
  | a :: as =>
      match p.next S maxBytesToRead a with
      | none => none
      | some m => (m.post.run S maxBytesToRead as).map fun r => (m :: r.1, r.2)

section Sound
variable {S : Serializer α} {X : ℕ} {p q : PySystem T α} {t : T}
  {n : Move (System T) (Event T)} {m : Move (PySystem T α) (PyEvent T α)}
  {start : Start Call Request} {clock : Clock} {o : Section} {pick : Option T}

omit [Fintype T] in
theorem nextPut_eq {args : PutManyArgs α} (h : nextPut p t args n = some m)
    (hlabel : n.label = .crit t start clock o pick) :
    ∃ e, putEnd args (p.recv t) o.exit = some e ∧
      m = ⟨p, .put t args (.crit t start clock o pick) e.outcome, p.after t n.post e⟩ := by
  simp only [nextPut, hlabel] at h
  obtain ⟨e, he, rfl⟩ := Option.map_eq_some_iff.mp h
  exact ⟨e, he, rfl⟩

omit [Fintype T] in
theorem nextGet_eq {caller current : GetManyArgs} {recv : Option Bytes}
    (h : nextGet S p t caller current recv n = some m)
    (hlabel : n.label = .crit t start clock o pick) :
    ∃ e, getEnd S caller current recv o.exit = some e ∧
      m = ⟨p, .get t caller current (.crit t start clock o pick) e.outcome,
        p.after t n.post e⟩ := by
  simp only [nextGet, hlabel] at h
  obtain ⟨e, he, rfl⟩ := Option.map_eq_some_iff.mp h
  exact ⟨e, he, rfl⟩

theorem pyNext_sound {a : PyAction T α} (h : p.next S X a = some m) :
    m.pre = p ∧ PyStep S X m.pre m.label m.post := by
  cases a with
  | putMany t args clock pick =>
      simp only [PySystem.next] at h
      split at h
      · cases h
        exact ⟨rfl, .putRaise ‹_› ‹_›⟩
      · obtain ⟨n, hnext, hm⟩ := Option.bind_eq_some_iff.mp h
        obtain ⟨o, hlabel⟩ := next_enter hnext
        obtain ⟨e, he, rfl⟩ := nextPut_eq hm hlabel
        obtain ⟨-, hstep⟩ := next_sound hnext
        rw [hlabel] at hstep
        exact ⟨rfl, .putEnter ‹_› ‹_› hstep he⟩
      · cases h
  | getMany t args clock pick =>
      simp only [PySystem.next] at h
      split at h
      · obtain ⟨n, hnext, hm⟩ := Option.bind_eq_some_iff.mp h
        obtain ⟨o, hlabel⟩ := next_enter hnext
        obtain ⟨e, he, rfl⟩ := nextGet_eq hm hlabel
        obtain ⟨-, hstep⟩ := next_sound hnext
        rw [hlabel] at hstep
        exact ⟨rfl, .getEnter ‹_› hstep he⟩
      · cases h
  | retry t clock pick =>
      simp only [PySystem.next] at h
      split at h
      · obtain ⟨n, hnext, hm⟩ := Option.bind_eq_some_iff.mp h
        obtain ⟨o, hlabel⟩ := next_enter hnext
        obtain ⟨e, he, rfl⟩ := nextGet_eq hm hlabel
        obtain ⟨-, hstep⟩ := next_sound hnext
        rw [hlabel] at hstep
        exact ⟨rfl, .getRetry ‹_› rfl hstep he⟩
      · cases h
  | resume t clock pick =>
      simp only [PySystem.next] at h
      split at h
      · obtain ⟨n, hnext, hm⟩ := Option.bind_eq_some_iff.mp h
        obtain ⟨r, o, hlabel⟩ := next_resume hnext
        obtain ⟨e, he, rfl⟩ := nextPut_eq hm hlabel
        obtain ⟨-, hstep⟩ := next_sound hnext
        rw [hlabel] at hstep
        exact ⟨rfl, .putResume ‹_› hstep he⟩
      · obtain ⟨n, hnext, hm⟩ := Option.bind_eq_some_iff.mp h
        obtain ⟨r, o, hlabel⟩ := next_resume hnext
        obtain ⟨e, he, rfl⟩ := nextGet_eq hm hlabel
        obtain ⟨-, hstep⟩ := next_sound hnext
        rw [hlabel] at hstep
        exact ⟨rfl, .getResume ‹_› hstep he⟩
      · cases h
  | wake t =>
      obtain ⟨n, hnext, rfl⟩ := Option.map_eq_some_iff.mp h
      obtain ⟨-, hstep⟩ := next_sound hnext
      rw [next_wake hnext] at hstep
      exact ⟨rfl, .wake hstep⟩

theorem pyRun_sound {as : List (PyAction T α)} {moves : List (Move (PySystem T α) (PyEvent T α))}
    (h : p.run S X as = some (moves, q)) : Trace (PyStep S X) p moves q := by
  induction as generalizing p moves with
  | nil =>
      cases h
      exact .nil
  | cons a as ih =>
      simp only [PySystem.run] at h
      split at h
      · cases h
      · rename_i m hm
        obtain ⟨⟨moves', q'⟩, hrun, hr⟩ := Option.map_eq_some_iff.mp h
        cases hr
        obtain ⟨rfl, hstep⟩ := pyNext_sound hm
        exact (Trace.single hstep).append (ih hrun)

theorem pyReach_of_run {as : List (PyAction T α)}
    {p' : List (Move (PySystem T α) (PyEvent T α)) × PySystem T α → Bool}
    (h : (p.run S X as).any p' = true) :
    ∃ moves q, Trace (PyStep S X) p moves q ∧ p' (moves, q) = true := by
  obtain ⟨⟨moves, q⟩, hrun, hq⟩ := (Option.any_eq_true _ _).mp h
  exact ⟨moves, q, pyRun_sound hrun, hq⟩

end Sound
end Running

/-- The move of the queue system inside a Python step. -/
def worldMoves (m : Move (PySystem T α) (PyEvent T α)) : List (Move (System T) (Event T)) :=
  match m.label with
  | .putRaise _ _ _ => []
  | .put _ _ e _ => [⟨m.pre.world, e, m.post.world⟩]
  | .get _ _ _ e _ => [⟨m.pre.world, e, m.post.world⟩]
  | .wake t => [⟨m.pre.world, .wake t, m.post.world⟩]

/-- A run of the Python queue is a run of the two calls. -/
theorem python_trace {S : Serializer α} {X : ℕ} {p q : PySystem T α}
    {moves : List (Move (PySystem T α) (PyEvent T α))} (h : Trace (PyStep S X) p moves q) :
    Trace (Step program) p.world (moves.flatMap worldMoves) q.world := by
  apply h.project
  intro m hm
  obtain ⟨p, e, q⟩ := m
  dsimp only at hm ⊢
  cases hm with
  | putRaise hidle hprepare => exact .nil
  | putEnter _ _ hstep _ => exact .single hstep
  | putResume _ hstep _ => exact .single hstep
  | getEnter _ hstep _ => exact .single hstep
  | getRetry _ _ hstep _ => exact .single hstep
  | getResume _ hstep _ => exact .single hstep
  | wake hstep => exact .single hstep

end FasterFifo
