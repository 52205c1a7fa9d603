import FasterFifo.Contracts
import FasterFifo.Library.Relational

/-! Rewritten bytes of messages and receive buffers change nothing but the bytes delivered: the same
threads wait, wake and return at the same times, with the same statuses, counts and indices. -/
namespace FasterFifo
open CheckedMemory Transition Monitor Relational
open BoundedFifo (total Store)

/-- A change of contents that keeps every length. -/
structure Rewriting where
  payload : Bytes → Bytes
  recv : Bytes → Bytes
  length_payload : ∀ m, (payload m).length = m.length
  length_recv : ∀ b, (recv b).length = b.length

def PutArgs.rewritten (φ : Rewriting) (a : PutArgs) : PutArgs :=
  { a with msgs := a.msgs.map φ.payload }

def GetArgs.rewritten (φ : Rewriting) (a : GetArgs) : GetArgs :=
  { a with msgBuffer := φ.recv a.msgBuffer }

def Call.rewritten (φ : Rewriting) : Call → Call
  | .put a => .put (a.rewritten φ)
  | .get a => .get (a.rewritten φ)

/-- The same result up to the bytes in the receive buffer, which hold the rewritten messages. -/
structure GetResult.Rewritten (φ : Rewriting) (r r' : GetResult) : Prop where
  status : r'.status = r.status
  messagesRead : r'.messagesRead = r.messagesRead
  bytesRead : r'.bytesRead = r.bytesRead
  messagesSize : r'.messagesSize = r.messagesSize
  messages : r'.messages = r.messages.map (List.map φ.payload)

def Result.Rewritten (φ : Rewriting) : Result → Result → Prop
  | .put status, .put status' => status' = status
  | .get r, .get r' => r.Rewritten φ r'
  | _, _ => False

/-- The same queue object, and the rewritten messages in the ring. -/
def Rewriting.Queues (φ : Rewriting) (M N : ℕ) (s s' : Shared) : Prop :=
  s'.queue = s.queue ∧ ∃ f f' : MessageStore M N,
    Represents s f ∧ Represents s' f' ∧ f'.items = f.items.map φ.payload

def Rewriting.correspondence (φ : Rewriting) (M N : ℕ) :
    Correspondence Shared Shared Call Call Request Request Result Result where
  shared := φ.Queues M N
  call c c' := c' = c.rewritten φ ∧ c.Bounded
  request r r' := r' = ⟨r.call.rewritten φ, r.waitUntil⟩ ∧ r.call.Bounded
  result := Result.Rewritten φ

variable {φ : Rewriting} {M N : ℕ} {s s' : Shared} {f f' : MessageStore M N}

section Weights

theorem Rewriting.weight (φ : Rewriting) (m : Bytes) : msgWeight (φ.payload m) = msgWeight m := by
  rw [msgWeight, φ.length_payload, msgWeight]

theorem Rewriting.total (φ : Rewriting) (ms : List Bytes) :
    total msgWeight (ms.map φ.payload) = total msgWeight ms :=
  BoundedFifo.total_map msgWeight φ.weight ms

theorem msgSizes_rewritten (φ : Rewriting) (a : PutArgs) :
    (a.rewritten φ).msgSizes = a.msgSizes := by
  simp only [PutArgs.msgSizes, PutArgs.rewritten, List.map_map, Function.comp_def,
    φ.length_payload]

theorem length_rewritten (φ : Rewriting) (a : PutArgs) :
    (a.rewritten φ).msgs.length = a.msgs.length := List.length_map _

theorem Call.Bounded.rewritten {c : Call} (h : c.Bounded) : (c.rewritten φ).Bounded := by
  cases c with
  | get a => trivial
  | put a =>
      rw [Call.rewritten, PutArgs.rewritten, Call.Bounded, φ.total]
      exact h

theorem fits_rewritten (hitems : f'.items = f.items.map φ.payload) {batch : List Bytes}
    (h : f.Fits batch) : f'.Fits (batch.map φ.payload) := by
  rw [Store.Fits, hitems, φ.total, φ.total, List.length_map, List.length_map]
  exact h

theorem serves_rewritten (a : GetArgs) (s s' : Shared) (ms : List Bytes) :
    (a.rewritten φ).serves ((a.rewritten φ).start s') (ms.map φ.payload) =
      a.serves (a.start s) ms := by
  have hsize : (a.rewritten φ).msgBufferSize = a.msgBufferSize := φ.length_recv a.msgBuffer
  rw [GetArgs.serves, hsize]
  exact BoundedFifo.served_map msgWeight _ _ _ φ.weight 0 0 ms

end Weights

section Writes

theorem foldl_pushed_queue (hqueue : s'.queue = s.queue) (batch : List Bytes) :
    ((batch.map φ.payload).foldl Shared.pushed s').queue =
      (batch.foldl Shared.pushed s).queue := by
  induction batch generalizing s s' with
  | nil => exact hqueue
  | cons m ms ih =>
      apply ih
      simp only [Shared.pushed, Shared.written, length_header, φ.length_payload, hqueue]

theorem dropped_queue (hqueue : s'.queue = s.queue) (ms : List Bytes) :
    (s'.dropped (ms.map φ.payload)).queue = (s.dropped ms).queue := by
  simp only [Shared.dropped, hqueue, φ.total, List.length_map]

end Writes

section Sections
variable {waitRemaining now : Timeval} {o : Section}

theorem Rewriting.Queues.addWaiter (h : φ.Queues M N s s') (c : Cond) (d : ℤ) :
    φ.Queues M N (s.addWaiter c d) (s'.addWaiter c d) := by
  obtain ⟨hqueue, f, f', hf, hf', hitems⟩ := h
  refine ⟨?_, f, f', hf.addWaiter c d, hf'.addWaiter c d, hitems⟩
  simp only [Shared.addWaiter, hqueue]

theorem beginWait_rewritten (h : φ.Queues M N s s') {c : Call} (hc : c.Bounded)
    (signalled : Option Cond) :
    (φ.correspondence M N).Outcomes (beginWait s c signalled waitRemaining now)
      (beginWait s' (c.rewritten φ) signalled waitRemaining now) where
  shared := by
    have hcond : (c.rewritten φ).cond = c.cond := by cases c <;> rfl
    simp only [beginWait, hcond]
    exact h.addWaiter _ _
  signalled := rfl
  exit := .waiting ⟨rfl, hc⟩

theorem put_rewritten (h : φ.Queues M N s s') {a : PutArgs} (ha : (Call.put a).Bounded)
    (hloop : queuePutLoop s a waitRemaining now = .ok o) :
    ∃ o', queuePutLoop s' (a.rewritten φ) waitRemaining now = .ok o' ∧
      (φ.correspondence M N).Outcomes o o' := by
  have hboth := h
  obtain ⟨hqueue, f, f', hf, hf', hitems⟩ := h
  have hcheck : s'.queue.canFit (totalSize (a.rewritten φ).msgSizes) (a.rewritten φ).msgs.length =
      s.queue.canFit (totalSize a.msgSizes) a.msgs.length := by
    rw [hqueue, msgSizes_rewritten, length_rewritten]
  rw [queuePutLoop, hcheck]
  cases queuePutLoop_cases hloop with
  | commit hfit hwrite =>
      have hroom := (canFit_iff hf ha).mp hfit
      have hroom' := fits_rewritten hitems hroom
      obtain ⟨hdone, hrep⟩ := writeMessages_eq hf hroom
      obtain ⟨hdone', hrep'⟩ := writeMessages_eq hf' hroom'
      cases hwrite.symm.trans hdone
      have hsame := foldl_pushed_queue (φ := φ) hqueue a.msgs
      rw [if_pos hfit, show (a.rewritten φ).msgs = a.msgs.map φ.payload from rfl, hdone', ok_bind]
      refine ⟨_, rfl, ⟨hsame, _, _, hrep, hrep', ?_⟩, ?_, .returned rfl⟩
      · simp only [Store.enqueue, hitems, List.map_append]
      · exact congrArg Queue.signalAfterPut hsame
  | full hfit hstop =>
      have hno : ¬s.queue.canFit (totalSize a.msgSizes) a.msgs.length = true := by
        rw [hfit]
        decide
      have hgives : (!(a.rewritten φ).block || !timerPositive waitRemaining) = true := by
        rcases hstop with hstop | hstop <;> simp [PutArgs.rewritten, hstop]
      rw [if_neg hno, if_pos hgives]
      exact ⟨_, rfl, hboth, rfl, .returned rfl⟩
  | wait hfit hblock htimer =>
      have hno : ¬s.queue.canFit (totalSize a.msgSizes) a.msgs.length = true := by
        rw [hfit]
        decide
      have hgoes : ¬(!(a.rewritten φ).block || !timerPositive waitRemaining) = true := by
        simp [PutArgs.rewritten, hblock, htimer]
      rw [if_neg hno, if_neg hgoes, hqueue]
      exact ⟨_, rfl, beginWait_rewritten (c := .put a) hboth ha _⟩

theorem result_rewritten (hf : Represents s f) (hf' : Represents s' f')
    (hitems : f'.items = f.items.map φ.payload) (a : GetArgs) :
    ((a.start s).served a f.items).result.Rewritten φ
      (((a.rewritten φ).start s').served (a.rewritten φ) f'.items).result := by
  have hserves := serves_rewritten (φ := φ) a s s' f.items
  have hrefuses : (a.rewritten φ).refuses ((a.rewritten φ).start s') (f.items.map φ.payload) ↔
      a.refuses (a.start s) f.items := by
    simp only [GetArgs.refuses, hserves, ← List.map_take, φ.total, List.length_map]
    rfl
  constructor
  · simp only [served_result, hitems, hrefuses]
  · simp only [served_result, hitems, hserves]
  · simp only [served_result, hitems, hserves, ← List.map_take, φ.total]
  · simp only [served_result, hitems, hrefuses, hserves, ← List.map_take, φ.total]
  · rw [served_messages hf, served_messages hf', hitems, hserves, Option.map_some,
      List.map_take]

theorem get_rewritten (h : φ.Queues M N s s') {a : GetArgs}
    (hwait : queueGetWait s a waitRemaining now = .ok o) :
    ∃ o', queueGetWait s' (a.rewritten φ) waitRemaining now = .ok o' ∧
      (φ.correspondence M N).Outcomes o o' := by
  have hboth := h
  obtain ⟨hqueue, f, f', hf, hf', hitems⟩ := h
  rw [queueGetWait, hqueue]
  cases queueGetWait_cases hwait with
  | empty hsize hstop =>
      have hgives : (!(a.rewritten φ).block || !timerPositive waitRemaining) = true := by
        rcases hstop with hstop | hstop <;> simp [GetArgs.rewritten, hstop]
      rw [if_pos hsize.le, if_pos hgives]
      exact ⟨_, rfl, hboth, rfl, .returned ⟨rfl, rfl, rfl, rfl, rfl⟩⟩
  | wait hsize hblock htimer =>
      have hgoes : ¬(!(a.rewritten φ).block || !timerPositive waitRemaining) = true := by
        simp [GetArgs.rewritten, hblock, htimer]
      rw [if_pos hsize.le, if_neg hgoes]
      exact ⟨_, rfl, beginWait_rewritten (c := .get a) hboth trivial _⟩
  | read hsize hloop =>
      obtain ⟨hne, rfl, hrep⟩ := read_spec hf hsize hloop
      have hne' : f'.items ≠ [] := by
        rw [hitems]
        simpa using hne
      have hserves := serves_rewritten (φ := φ) a s s' f.items
      have hrep' := hf'.dropped ((a.rewritten φ).serves ((a.rewritten φ).start s') f'.items)
      have hsame : (((a.rewritten φ).start s').served (a.rewritten φ) f'.items).shared.queue =
          ((a.start s).served a f.items).shared.queue := by
        simp only [GetState.served, hitems, hserves, ← List.map_take]
        exact dropped_queue hqueue _
      rw [if_neg hsize.not_ge, queueGetBody_eq hf' hne']
      refine ⟨_, rfl, ⟨hsame, _, _, hrep, hrep', ?_⟩, ?_, .returned ?_⟩
      · simp only [Store.dequeue, hitems, hserves, List.map_drop]
      · dsimp only
        rw [hsame, hitems, hserves]
        simp only [GetState.served, GetArgs.start, Nat.zero_add]
      · exact result_rewritten hf hf' hitems a

/-- Every section of a rewritten call ends like that of the call. -/
theorem rewriting_simulates (φ : Rewriting) (M N : ℕ) :
    (φ.correspondence M N).Simulates program program where
  cond := by
    rintro ⟨c, waitUntil⟩ r' ⟨rfl, -⟩
    cases c <;> rfl
  body := by
    intro start start' clock s s' o hstart hs hbody
    obtain ⟨hcall, hbounded, hremaining, hshared⟩ :
        startCall start' = (startCall start).rewritten φ ∧ (startCall start).Bounded ∧
          startRemaining start' clock = startRemaining start clock ∧
          φ.Queues M N (startShared start s) (startShared start' s') := by
      cases hstart with
      | @enter c c' h =>
          obtain ⟨rfl, hc⟩ := h
          exact ⟨rfl, hc, by cases c <;> rfl, hs⟩
      | @resume r r' h =>
          obtain ⟨rfl, hc⟩ := h
          have hcond : (r.call.rewritten φ).cond = r.call.cond := by cases r.call <;> rfl
          refine ⟨rfl, hc, rfl, ?_⟩
          simp only [startShared, hcond]
          exact hs.addWaiter _ _
    rw [body_eq] at hbody ⊢
    rw [hcall, hremaining]
    cases hc : startCall start with
    | put a =>
        rw [hc] at hbody hbounded
        exact put_rewritten hshared hbounded hbody
    | get a =>
        rw [hc] at hbody
        exact get_rewritten hshared hbody

theorem startCall_rewritten {start start' : Start Call Request}
    (h : (φ.correspondence M N).Starts start start') :
    startCall start' = (startCall start).rewritten φ ∧ (startCall start).Bounded := by
  cases h with
  | enter h => exact h
  | resume h =>
      obtain ⟨rfl, hc⟩ := h
      exact ⟨rfl, hc⟩

end Sections

section Runs
variable {T : Type} {buffer buffer' : Bytes} {moves : List (Move (System T) (Event T))}
  {w : System T} {e e' : Event T}

theorem delivered_rewritten (h : (φ.correspondence M N).Labels e e') :
    delivered e' = (delivered e).map φ.payload := by
  cases h with
  | wake => rfl
  | @crit t start start' clock o o' pick hstart hout =>
      have hexit := hout.exit
      obtain ⟨hcall, -⟩ := startCall_rewritten hstart
      simp only [delivered, delivery, hcall]
      generalize o.exit = x at hexit
      generalize o'.exit = x' at hexit
      cases hc : startCall start with
      | put a => rfl
      | get a =>
          cases hexit with
          | waiting hr => rfl
          | @returned r r' hr =>
              cases r <;> cases r' <;> try exact hr.elim
              · rfl
              · rename_i r r'
                simp only [Call.rewritten, Option.bind_some, hr.messages]
                cases r.messages <;> rfl

theorem bounded_rewritten (h : (φ.correspondence M N).Labels e e') : BoundedEvent e' := by
  cases h with
  | wake => trivial
  | crit hstart hout =>
      cases hstart with
      | enter h =>
          obtain ⟨rfl, hc⟩ := h
          exact hc.rewritten
      | resume h => trivial

theorem queues_init (φ : Rewriting) (hM : M ≤ 2 ^ 63) (hlen : buffer.length = M)
    (hlen' : buffer'.length = M) :
    φ.Queues M N (System.init T M N buffer).shared (System.init T M N buffer').shared :=
  ⟨rfl, .empty, .empty, .init (T := T) hM hlen, .init (T := T) hM hlen', rfl⟩

/-- Whatever bytes the messages, the receive buffers and the new ring hold: the run takes the same
turns with the same statuses, counts, indices and signals, and it moves the rewritten messages. -/
theorem data_independent [DecidableEq T] (φ : Rewriting) (h : BoundedRun M N buffer moves w)
    (hlen' : buffer'.length = M) :
    ∃ moves' w', BoundedRun M N buffer' moves' w' ∧
      List.Forall₂ (fun m m' => (φ.correspondence M N).Labels m.label m'.label) moves moves' ∧
      w'.shared.queue = w.shared.queue ∧
      w'.shared.messages = w.shared.messages.map (List.map φ.payload) ∧
      moves'.flatMap (fun m => delivered m.label) =
        (moves.flatMap fun m => delivered m.label).map φ.payload := by
  have hcover : ∀ m ∈ moves, (φ.correspondence M N).Covers m.label := by
    intro m hm
    have hbounded := h.bounded m hm
    cases he : m.label with
    | wake t => trivial
    | crit t start clock o pick =>
        rw [he] at hbounded
        cases start with
        | enter c => exact ⟨c.rewritten φ, rfl, hbounded⟩
        | resume r => trivial
  have hworlds : (φ.correspondence M N).Worlds (System.init T M N buffer)
      (System.init T M N buffer') :=
    ⟨queues_init φ h.capacity h.length_buffer hlen', fun t => .idle⟩
  obtain ⟨moves', w', htrace, hlabels, hend⟩ :=
    related_run (rewriting_simulates φ M N) h.trace hcover hworlds
  obtain ⟨hqueue, f, f', hf, hf', hitems⟩ := hend.shared
  refine ⟨moves', w', ⟨h.capacity, hlen', htrace, ?_⟩, hlabels, hqueue, ?_, ?_⟩
  · exact forall_right (fun m m' hm => bounded_rewritten hm) hlabels
  · rw [hf.messages_eq, hf'.messages_eq, hitems, Option.map_some]
  · clear htrace hend hworlds hcover h
    induction hlabels with
    | nil => rfl
    | cons hm _ ih =>
        rw [List.flatMap_cons, List.flatMap_cons, List.map_append, ih, delivered_rewritten hm]

end Runs

/-- Every payload byte is blanked out. -/
def blanking : Rewriting where
  payload m := m.map fun _ => 0
  recv b := b.map (· + 1)
  length_payload _ := List.length_map _
  length_recv _ := List.length_map _

theorem data_independent_exchange :
    ∃ (moves moves' : List (Move (System (Fin 2)) (Event (Fin 2)))) (w w' : System (Fin 2)),
      BoundedRun 24 5 (List.replicate 24 0) moves w ∧
      w.shared.messages = some [[2, 3], [4, 5, 6]] ∧
      BoundedRun 24 5 (List.replicate 24 255) moves' w' ∧
      List.Forall₂ (fun m m' => (blanking.correspondence 24 5).Labels m.label m'.label)
        moves moves' ∧
      w'.shared.queue = w.shared.queue ∧ w'.shared.messages = some [[0, 0], [0, 0, 0]] ∧
      moves'.flatMap (fun m => delivered m.label) = [[0]] := by
  obtain ⟨moves, w, hrun, -, -, hqueued, hdelivered⟩ := exchange_run
  have hlen : (List.replicate 24 (255 : UInt8)).length = 24 := List.length_replicate
  obtain ⟨moves', w', hrun', hlabels, hqueue, hmessages, hrenamed⟩ :=
    data_independent blanking hrun hlen
  rw [hqueued] at hmessages
  rw [hdelivered] at hrenamed
  exact ⟨moves, moves', w, w', hrun, hqueued, hrun', hlabels, hqueue, hmessages, hrenamed⟩

end FasterFifo
