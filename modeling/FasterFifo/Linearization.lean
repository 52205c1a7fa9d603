import FasterFifo.Contracts
import FasterFifo.Library.Linearizability

/-! `reference` answers a call at once from the list of queued messages, without ring, lock or
clock; every bounded run of the two calls is linearizable to it. -/
namespace FasterFifo
open Framing Transition Monitor Linearizability
open BoundedFifo (total served)

/-- What `queue_get` answers in front of the queued messages. -/
def GetArgs.reply (a : GetArgs) (queued : List Bytes) : GetResult :=
  let k := served msgWeight a.maxMessagesToGet a.maxBytesToGet a.msgBufferSize 0 0 queued
  let out := queued.take k
  let refused := k < a.maxMessagesToGet ∧ total msgWeight out < a.maxBytesToGet ∧ k < queued.length
  { status := if refused then .msgBufferTooSmall else .success
    messagesRead := k
    bytesRead := total msgWeight out
    messagesSize := if refused then total msgWeight (queued.take (k + 1)) else total msgWeight out
    msgBuffer := frames sizeT out ++ a.msgBuffer.drop (total msgWeight out) }

/-- The queue of `M` bytes and `N` messages without threads. -/
def reference (M N : ℕ) (queued : List Bytes) : Call → List Bytes × Result
  | .put a =>
      if total msgWeight queued + total msgWeight a.msgs ≤ M ∧
          queued.length + a.msgs.length ≤ N then
        (queued ++ a.msgs, .put .success)
      else (queued, .put .full)
  | .get a =>
      if queued = [] then (queued, .get ⟨.empty, 0, 0, 0, a.msgBuffer⟩)
      else (queued.drop (a.reply queued).messagesRead, .get (a.reply queued))

example : (replay (reference 24 5) []
    [.put ⟨[[1], [2, 3]], true, 0⟩, .put ⟨[[4, 5, 6]], false, 0⟩,
      .get ⟨List.replicate 9 0, 5, 24, true, 0⟩]).2.map Result.status =
    [.success, .full, .msgBufferTooSmall] := by decide

theorem served_reply (a : GetArgs) (s : Shared) (queued : List Bytes) :
    ((a.start s).served a queued).result = a.reply queued := by
  have hrefuses : a.refuses (a.start s) queued ↔
      (a.serves (a.start s) queued < a.maxMessagesToGet ∧
        total msgWeight (queued.take (a.serves (a.start s) queued)) < a.maxBytesToGet ∧
        a.serves (a.start s) queued < queued.length) := by
    simp only [GetArgs.refuses, GetArgs.start, Nat.zero_add]
  rw [served_result, GetArgs.reply]
  simp only [hrefuses]
  rfl

variable {T : Type} {M N : ℕ} {s : Shared} {f : MessageStore M N} {start : Start Call Request}
  {clock : Clock} {o : Section}

section Sections

theorem reference_put (h : Represents s f) (hbound : (startCall start).Bounded) {a : PutArgs}
    (hc : startCall start = .put a) (hbody : program.body start clock s = .ok o) {r : Result}
    (hx : o.exit = .returned r) (t : T) (pick : Option T) :
    reference M N f.items (.put a) =
      (f.items ++ committed (.crit t start clock o pick), r) := by
  have hfits : (total msgWeight f.items + total msgWeight a.msgs ≤ M ∧
      f.items.length + a.msgs.length ≤ N) ↔ f.Fits a.msgs := Iff.rfl
  have hstart := h.startShared start
  rw [hc] at hbound
  rw [body_eq, hc] at hbody
  simp only [reference, hfits, committed, hc]
  cases queuePutLoop_cases hbody with
  | commit hfit hwrite =>
      cases hx
      rw [if_pos ((canFit_iff hstart hbound).mp hfit)]
  | full hfit hstop =>
      cases hx
      have hno : ¬f.Fits a.msgs := fun hroom =>
        absurd (hfit.symm.trans ((canFit_iff hstart hbound).mpr hroom)) (by decide)
      rw [if_neg hno]
      exact congrArg (·, _) (List.append_nil _).symm
  | wait hfit hblock htimer => cases hx

theorem reference_get (h : Represents s f) {a : GetArgs} (hc : startCall start = .get a)
    (hbody : program.body start clock s = .ok o) {r : Result} (hx : o.exit = .returned r) (t : T)
    (pick : Option T) :
    ∃ k, delivered (.crit t start clock o pick) = f.items.take k ∧
      reference M N f.items (.get a) = (f.items.drop k, r) := by
  have hstart := h.startShared start
  rw [body_eq, hc] at hbody
  simp only [reference, delivered, delivery, hc]
  cases queueGetWait_cases hbody with
  | empty hsize hstop =>
      cases hx
      refine ⟨0, rfl, ?_⟩
      rw [if_pos (hstart.size_eq_zero_iff.mp hsize)]
      rfl
  | wait hsize hblock htimer => cases hx
  | read hsize hloop =>
      cases hx
      obtain ⟨hne, rfl, -⟩ := read_spec hstart hsize hloop
      refine ⟨a.serves (a.start (startShared start s)) f.items, ?_, ?_⟩
      · rw [Option.bind_some, served_messages hstart, Option.getD_some]
      · rw [if_neg hne, served_reply]
        rfl

theorem waiting_silent {p : Request} (hx : o.exit = .waiting p) (t : T)
    (start : Start Call Request) (clock : Clock) (pick : Option T) :
    delivered (.crit t start clock o pick) = [] ∧ committed (.crit t start clock o pick) = [] := by
  cases hc : startCall start <;> simp [delivered, delivery, committed, hc, hx]

end Sections

section Runs
variable [DecidableEq T] {buffer : Bytes} {moves : List (Move (System T) (Event T))}
  {w w' : System T}

theorem belongs_startCall : Belongs program startCall where
  enter _ := rfl
  waiting h hx := waiting_call h hx

/-- The messages in the queue, which is in order. -/
def Queued (M N : ℕ) (w : System T) (queued : List Bytes) : Prop :=
  ∃ f : MessageStore M N, Sound w f ∧ f.items = queued

/-- A section that answers a call acts as the reference, every other step leaves it alone. -/
theorem reference_acts {m : Move (System T) (Event T)} (hb : BoundedEvent m.label)
    (hstep : Step program m.pre m.label m.post) (queued : List Bytes)
    (h : Queued M N m.pre queued) :
    Acts startCall (reference M N) (Queued M N) m queued := by
  obtain ⟨f, hf, rfl⟩ := h
  obtain ⟨w, e, w'⟩ := m
  obtain ⟨g, hg, hitems⟩ := hf.step_items hb hstep
  refine ⟨g.items, ⟨g, hg, rfl⟩, ?_⟩
  cases e with
  | wake t => exact congrArg (·, _) (hitems.trans (List.append_nil _)).symm
  | crit t start clock o pick =>
      obtain ⟨hphase, hbody, -⟩ := hstep.crit_inv
      dsimp only at hitems ⊢
      cases hx : o.exit with
      | waiting p =>
          obtain ⟨hnone, hnothing⟩ := waiting_silent hx t start clock pick
          rw [hnone, hnothing, List.append_nil] at hitems
          simp only [answers, hx]
          exact congrArg (·, _) hitems.symm
      | returned r =>
          suffices hone : reference M N f.items (startCall start) = (g.items, r) by
            simp only [answers, hx, List.map_cons, List.map_nil, replay, hone]
          cases hc : startCall start with
          | put a =>
              have hone := reference_put hf.represents (hf.start_call hphase hb) hc hbody hx t
                pick
              have hnone : delivered (.crit t start clock o pick) = [] := by
                simp only [delivered, delivery, hc]
                rfl
              rw [hnone, List.nil_append] at hitems
              rw [hone, hitems]
          | get a =>
              obtain ⟨k, hk, hone⟩ := reference_get hf.represents hc hbody hx t pick
              have hnone : committed (.crit t start clock o pick) = [] := by
                simp only [committed, hc]
              rw [hk, hnone, List.append_nil] at hitems
              have hrest : g.items = f.items.drop k :=
                List.append_cancel_left (hitems.trans (List.take_append_drop k f.items).symm)
              rw [hone, hrest]

/-- The two calls are linearizable: in every run the answered calls, in an order that respects
real time, are answered exactly as by the queue without threads. -/
theorem queue_linearizable (h : BoundedRun M N buffer moves w) :
    ∃ ops queued, w.shared.messages = some queued ∧
      Linearizes (reference M N) [] (history moves) ops queued := by
  have hinit : Queued M N (System.init T M N buffer) [] :=
    ⟨.empty, .init h.capacity h.length_buffer, rfl⟩
  obtain ⟨ops, queued, ⟨f, hf, rfl⟩, hlinear⟩ :=
    exists_linearization belongs_startCall (fun m => reference_acts) h.trace (fun _ => rfl)
      h.bounded hinit
  exact ⟨ops, f.items, hf.represents.messages_eq, hlinear⟩

end Runs

theorem queue_linearizable_exchange :
    ∃ (moves : List (Move (System (Fin 2)) (Event (Fin 2)))) (w : System (Fin 2))
      (ops : List (Operation (Fin 2) Call Result)),
      BoundedRun 24 5 (List.replicate 24 0) moves w ∧
      w.shared.messages = some [[2, 3], [4, 5, 6]] ∧
      Linearizes (reference 24 5) [] (history moves) ops [[2, 3], [4, 5, 6]] := by
  obtain ⟨moves, w, hrun, -, -, hqueued, -⟩ := exchange_run
  obtain ⟨ops, queued, hmessages, hlinear⟩ := queue_linearizable hrun
  rw [hqueued] at hmessages
  cases hmessages
  exact ⟨moves, w, ops, hrun, hqueued, hlinear⟩

end FasterFifo
