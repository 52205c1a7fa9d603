import FasterFifo.Representation

/-! `queue_get` takes messages off the front of the store until a limit, the receive buffer or
emptiness stops it: round by round under the invariant `Serving`, and then as a whole, counted by
`served`. -/
namespace FasterFifo
open CheckedMemory CyclicBuffer Framing BoundedFifo

/-- The shared state after the messages `ms` have been popped. -/
def Shared.dropped (s : Shared) (ms : List Bytes) : Shared :=
  { s with queue := { s.queue with
      head := (s.queue.head + total msgWeight ms) % s.queue.maxSizeBytes
      size := s.queue.size - total msgWeight ms
      numElem := s.queue.numElem - ms.length } }

variable {M N : ℕ} {s : Shared} {f : MessageStore M N}

theorem dropped_dropped (s : Shared) (ms ns : List Bytes) :
    (s.dropped ms).dropped ns = s.dropped (ms ++ ns) := by
  simp only [Shared.dropped, total_append, List.length_append, Nat.mod_add_mod, Nat.add_assoc,
    Nat.sub_sub]

theorem dropped_nil (h : s.RingOk) (hM : 0 < s.queue.maxSizeBytes) : s.dropped [] = s := by
  have hhead : (s.queue.head + 0) % s.queue.maxSizeBytes = s.queue.head :=
    Nat.mod_eq_of_lt (h.head_lt hM)
  simp only [Shared.dropped, total_nil, List.length_nil, Nat.sub_zero, hhead]

theorem Represents.dropped (h : Represents s f) (k : ℕ) :
    Represents (s.dropped (f.items.take k)) (f.dequeue k) := by
  have hsplit : total msgWeight (f.items.take k) + total msgWeight (f.items.drop k) =
      total msgWeight f.items := by rw [← total_append, List.take_append_drop]
  have hle : total msgWeight (f.items.take k) ≤ s.queue.size := by rw [h.size_eq]; omega
  refine ⟨(h.ring.popped hle).counted _, h.capacity, h.limit, ?_, ?_⟩
  · change (s.popped _).content = frames sizeT (f.items.drop k)
    have hcut : frames sizeT f.items =
        frames sizeT (f.items.take k) ++ frames sizeT (f.items.drop k) := by
      rw [← frames_append, List.take_append_drop]
    rw [content_popped h.ring hle, h.content_eq, hcut]
    exact List.drop_left' (length_frames_eq _)
  · change s.queue.numElem - (f.items.take k).length = (f.items.drop k).length
    rw [h.numElem_eq, List.length_take, List.length_drop]
    omega

theorem Represents.capacity_pos (h : Represents s f) (hne : f.items ≠ []) :
    0 < s.queue.maxSizeBytes := by
  have hsize := h.ring.size_le
  have hpos : s.queue.size ≠ 0 := fun h0 => hne (h.size_eq_zero_iff.mp h0)
  omega

theorem weight_le_size (h : Represents s f) {m : Bytes} {ms : List Bytes}
    (hf : f.items = m :: ms) : msgWeight m ≤ s.queue.size := by
  rw [h.size_eq, hf, total_cons]
  omega

theorem peek_eq (h : Represents s f) {m : Bytes} {ms : List Bytes} (hf : f.items = m :: ms) :
    ∃ header, circularBufferRead s (List.replicate sizeofSizeT 0) 0 sizeofSizeT false =
      .ok (s, header) ∧ sizeT.decode header = m.length := by
  have hM := h.capacity_pos (by rw [hf]; exact List.cons_ne_nil m ms)
  have hw := weight_le_size h hf
  have hsize : sizeofSizeT ≤ s.queue.size := (Nat.le_add_right _ _).trans hw
  have hlen : m.length < sizeT.bound := h.length_lt (by rw [hf]; exact List.mem_cons_self)
  have hroom : 0 + sizeofSizeT ≤ (List.replicate sizeofSizeT (0 : UInt8)).length := by
    rw [List.length_replicate, Nat.zero_add]
  refine ⟨_, circularBufferRead_eq h.ring hM hsize hroom, ?_⟩
  have hcontent : window s.buffer s.queue.head sizeofSizeT = sizeT.encode m.length := by
    rw [window_eq_take_content s hsize, h.content_eq, hf, frames_cons, frame, List.append_assoc]
    exact List.take_left' (length_header _)
  have hdrop : (List.replicate sizeofSizeT (0 : UInt8)).drop (0 + (sizeT.encode m.length).length) =
      [] := by rw [length_header]; rfl
  rw [hcontent, splice, hdrop, List.take_zero, List.nil_append, List.append_nil,
    sizeT.decode_encode _ hlen]

theorem pop_eq (h : Represents s f) {m : Bytes} {ms : List Bytes} (hf : f.items = m :: ms)
    {data : Bytes} {off : ℕ} (hoff : off + msgWeight m ≤ data.length) :
    circularBufferRead s data off (msgWeight m) true =
      .ok (s.popped (msgWeight m), splice data off (frame sizeT m)) := by
  have hM := h.capacity_pos (by rw [hf]; exact List.cons_ne_nil m ms)
  have hw := weight_le_size h hf
  have hcontent : window s.buffer s.queue.head (msgWeight m) = frame sizeT m := by
    rw [window_eq_take_content s hw, h.content_eq, hf]
    exact take_frame_frames sizeT m ms
  rw [circularBufferRead_eq h.ring hM hw hoff, hcontent]
  rfl

/-- The loop state after one more message has been read. -/
def GetState.taking (st : GetState) (m : Bytes) : GetState :=
  { shared := st.shared.dropped [m]
    msgBuffer := splice st.msgBuffer st.bytesRead (frame sizeT m)
    messagesRead := st.messagesRead + 1
    bytesRead := st.bytesRead + msgWeight m
    messagesSize := st.bytesRead + msgWeight m
    status := st.status }

/-- The loop invariant of `queue_get`: the counters agree and cannot wrap. -/
structure Serving (a : GetArgs) (st : GetState) (f : MessageStore M N) : Prop where
  represents : Represents st.shared f
  buffer : st.msgBuffer.length = a.msgBufferSize
  counted : st.messagesSize = st.bytesRead
  read_le : st.messagesRead ≤ st.bytesRead
  bounded : st.bytesRead + total msgWeight f.items ≤ 2 ^ 63
  status : st.status = .success

variable {a : GetArgs} {st : GetState}

theorem Serving.taking (h : Serving a st f) {m : Bytes} {ms : List Bytes} (hf : f.items = m :: ms)
    (hroom : st.bytesRead + msgWeight m ≤ a.msgBufferSize) :
    Serving a (st.taking m) (f.dequeue 1) := by
  have hdropped := h.represents.dropped 1
  have hone : f.items.take 1 = [m] := by rw [hf]; rfl
  have hrest : (f.dequeue 1).items = ms := by
    simp only [Store.dequeue, hf, List.drop_one, List.tail_cons]
  have hlen : (frame sizeT m).length = msgWeight m := length_frame sizeT m
  have hbounded := h.bounded
  rw [hf, total_cons] at hbounded
  refine ⟨?_, ?_, rfl, ?_, ?_, h.status⟩
  · rw [hone] at hdropped
    exact hdropped
  · rw [← h.buffer]
    exact length_splice (by rw [hlen, h.buffer]; exact hroom)
  · have hread := h.read_le
    simp only [GetState.taking, msgWeight, sizeofSizeT]
    omega
  · rw [hrest]
    simp only [GetState.taking]
    omega

/-- One round of the loop, in terms of the first stored message. -/
theorem queueGetLoop_round (h : Serving a st f) {m : Bytes} {ms : List Bytes}
    (hf : f.items = m :: ms) (fuel : ℕ) :
    queueGetLoop a (fuel + 1) st =
      if st.messagesRead < a.maxMessagesToGet ∧ st.bytesRead < a.maxBytesToGet then
        if a.msgBufferSize < st.bytesRead + msgWeight m then
          .ok { st with messagesSize := st.bytesRead + msgWeight m, status := .msgBufferTooSmall }
        else if ms = [] then .ok (st.taking m) else queueGetLoop a fuel (st.taking m)
      else .ok st := by
  obtain ⟨header, hpeek, hdecode⟩ := peek_eq h.represents hf
  have hw := weight_le_size h.represents hf
  have hread := h.read_le
  have hbounded := h.bounded
  rw [hf, total_cons] at hbounded
  have hframe : addSize sizeofSizeT m.length = msgWeight m :=
    addSize_eq (by simp only [msgWeight, sizeModulus] at *; omega)
  have hsize : addSize st.bytesRead (msgWeight m) = st.bytesRead + msgWeight m :=
    addSize_eq (by simp only [sizeModulus]; omega)
  have hcount : addSize st.messagesRead 1 = st.messagesRead + 1 :=
    addSize_eq (by simp only [sizeModulus, msgWeight, sizeofSizeT] at *; omega)
  have hpos : 1 ≤ st.shared.queue.numElem := by
    rw [h.represents.numElem_eq, hf, List.length_cons]
    omega
  have hlast : st.shared.queue.size - msgWeight m ≤ 0 ↔ ms = [] := by
    rw [h.represents.size_eq, hf, total_cons, Nat.add_sub_cancel_left, Nat.le_zero,
      ← length_frames_eq]
    have hwidth : 0 < sizeT.width := by decide
    exact frames_eq_nil_iff hwidth
  rw [queueGetLoop]
  split
  · rw [hpeek]
    simp only [ok_bind, hdecode, hframe, h.counted, hsize]
    split
    · rfl
    · rename_i hroom
      have hoff : st.bytesRead + msgWeight m ≤ st.msgBuffer.length := by rw [h.buffer]; omega
      rw [pop_eq h.represents hf hoff]
      simp only [ok_bind, decide_eq_true hw, logAssert_true, popped_size]
      change (checkedSub st.shared.queue.numElem 1 >>= _) = _
      rw [checkedSub_ok hpos, ok_bind]
      simp only [hlast, hcount]
      have htaking : st.taking m =
          { shared := { st.shared.popped (msgWeight m) with
              queue := { (st.shared.popped (msgWeight m)).queue with
                numElem := st.shared.queue.numElem - 1 } }
            msgBuffer := splice st.msgBuffer st.bytesRead (frame sizeT m)
            messagesRead := st.messagesRead + 1
            bytesRead := st.bytesRead + msgWeight m
            messagesSize := st.bytesRead + msgWeight m
            status := st.status } := rfl
      rw [htaking]
      rfl
  · rfl

/-- How many of the messages `ms` the rest of the loop reads. -/
def GetArgs.serves (a : GetArgs) (st : GetState) (ms : List Bytes) : ℕ :=
  served msgWeight a.maxMessagesToGet a.maxBytesToGet a.msgBufferSize st.messagesRead
    st.bytesRead ms

theorem serves_le_length (a : GetArgs) (st : GetState) (ms : List Bytes) :
    a.serves st ms ≤ ms.length :=
  served_le_length msgWeight a.maxMessagesToGet a.maxBytesToGet a.msgBufferSize _ _ ms

theorem length_take_serves (a : GetArgs) (st : GetState) (ms : List Bytes) :
    (ms.take (a.serves st ms)).length = a.serves st ms := by
  rw [List.length_take, Nat.min_eq_left (serves_le_length a st ms)]

/-- The loop ends at a message that the request still wants. -/
def GetArgs.refuses (a : GetArgs) (st : GetState) (ms : List Bytes) : Prop :=
  st.messagesRead + a.serves st ms < a.maxMessagesToGet ∧
    st.bytesRead + total msgWeight (ms.take (a.serves st ms)) < a.maxBytesToGet ∧
    a.serves st ms < ms.length

instance (a : GetArgs) (st : GetState) (ms : List Bytes) : Decidable (a.refuses st ms) :=
  inferInstanceAs (Decidable (_ ∧ _))

/-- The loop state after the messages `ms` have been read, and possibly one more refused. -/
def GetState.served (st : GetState) (a : GetArgs) (ms : List Bytes) : GetState :=
  let out := ms.take (a.serves st ms)
  { shared := st.shared.dropped out
    msgBuffer := splice st.msgBuffer st.bytesRead (frames sizeT out)
    messagesRead := st.messagesRead + a.serves st ms
    bytesRead := st.bytesRead + total msgWeight out
    messagesSize := st.bytesRead +
      if a.refuses st ms then total msgWeight (ms.take (a.serves st ms + 1))
      else total msgWeight out
    status := if a.refuses st ms then .msgBufferTooSmall else .success }

theorem served_taking (h : Serving a st f) {m : Bytes} {ms : List Bytes}
    (hopen : st.messagesRead < a.maxMessagesToGet ∧ st.bytesRead < a.maxBytesToGet ∧
      st.bytesRead + msgWeight m ≤ a.msgBufferSize) :
    (st.taking m).served a ms = st.served a (m :: ms) := by
  have hserves : a.serves st (m :: ms) = a.serves (st.taking m) ms + 1 := if_pos hopen
  have hrefuses : a.refuses st (m :: ms) ↔ a.refuses (st.taking m) ms := by
    simp only [GetArgs.refuses, hserves, List.take_succ_cons, total_cons, List.length_cons,
      GetState.taking]
    omega
  have hfits : st.bytesRead + msgWeight m +
      total msgWeight (ms.take (a.serves (st.taking m) ms)) ≤ a.msgBufferSize :=
    served_room msgWeight a.maxMessagesToGet a.maxBytesToGet a.msgBufferSize ms hopen.2.2
  have hlen : (frame sizeT m).length = msgWeight m := length_frame sizeT m
  have hjoin := splice_append st.msgBuffer (frame sizeT m)
    (frames sizeT (ms.take (a.serves (st.taking m) ms))) st.bytesRead
    (by rw [hlen, length_frames_eq, h.buffer]; exact hfits)
  rw [hlen] at hjoin
  simp only [GetState.served, hserves, hrefuses, List.take_succ_cons, total_cons, frames_cons,
    ← hjoin]
  by_cases hcut : a.refuses (st.taking m) ms
  · simp only [if_pos hcut]
    simp only [GetState.taking, dropped_dropped, List.singleton_append, Nat.add_assoc,
      Nat.add_comm 1]
  · simp only [if_neg hcut]
    simp only [GetState.taking, dropped_dropped, List.singleton_append, Nat.add_assoc,
      Nat.add_comm 1]

theorem served_closed (h : Serving a st f) (hM : 0 < st.shared.queue.maxSizeBytes)
    {ms : List Bytes} (hk : a.serves st ms = 0) (hr : ¬a.refuses st ms) :
    st.served a ms = st := by
  have hdropped := dropped_nil h.represents.ring hM
  ext1 <;> simp only [GetState.served, hk, List.take_zero, hdropped, frames_nil, splice_nil,
    total_nil, Nat.add_zero, if_neg hr]
  · exact h.counted.symm
  · exact h.status.symm

theorem served_refused (h : Serving a st f) (hM : 0 < st.shared.queue.maxSizeBytes)
    {m : Bytes} {ms : List Bytes} (hk : a.serves st (m :: ms) = 0) (hr : a.refuses st (m :: ms)) :
    st.served a (m :: ms) =
      { st with messagesSize := st.bytesRead + msgWeight m, status := .msgBufferTooSmall } := by
  have hdropped := dropped_nil h.represents.ring hM
  ext1 <;> simp only [GetState.served, hk, List.take_zero, hdropped, frames_nil, splice_nil,
    total_nil, Nat.add_zero, Nat.zero_add, List.take_succ_cons, total_cons, if_pos hr]

/-- The whole loop: it reads as many messages as the limits allow. -/
theorem queueGetLoop_eq (h : Serving a st f) (hne : f.items ≠ []) :
    queueGetLoop a (a.maxMessagesToGet - st.messagesRead) st = .ok (st.served a f.items) := by
  generalize hfuel : a.maxMessagesToGet - st.messagesRead = fuel
  induction fuel generalizing st f with
  | zero =>
      -- the message limit is reached, so nothing is served
      have hk : a.serves st f.items = 0 := by
        cases hf : f.items with
        | nil => exact absurd hf hne
        | cons m ms => exact if_neg (by omega)
      have hr : ¬a.refuses st f.items := by
        rintro ⟨hlt, -⟩
        omega
      rw [queueGetLoop, served_closed h (h.represents.capacity_pos hne) hk hr]
  | succ fuel ih =>
      have hM := h.represents.capacity_pos hne
      cases hf : f.items with
      | nil => exact absurd hf hne
      | cons m ms =>
          rw [queueGetLoop_round h hf]
          by_cases hlimits : st.messagesRead < a.maxMessagesToGet ∧ st.bytesRead < a.maxBytesToGet
          · rw [if_pos hlimits]
            by_cases hroom : a.msgBufferSize < st.bytesRead + msgWeight m
            · have hk : a.serves st (m :: ms) = 0 := if_neg (by omega)
              have hr : a.refuses st (m :: ms) := by
                simp only [GetArgs.refuses, hk, List.take_zero, total_nil, List.length_cons]
                omega
              rw [if_pos hroom, served_refused h hM hk hr]
            · have hopen : st.messagesRead < a.maxMessagesToGet ∧
                  st.bytesRead < a.maxBytesToGet ∧
                  st.bytesRead + msgWeight m ≤ a.msgBufferSize := by omega
              have hnext := h.taking hf hopen.2.2
              rw [if_neg hroom, ← served_taking h hopen]
              by_cases hlast : ms = []
              · -- the queue is drained: the source leaves the loop without another test
                subst hlast
                have hr : ¬a.refuses (st.taking m) [] := fun hr => Nat.not_lt_zero _ hr.2.2
                rw [if_pos rfl, served_closed hnext hM rfl hr]
              · have hrest : (f.dequeue 1).items = ms := by
                  simp only [Store.dequeue, hf, List.drop_one, List.tail_cons]
                have hloop := ih hnext (by rw [hrest]; exact hlast)
                  (by simp only [GetState.taking]; omega)
                rw [if_neg hlast, hloop, hrest]
          · have hk : a.serves st (m :: ms) = 0 := if_neg (by omega)
            have hr : ¬a.refuses st (m :: ms) := by
              simp only [GetArgs.refuses, hk, List.take_zero, total_nil]
              omega
            rw [if_neg hlimits, served_closed h hM hk hr]

/-- The loop state of a call that finds the queue non-empty. -/
def GetArgs.start (a : GetArgs) (s : Shared) : GetState := ⟨s, a.msgBuffer, 0, 0, 0, .success⟩

theorem served_total_le (a : GetArgs) (s : Shared) (ms : List Bytes) :
    total msgWeight (ms.take (a.serves (a.start s) ms)) ≤ a.msgBufferSize := by
  have hroom := served_room msgWeight a.maxMessagesToGet a.maxBytesToGet a.msgBufferSize (j := 0)
    ms (Nat.zero_le _)
  rwa [Nat.zero_add] at hroom

theorem Represents.serving (h : Represents s f) (a : GetArgs) : Serving a (a.start s) f where
  represents := h
  buffer := rfl
  counted := rfl
  read_le := le_rfl
  bounded := by simpa [GetArgs.start] using h.weight_le
  status := rfl

theorem queueGetBody_eq (h : Represents s f) (hne : f.items ≠ []) (a : GetArgs) :
    queueGetBody s a = .ok
      { shared := ((a.start s).served a f.items).shared
        signalled := ((a.start s).served a f.items).shared.queue.signalAfterGet
          (a.serves (a.start s) f.items)
        exit := .returned (.get ((a.start s).served a f.items).result) } := by
  have hloop := queueGetLoop_eq (h.serving a) hne
  rw [queueGetBody]
  change (queueGetLoop a (a.maxMessagesToGet - (a.start s).messagesRead) (a.start s) >>= _) = _
  rw [hloop, ok_bind]
  simp only [GetState.served, GetArgs.start, Nat.zero_add]
  rfl

end FasterFifo
