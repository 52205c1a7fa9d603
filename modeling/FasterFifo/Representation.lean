import FasterFifo.Calls
import FasterFifo.RingSpec
import FasterFifo.Library.BoundedFifo

/-! The shared state represents a store of messages: the logical content of the ring is their
frames. The room check of `queue_put` is that of the store, and the write loop is `enqueue`. -/
namespace FasterFifo
open CheckedMemory CyclicBuffer Framing BoundedFifo

def msgWeight (m : Bytes) : ℕ := sizeofSizeT + m.length

abbrev MessageStore (M N : ℕ) := Store Bytes msgWeight M N

theorem length_frames_eq (ms : List Bytes) : (frames sizeT ms).length = total msgWeight ms :=
  length_frames sizeT ms

theorem mul_length_le_weight (ms : List Bytes) : sizeofSizeT * ms.length ≤ total msgWeight ms :=
  mul_length_le_total (fun _ => Nat.le_add_right _ _) ms

theorem total_eq_sum (ms : List Bytes) :
    total msgWeight ms = ms.length * sizeofSizeT + (ms.map List.length).sum := by
  induction ms with
  | nil => rfl
  | cons m ms ih =>
      simp only [total_cons, ih, msgWeight, List.length_cons, List.map_cons, List.sum_cons]
      ring

theorem foldl_addSize (sizes : List ℕ) (acc : ℕ) :
    sizes.foldl addSize (acc % sizeModulus) = (acc + sizes.sum) % sizeModulus := by
  induction sizes generalizing acc with
  | nil => rfl
  | cons x xs ih =>
      rw [List.foldl_cons, addSize, Nat.mod_add_mod, ih, List.sum_cons, Nat.add_assoc]

theorem totalSize_eq (a : PutArgs) :
    totalSize a.msgSizes = total msgWeight a.msgs % sizeModulus := by
  rw [totalSize, mulSize, PutArgs.msgSizes, List.length_map, foldl_addSize, total_eq_sum]

structure Represents {M N : ℕ} (s : Shared) (f : MessageStore M N) : Prop where
  ring : s.RingOk
  capacity : s.queue.maxSizeBytes = M
  limit : s.queue.maxsize = N
  content_eq : s.content = frames sizeT f.items
  numElem_eq : s.queue.numElem = f.items.length

variable {M N : ℕ} {s : Shared} {f : MessageStore M N}

theorem Represents.size_eq (h : Represents s f) : s.queue.size = total msgWeight f.items := by
  rw [← h.ring.length_content, h.content_eq, length_frames_eq]

theorem Represents.capacity_le (h : Represents s f) : M ≤ 2 ^ 63 := by
  rw [← h.capacity]
  exact h.ring.capacity_le

theorem Represents.weight_le (h : Represents s f) : total msgWeight f.items ≤ 2 ^ 63 :=
  f.weight_le.trans h.capacity_le

theorem Represents.numElem_le (h : Represents s f) : 8 * s.queue.numElem ≤ s.queue.size := by
  rw [h.numElem_eq, h.size_eq]
  exact mul_length_le_weight f.items

theorem total_le_of_mem {m : Bytes} {ms : List Bytes} (h : m ∈ ms) :
    msgWeight m ≤ total msgWeight ms :=
  List.single_le_sum (fun _ _ => Nat.zero_le _) _ (List.mem_map_of_mem h)

theorem Represents.length_lt (h : Represents s f) {m : Bytes} (hm : m ∈ f.items) :
    m.length < sizeT.bound := by
  have hw := (total_le_of_mem hm).trans h.weight_le
  rw [sizeT_bound]
  simp only [msgWeight, sizeModulus] at *
  omega

theorem Represents.size_eq_zero_iff (h : Represents s f) : s.queue.size = 0 ↔ f.items = [] := by
  rw [h.size_eq, ← length_frames_eq]
  have hwidth : 0 < sizeT.width := by decide
  exact frames_eq_nil_iff hwidth

/-- The count of elements cuts the logical content into the stored messages, with nothing left. -/
theorem Represents.splitFrames_eq (h : Represents s f) :
    splitFrames sizeT s.queue.numElem s.content = some (f.items, []) := by
  have hsplit := splitFrames_frames (fun m => h.length_lt (m := m)) ([] : Bytes)
  rw [List.append_nil] at hsplit
  rw [h.numElem_eq, h.content_eq, hsplit]

theorem Represents.unique {g : MessageStore M N} (h : Represents s f) (k : Represents s g) :
    f.items = g.items := by
  have hsplit := h.splitFrames_eq
  rw [k.splitFrames_eq] at hsplit
  exact (Prod.mk.inj (Option.some.inj hsplit)).1.symm

theorem Represents.addWaiter (h : Represents s f) (c : Cond) (d : ℤ) :
    Represents (s.addWaiter c d) f := by
  cases c <;> exact ⟨⟨h.ring.1, h.ring.2, h.ring.3, h.ring.4, h.ring.5⟩, h.capacity, h.limit,
    h.content_eq, h.numElem_eq⟩

/-- The room check of the code, free of wrap-around for a batch below 2^63 bytes. -/
theorem canFit_iff (h : Represents s f) {a : PutArgs} (ha : total msgWeight a.msgs < 2 ^ 63) :
    s.queue.canFit (totalSize a.msgSizes) a.msgs.length = true ↔ f.Fits a.msgs := by
  have hsize := h.size_eq
  have hweight := h.weight_le
  have hnum := h.numElem_le
  have hcount := mul_length_le_weight a.msgs
  have htotal : totalSize a.msgSizes = total msgWeight a.msgs := by
    rw [totalSize_eq]
    exact Nat.mod_eq_of_lt (by simp only [sizeModulus]; omega)
  have hbytes : addSize s.queue.size (total msgWeight a.msgs) =
      s.queue.size + total msgWeight a.msgs :=
    addSize_eq (by simp only [sizeModulus]; omega)
  have helems : addSize s.queue.numElem a.msgs.length = s.queue.numElem + a.msgs.length :=
    addSize_eq (by simp only [sizeModulus, sizeofSizeT] at *; omega)
  rw [Queue.canFit, htotal, hbytes, helems, Bool.and_eq_true, decide_eq_true_iff,
    decide_eq_true_iff, Store.Fits, hsize, h.numElem_eq, h.capacity, h.limit]

/-- One round of the write loop. -/
def Shared.pushed (s : Shared) (m : Bytes) : Shared :=
  let t := (s.written (sizeT.encode m.length)).written m
  { t with queue := { t.queue with numElem := t.queue.numElem + 1 } }

theorem length_header (n : ℕ) : (sizeT.encode n).length = sizeofSizeT := sizeT.length_encode n

theorem pushed_room (h : Represents s f) {m : Bytes} (hm : f.Fits [m]) :
    s.queue.size + sizeofSizeT + m.length ≤ s.queue.maxSizeBytes ∧ 0 < s.queue.maxSizeBytes := by
  have hsize := h.size_eq
  have hcap := h.capacity
  simp only [Store.Fits, total_cons, total_nil, msgWeight, sizeofSizeT] at *
  omega

theorem header_room (h : Represents s f) {m : Bytes} (hm : f.Fits [m]) :
    s.queue.size + (sizeT.encode m.length).length ≤ s.queue.maxSizeBytes := by
  have hroom := (pushed_room h hm).1
  rw [length_header]
  omega

theorem payload_room (h : Represents s f) {m : Bytes} (hm : f.Fits [m]) :
    (s.written (sizeT.encode m.length)).queue.size + m.length ≤
      (s.written (sizeT.encode m.length)).queue.maxSizeBytes := by
  rw [written_size, length_header, written_maxSizeBytes]
  exact (pushed_room h hm).1

theorem header_ring (h : Represents s f) {m : Bytes} (hm : f.Fits [m]) :
    (s.written (sizeT.encode m.length)).RingOk :=
  h.ring.written (pushed_room h hm).2 (header_room h hm)

theorem Represents.pushed (h : Represents s f) {m : Bytes} (hm : f.Fits [m]) :
    Represents (s.pushed m) (f.enqueue [m] hm) := by
  have hM := (pushed_room h hm).2
  have hheader := header_room h hm
  have hpayload := payload_room h hm
  have hring := header_ring h hm
  refine ⟨(hring.written hM hpayload).counted _, h.capacity, h.limit, ?_, ?_⟩
  · change ((s.written (sizeT.encode m.length)).written m).content = _
    rw [content_written hring hM hpayload, content_written h.ring hM hheader, h.content_eq,
      Store.enqueue, frames_append, frames_cons, frames_nil, List.append_nil, frame,
      List.append_assoc]
  · change s.queue.numElem + 1 = (f.items ++ [m]).length
    rw [h.numElem_eq, List.length_append, List.length_singleton]

theorem writeMessages_cons (h : Represents s f) {m : Bytes} {ms : List Bytes} (hm : f.Fits [m]) :
    writeMessages s (m :: ms) = writeMessages (s.pushed m) ms := by
  have hM := (pushed_room h hm).2
  have hfirst := circularBufferWrite_eq h.ring hM (header_room h hm)
  rw [length_header] at hfirst
  have hsecond := circularBufferWrite_eq (header_ring h hm) hM (payload_room h hm)
  have hnum := h.numElem_le
  have hcap := h.ring.capacity_le
  have hsize := h.ring.size_le
  have hcount : addSize ((s.written (sizeT.encode m.length)).written m).queue.numElem 1 =
      s.queue.numElem + 1 := by
    change addSize s.queue.numElem 1 = _
    exact addSize_eq (by simp only [sizeModulus]; omega)
  rw [writeMessages, hfirst, ok_bind, hsecond, ok_bind, hcount]
  rfl

/-- The write loop of an accepted batch runs to its end, and is `enqueue`. -/
theorem writeMessages_eq (h : Represents s f) {batch : List Bytes} (hfit : f.Fits batch) :
    writeMessages s batch = .ok (batch.foldl Shared.pushed s) ∧
      Represents (batch.foldl Shared.pushed s) (f.enqueue batch hfit) := by
  induction batch generalizing s f with
  | nil =>
      refine ⟨rfl, h.ring, h.capacity, h.limit, ?_, ?_⟩
      · simp only [Store.enqueue, List.append_nil]; exact h.content_eq
      · simp only [Store.enqueue, List.append_nil]; exact h.numElem_eq
  | cons m ms ih =>
      rw [writeMessages_cons h hfit.head, ← Store.enqueue_cons hfit]
      exact ih (h.pushed hfit.head) hfit.tail

/-- A write loop that ran to its end had room for all of its messages. -/
theorem writeMessages_room {s' : Shared} (h : s.RingOk) {batch : List Bytes}
    (hlen : ∀ m ∈ batch, m.length < 2 ^ 63) (hwrite : writeMessages s batch = .ok s') :
    s.queue.size + total msgWeight batch ≤ s.queue.maxSizeBytes := by
  induction batch generalizing s with
  | nil => exact h.size_le
  | cons m ms ih =>
      have hm := hlen m List.mem_cons_self
      have hheader : (sizeT.encode m.length).length < 2 ^ 63 := by
        rw [length_header]
        decide
      obtain ⟨s₁, hfirst, hrest⟩ := bind_eq_ok.mp hwrite
      obtain ⟨s₂, hsecond, hloop⟩ := bind_eq_ok.mp hrest
      rw [← length_header m.length] at hfirst
      obtain ⟨hM, hroom⟩ := circularBufferWrite_room h hheader _ hfirst
      cases (circularBufferWrite_eq h hM hroom).symm.trans hfirst
      have hring := h.written hM hroom
      have hroom' := (circularBufferWrite_room hring hm _ hsecond).2
      cases (circularBufferWrite_eq hring hM hroom').symm.trans hsecond
      have hring' := hring.written hM hroom'
      have hmore := ih (hring'.counted _) (fun x hx => hlen x (List.mem_cons_of_mem m hx)) hloop
      simp only [written_size, written_maxSizeBytes, length_header] at hmore
      rw [total_cons, msgWeight]
      omega

/-- What the write loop leaves alone: everything but tail, size, count and the free bytes. -/
structure Kept (s t : Shared) : Prop where
  maxSizeBytes : t.queue.maxSizeBytes = s.queue.maxSizeBytes
  maxsize : t.queue.maxsize = s.queue.maxsize
  head : t.queue.head = s.queue.head
  notEmpty : t.queue.notEmptyNWaiters = s.queue.notEmptyNWaiters
  notFull : t.queue.notFullNWaiters = s.queue.notFullNWaiters
  size_le : s.queue.size ≤ t.queue.size
  bytes : ∀ i < s.queue.size, t.buffer[(s.queue.head + i) % s.queue.maxSizeBytes]? =
    s.buffer[(s.queue.head + i) % s.queue.maxSizeBytes]?

theorem Kept.refl (s : Shared) : Kept s s := ⟨rfl, rfl, rfl, rfl, rfl, le_rfl, fun _ _ => rfl⟩

theorem Kept.trans {s t u : Shared} (h : Kept s t) (k : Kept t u) : Kept s u where
  maxSizeBytes := k.maxSizeBytes.trans h.maxSizeBytes
  maxsize := k.maxsize.trans h.maxsize
  head := k.head.trans h.head
  notEmpty := k.notEmpty.trans h.notEmpty
  notFull := k.notFull.trans h.notFull
  size_le := h.size_le.trans k.size_le
  bytes := by
    intro i hi
    rw [← h.bytes i hi, ← h.head, ← h.maxSizeBytes]
    exact k.bytes i (hi.trans_le h.size_le)

theorem Represents.pushed_kept (h : Represents s f) {m : Bytes} (hm : f.Fits [m]) :
    Kept s (s.pushed m) := by
  have hM := (pushed_room h hm).2
  have hheader := header_room h hm
  refine ⟨rfl, rfl, rfl, rfl, rfl, ?_, ?_⟩
  · change s.queue.size ≤ s.queue.size + (sizeT.encode m.length).length + m.length
    omega
  · intro i hi
    have hlt : i < (s.written (sizeT.encode m.length)).queue.size := by
      rw [written_size]; omega
    have hsecond := getElem?_written (header_ring h hm) hM (payload_room h hm) hlt
    exact hsecond.trans (getElem?_written h.ring hM hheader hi)

theorem kept_foldl_pushed (h : Represents s f) {batch : List Bytes} (hfit : f.Fits batch) :
    Kept s (batch.foldl Shared.pushed s) := by
  induction batch generalizing s f with
  | nil => exact Kept.refl s
  | cons m ms ih => exact (h.pushed_kept hfit.head).trans (ih (h.pushed hfit.head) hfit.tail)

end FasterFifo
