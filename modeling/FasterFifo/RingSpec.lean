import FasterFifo.Queue

/-! A ring write appends to the logical content and a ring read returns a prefix of it. The cases of
the wrap occur here and nowhere else. -/
namespace FasterFifo
open CheckedMemory CyclicBuffer

/-- The relation between head, tail, size and capacity. A ring of capacity zero
has no positions. -/
structure Shared.RingOk (s : Shared) : Prop where
  length_buffer : s.buffer.length = s.queue.maxSizeBytes
  capacity_le : s.queue.maxSizeBytes ≤ 2 ^ 63
  head_lt : 0 < s.queue.maxSizeBytes → s.queue.head < s.queue.maxSizeBytes
  size_le : s.queue.size ≤ s.queue.maxSizeBytes
  tail_eq : s.queue.tail = (s.queue.head + s.queue.size) % s.queue.maxSizeBytes

/-- The `size` bytes read cyclically from the head. -/
def Shared.content (s : Shared) : Bytes := window s.buffer s.queue.head s.queue.size

def Shared.written (s : Shared) (data : Bytes) : Shared :=
  { queue := { s.queue with
      tail := (s.queue.head + (s.queue.size + data.length)) % s.queue.maxSizeBytes
      size := s.queue.size + data.length }
    buffer := overwrite s.buffer s.queue.tail data }

def Shared.popped (s : Shared) (n : ℕ) : Shared :=
  { s with queue := { s.queue with
      head := (s.queue.head + n) % s.queue.maxSizeBytes
      size := s.queue.size - n } }

section Ring
variable {s : Shared}

theorem Shared.RingOk.tail_lt (h : s.RingOk) (hM : 0 < s.queue.maxSizeBytes) :
    s.queue.tail < s.queue.maxSizeBytes := by
  rw [h.tail_eq]
  exact Nat.mod_lt _ hM

theorem Shared.RingOk.length_content (h : s.RingOk) : s.content.length = s.queue.size :=
  length_window (by rw [h.length_buffer]; exact h.size_le)

theorem add_mod_capacity {p n M : ℕ} (hp : p < M) (hn : n ≤ M) (h : ¬p + n < M) :
    (p + n) % M = n - (M - p) := by
  rw [Nat.mod_eq_sub_mod (by omega), Nat.mod_eq_of_lt (by omega)]
  omega

theorem circularBufferWrite_eq (h : s.RingOk) (hM : 0 < s.queue.maxSizeBytes) {data : Bytes}
    (hd : s.queue.size + data.length ≤ s.queue.maxSizeBytes) :
    circularBufferWrite s data data.length = .ok (s.written data) := by
  have htail := h.tail_lt hM
  have hcap := h.capacity_le
  have hlen := h.length_buffer
  have hsum : addSize s.queue.tail data.length = s.queue.tail + data.length :=
    addSize_eq (by simp only [sizeModulus]; omega)
  have hsize : addSize s.queue.size data.length = s.queue.size + data.length :=
    addSize_eq (by simp only [sizeModulus]; omega)
  have hmod : (s.queue.head + (s.queue.size + data.length)) % s.queue.maxSizeBytes =
      (s.queue.tail + data.length) % s.queue.maxSizeBytes := by
    rw [h.tail_eq, Nat.mod_add_mod, Nat.add_assoc]
  have hassert : (s.queue.head + (s.queue.size + data.length)) % s.queue.maxSizeBytes <
      s.queue.maxSizeBytes := Nat.mod_lt _ hM
  unfold circularBufferWrite Shared.written overwrite
  simp only [hsum, hsize, hlen]
  split
  · rename_i hlt
    have hnew : (s.queue.head + (s.queue.size + data.length)) % s.queue.maxSizeBytes =
        s.queue.tail + data.length := by rw [hmod, Nat.mod_eq_of_lt hlt]
    rw [hnew] at hassert ⊢
    rw [memcpy_ok (by omega) (by omega)]
    simp only [ok_bind, List.drop_zero, List.take_length, decide_eq_true hd,
      decide_eq_true hassert, logAssert_true, pure, Except.pure]
  · rename_i hge
    have hnew := add_mod_capacity htail (by omega : data.length ≤ s.queue.maxSizeBytes) hge
    rw [hmod, hnew] at hassert ⊢
    have hfirst : (splice s.buffer s.queue.tail
        (data.take (s.queue.maxSizeBytes - s.queue.tail))).length = s.buffer.length :=
      length_splice (by simp only [List.length_take]; omega)
    have hrest : (data.drop (s.queue.maxSizeBytes - s.queue.tail)).take
        (data.length - (s.queue.maxSizeBytes - s.queue.tail)) =
        data.drop (s.queue.maxSizeBytes - s.queue.tail) :=
      List.take_of_length_le (by rw [List.length_drop])
    rw [checkedSub_ok (by omega), ok_bind, checkedSub_ok (by omega), ok_bind,
      memcpy_ok (by omega) (by omega), ok_bind, List.drop_zero,
      memcpy_ok (by omega) (by omega), hrest]
    simp only [ok_bind, decide_eq_true hd, decide_eq_true hassert, logAssert_true, pure,
      Except.pure]

/-- A write that ran to its end had room. -/
theorem circularBufferWrite_room (h : s.RingOk) {data : Bytes} (hd : data.length < 2 ^ 63) :
    Yields (fun _ => 0 < s.queue.maxSizeBytes ∧
      s.queue.size + data.length ≤ s.queue.maxSizeBytes)
      (circularBufferWrite s data data.length) := by
  have hcap := h.capacity_le
  have hle := h.size_le
  have hsum : addSize s.queue.size data.length = s.queue.size + data.length :=
    addSize_eq (by simp only [sizeModulus]; omega)
  have hasserted : ∀ (buffer : Bytes) (tail : ℕ),
      decide (addSize s.queue.size data.length ≤ s.queue.maxSizeBytes) = true →
      decide (tail < s.queue.maxSizeBytes) = true →
      0 < s.queue.maxSizeBytes ∧ s.queue.size + data.length ≤ s.queue.maxSizeBytes := by
    intro buffer tail hsize htail
    rw [hsum] at hsize
    exact ⟨Nat.zero_lt_of_lt (of_decide_eq_true htail), of_decide_eq_true hsize⟩
  unfold circularBufferWrite
  dsimp only
  split
  · refine Yields.after fun buffer => Yields.asserted fun hsize => Yields.asserted fun htail => ?_
    exact Yields.ok (hasserted buffer _ hsize htail)
  · refine Yields.after fun before => Yields.after fun afterWrap => Yields.after fun first => ?_
    refine Yields.after fun buffer => Yields.asserted fun hsize => Yields.asserted fun htail => ?_
    exact Yields.ok (hasserted buffer _ hsize htail)

theorem circularBufferRead_eq (h : s.RingOk) {n off : ℕ} {data : Bytes} {pop : Bool}
    (hM : 0 < s.queue.maxSizeBytes) (hn : n ≤ s.queue.size) (hoff : off + n ≤ data.length) :
    circularBufferRead s data off n pop =
      .ok (if pop then s.popped n else s, splice data off (window s.buffer s.queue.head n)) := by
  have hhead := h.head_lt hM
  have hcap := h.capacity_le
  have hlen := h.length_buffer
  have hsize := h.size_le
  have hsum : addSize s.queue.head n = s.queue.head + n :=
    addSize_eq (by simp only [sizeModulus]; omega)
  have hassert : (s.queue.head + n) % s.queue.maxSizeBytes < s.queue.maxSizeBytes :=
    Nat.mod_lt _ hM
  have hbound : 0 ≤ s.queue.size - n ∧ s.queue.size - n ≤ s.queue.maxSizeBytes := by omega
  rw [window_eq (by omega) (by omega), hlen]
  unfold circularBufferRead Shared.popped
  simp only [hsum]
  split
  · rename_i hlt
    rw [Nat.mod_eq_of_lt hlt] at hassert ⊢
    have hnone : n - (s.queue.maxSizeBytes - s.queue.head) = 0 := by omega
    rw [memcpy_ok (by omega) hoff, hnone, List.take_zero, List.append_nil]
    simp only [ok_bind, checkedSub_ok hn, decide_eq_true hassert, decide_eq_true hbound,
      logAssert_true, pure, Except.pure]
    cases pop <;> rfl
  · rename_i hge
    have hnew := add_mod_capacity hhead (by omega : n ≤ s.queue.maxSizeBytes) hge
    rw [hnew] at hassert ⊢
    have hpiece : ((s.buffer.drop s.queue.head).take
        (s.queue.maxSizeBytes - s.queue.head)).length = s.queue.maxSizeBytes - s.queue.head := by
      simp only [List.length_take, List.length_drop]
      omega
    have hfirst : (splice data off ((s.buffer.drop s.queue.head).take
        (s.queue.maxSizeBytes - s.queue.head))).length = data.length :=
      length_splice (by rw [hpiece]; omega)
    have hall : (s.buffer.drop s.queue.head).take n =
        (s.buffer.drop s.queue.head).take (s.queue.maxSizeBytes - s.queue.head) := by
      rw [List.take_of_length_le (by simp only [List.length_drop]; omega),
        List.take_of_length_le (by simp only [List.length_drop]; omega)]
    have hjoin := splice_append data
      ((s.buffer.drop s.queue.head).take (s.queue.maxSizeBytes - s.queue.head))
      (s.buffer.take (n - (s.queue.maxSizeBytes - s.queue.head))) off
      (by rw [hpiece, List.length_take]; omega)
    rw [hpiece] at hjoin
    rw [checkedSub_ok (by omega), ok_bind, checkedSub_ok (by omega), ok_bind,
      memcpy_ok (by omega) (by omega), ok_bind, memcpy_ok (by omega) (by omega), ok_bind,
      List.drop_zero, hjoin, hall]
    simp only [ok_bind, checkedSub_ok hn, decide_eq_true hassert, decide_eq_true hbound,
      logAssert_true, pure, Except.pure]
    cases pop <;> rfl

@[simp] theorem written_maxSizeBytes (s : Shared) (data : Bytes) :
    (s.written data).queue.maxSizeBytes = s.queue.maxSizeBytes := rfl

@[simp] theorem written_size (s : Shared) (data : Bytes) :
    (s.written data).queue.size = s.queue.size + data.length := rfl

@[simp] theorem popped_size (s : Shared) (n : ℕ) :
    (s.popped n).queue.size = s.queue.size - n := rfl

theorem Shared.RingOk.written (h : s.RingOk) (hM : 0 < s.queue.maxSizeBytes) {data : Bytes}
    (hd : s.queue.size + data.length ≤ s.queue.maxSizeBytes) : (s.written data).RingOk where
  length_buffer := by
    have htail := h.tail_lt hM
    have hlen := h.length_buffer
    rw [Shared.written, length_overwrite (by omega) (by omega), hlen]
  capacity_le := h.capacity_le
  head_lt := h.head_lt
  size_le := hd
  tail_eq := rfl

theorem Shared.RingOk.counted (h : s.RingOk) (n : ℕ) :
    ({ s with queue := { s.queue with numElem := n } } : Shared).RingOk :=
  ⟨h.length_buffer, h.capacity_le, h.head_lt, h.size_le, h.tail_eq⟩

/-- A write appends to the logical content. -/
theorem content_written (h : s.RingOk) (hM : 0 < s.queue.maxSizeBytes) {data : Bytes}
    (hd : s.queue.size + data.length ≤ s.queue.maxSizeBytes) :
    (s.written data).content = s.content ++ data := by
  have hlen := h.length_buffer
  have hhead : s.queue.head < s.buffer.length := by rw [hlen]; exact h.head_lt hM
  have hroom : s.queue.size + data.length ≤ s.buffer.length := by rw [hlen]; exact hd
  have hwin := window_overwrite hhead hroom
  rw [hlen, ← h.tail_eq] at hwin
  exact hwin

theorem getElem?_written (h : s.RingOk) (hM : 0 < s.queue.maxSizeBytes) {data : Bytes}
    (hd : s.queue.size + data.length ≤ s.queue.maxSizeBytes) {i : ℕ} (hi : i < s.queue.size) :
    (s.written data).buffer[(s.queue.head + i) % s.queue.maxSizeBytes]? =
      s.buffer[(s.queue.head + i) % s.queue.maxSizeBytes]? := by
  have hlen := h.length_buffer
  have hhead : s.queue.head < s.buffer.length := by rw [hlen]; exact h.head_lt hM
  have hroom : s.queue.size + data.length ≤ s.buffer.length := by rw [hlen]; exact hd
  have hsame := getElem?_overwrite_of_lt hhead hroom hi
  rw [hlen, ← h.tail_eq] at hsame
  exact hsame

theorem Shared.RingOk.popped (h : s.RingOk) {n : ℕ} (hn : n ≤ s.queue.size) :
    (s.popped n).RingOk where
  length_buffer := h.length_buffer
  capacity_le := h.capacity_le
  head_lt := fun hM => Nat.mod_lt _ hM
  size_le := (Nat.sub_le _ _).trans h.size_le
  tail_eq := by
    simp only [Shared.popped, Nat.mod_add_mod, h.tail_eq, Nat.add_assoc]
    rw [Nat.add_sub_cancel' hn]

/-- A popping read leaves the logical content without the bytes read. -/
theorem content_popped (h : s.RingOk) {n : ℕ} (hn : n ≤ s.queue.size) :
    (s.popped n).content = s.content.drop n := by
  have hsize : s.queue.size ≤ s.buffer.length := by rw [h.length_buffer]; exact h.size_le
  have hwin := window_drop s.queue.head hn hsize
  rw [← window_mod, h.length_buffer] at hwin
  exact hwin

theorem window_eq_take_content (s : Shared) {n : ℕ} (hn : n ≤ s.queue.size) :
    window s.buffer s.queue.head n = s.content.take n := by
  rw [Shared.content, take_window, Nat.min_eq_left hn]

end Ring
end FasterFifo
