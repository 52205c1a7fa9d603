import FasterFifo.RingSpec
import FasterFifo.Library.BoundedFifo

/-! Any sequence of ring operations: the logical content of the ring is a store of bytes of weight
one, a write is `enqueue`, and a popping read is `dequeue`. -/
namespace FasterFifo
open CheckedMemory CyclicBuffer Transition
open BoundedFifo (Store Label total total_one)

abbrev ByteStore (M : ℕ) := Store UInt8 (fun _ => 1) M M

/-- A ring write with room for the data, or a popping read of bytes that are there. -/
inductive RingStep : Shared → Label UInt8 → Shared → Prop
  | write {s t : Shared} {data : Bytes}
      (hroom : s.queue.size + data.length ≤ s.queue.maxSizeBytes)
      (h : circularBufferWrite s data data.length = .ok t) : RingStep s (.enqueue data) t
  | read {s t : Shared} {dest dest' : Bytes} {off n : ℕ} (hn : n ≤ s.queue.size)
      (hoff : off + n ≤ dest.length) (h : circularBufferRead s dest off n true = .ok (t, dest')) :
      RingStep s (.dequeue ((dest'.drop off).take n)) t

def bytesWritten (ops : List (Move Shared (Label UInt8))) : Bytes :=
  (ops.map Move.label).flatMap Label.accepted

def bytesRead (ops : List (Move Shared (Label UInt8))) : Bytes :=
  (ops.map Move.label).flatMap Label.delivered

/-- The content of a ring of capacity `M`, as a store of bytes. -/
structure HoldsBytes {M : ℕ} (s : Shared) (f : ByteStore M) : Prop where
  ring : s.RingOk
  capacity : s.queue.maxSizeBytes = M
  content : s.content = f.items

section Steps
variable {M : ℕ} {s t : Shared} {f : ByteStore M}

theorem HoldsBytes.size_eq (h : HoldsBytes s f) : s.queue.size = f.items.length := by
  rw [← h.ring.length_content, h.content]

theorem Shared.RingOk.holds (h : s.RingOk) :
    ∃ f : ByteStore s.queue.maxSizeBytes, HoldsBytes s f := by
  have hle : s.content.length ≤ s.queue.maxSizeBytes := h.length_content.le.trans h.size_le
  exact ⟨⟨s.content, (total_one _).le.trans hle, hle⟩, h, rfl, rfl⟩

theorem take_drop_splice {dst src : Bytes} {off n : ℕ} (hn : src.length = n)
    (h : off + n ≤ dst.length) : ((splice dst off src).drop off).take n = src := by
  subst hn
  have htake : (dst.take off).length = off := by
    rw [List.length_take]
    omega
  rw [splice, List.append_assoc, List.drop_left' htake, List.take_left]

theorem HoldsBytes.step (hM : 0 < M) (h : HoldsBytes s f) {op : Label UInt8}
    (hstep : RingStep s op t) : ∃ g : ByteStore M, BoundedFifo.Step f op g ∧ HoldsBytes t g := by
  have hcap : 0 < s.queue.maxSizeBytes := by
    rw [h.capacity]
    exact hM
  cases hstep with
  | @write _ data hroom hwrite =>
      cases (circularBufferWrite_eq h.ring hcap hroom).symm.trans hwrite
      have hfit : f.Fits data := by
        rw [h.size_eq, h.capacity] at hroom
        exact ⟨by rwa [total_one, total_one], hroom⟩
      refine ⟨f.enqueue data hfit, .enqueue f data hfit, ?_⟩
      constructor
      · exact h.ring.written hcap hroom
      · exact h.capacity
      · rw [content_written h.ring hcap hroom, h.content]
        rfl
  | @read _ dest dest' off n hn hoff hread =>
      cases (circularBufferRead_eq h.ring hcap hn hoff).symm.trans hread
      have hlen : (f.items.take n).length = n := by
        rw [List.length_take, ← h.size_eq]
        omega
      rw [window_eq_take_content s hn, h.content, take_drop_splice hlen hoff]
      refine ⟨f.dequeue n, .dequeue f n, ?_⟩
      constructor
      · exact h.ring.popped hn
      · exact h.capacity
      · rw [if_pos rfl, content_popped h.ring hn, h.content]
        rfl

theorem HoldsBytes.run (hM : 0 < M) (h : HoldsBytes s f) {ops : List (Move Shared (Label UInt8))}
    (htrace : Trace RingStep s ops t) :
    ∃ as g, Trace BoundedFifo.Step f as g ∧ as.map Move.label = ops.map Move.label ∧
      HoldsBytes t g := by
  have hmoves : ∀ m : Move Shared (Label UInt8), True → RingStep m.pre m.label m.post →
      ∀ f : ByteStore M, HoldsBytes m.pre f → ∃ as g, Trace BoundedFifo.Step f as g ∧
        as.map Move.label = [m.label] ∧ HoldsBytes m.post g := by
    intro m _ hstep f hf
    obtain ⟨g, habstract, hg⟩ := hf.step hM hstep
    exact ⟨_, g, .single habstract, rfl, hg⟩
  rw [List.map_eq_flatMap (l := ops)]
  exact htrace.simulate hmoves (fun _ _ => trivial) h

/-- What has been read, followed by what is there, is what was there, followed by what has been
written. -/
theorem bytes_conserved (hM : 0 < M) (h : HoldsBytes s f) {ops : List (Move Shared (Label UInt8))}
    (htrace : Trace RingStep s ops t) :
    bytesRead ops ++ t.content = s.content ++ bytesWritten ops := by
  obtain ⟨as, g, habstract, hlabels, hg⟩ := h.run hM htrace
  have hconserved := BoundedFifo.conservation habstract
  rw [hlabels, ← hg.content, ← h.content] at hconserved
  exact hconserved

end Steps

/-- Within its bounds the ring is a queue of bytes, for single operations and for any sequence
of writes and popping reads. -/
theorem byte_ring_is_queue {s : Shared} (h : s.RingOk) (hM : 1 ≤ s.queue.maxSizeBytes) :
    (∀ data : Bytes, s.queue.size + data.length ≤ s.queue.maxSizeBytes → ∃ t,
      circularBufferWrite s data data.length = .ok t ∧ t.content = s.content ++ data ∧
      t.queue.head = s.queue.head ∧ t.queue.maxSizeBytes = s.queue.maxSizeBytes ∧ t.RingOk ∧
      ∀ i, (∀ j < data.length, i ≠ (s.queue.tail + j) % s.queue.maxSizeBytes) →
        t.buffer[i]? = s.buffer[i]?) ∧
    (∀ (dest : Bytes) (off n : ℕ), n ≤ s.queue.size → off + n ≤ dest.length →
      circularBufferRead s dest off n false = .ok (s, splice dest off (s.content.take n)) ∧
      ∃ t, circularBufferRead s dest off n true = .ok (t, splice dest off (s.content.take n)) ∧
        t.content = s.content.drop n ∧ t.buffer = s.buffer ∧
        t.queue.maxSizeBytes = s.queue.maxSizeBytes ∧ t.RingOk) ∧
    (∀ (ops : List (Move Shared (Label UInt8))) (t : Shared), Trace RingStep s ops t →
      t.RingOk ∧ bytesRead ops ++ t.content = s.content ++ bytesWritten ops ∧
      (s.queue.size = 0 → bytesRead ops <+: bytesWritten ops ∧
        t.content = (bytesWritten ops).drop (bytesRead ops).length)) := by
  refine ⟨?_, ?_, ?_⟩
  · intro data hd
    refine ⟨_, circularBufferWrite_eq h hM hd, content_written h hM hd, rfl, rfl,
      h.written hM hd, ?_⟩
    intro i hi
    have htail := h.tail_lt hM
    have hlen := h.length_buffer
    rw [← hlen] at htail hi
    exact getElem?_overwrite_of_ne htail (by omega) hi
  · intro dest off n hn hoff
    have hread : ∀ pop : Bool, circularBufferRead s dest off n pop =
        .ok (if pop then s.popped n else s, splice dest off (s.content.take n)) := by
      intro pop
      rw [← window_eq_take_content s hn]
      exact circularBufferRead_eq h hM hn hoff
    exact ⟨hread false, _, hread true, content_popped h hn, rfl, rfl, h.popped hn⟩
  · intro ops t htrace
    obtain ⟨f, hf⟩ := h.holds
    obtain ⟨-, g, -, -, hg⟩ := hf.run hM htrace
    have hconserved := bytes_conserved hM hf htrace
    refine ⟨hg.ring, hconserved, ?_⟩
    intro hempty
    have hnil : s.content = [] := by
      rw [← List.length_eq_zero_iff, h.length_content, hempty]
    rw [hnil, List.nil_append] at hconserved
    constructor
    · exact ⟨t.content, hconserved⟩
    · rw [← hconserved, List.drop_left]

/-- Four bytes lie around the end of a ring of eight; four more fill it, and three are taken. -/
theorem byte_ring_is_queue_wrapped :
    ∃ t u, circularBufferWrite ⟨⟨8, 5, 6, 2, 4, 1, 0, 0⟩, [3, 4, 0, 0, 0, 0, 1, 2]⟩ [5, 6, 7, 8] 4 =
        .ok t ∧ t.content = [1, 2, 3, 4, 5, 6, 7, 8] ∧ t.queue.head = 6 ∧ t.RingOk ∧
      (∀ i, (∀ j < 4, i ≠ (2 + j) % 8) → t.buffer[i]? = [3, 4, 0, 0, 0, 0, 1, 2][i]?) ∧
      circularBufferRead ⟨⟨8, 5, 6, 2, 4, 1, 0, 0⟩, [3, 4, 0, 0, 0, 0, 1, 2]⟩ [0, 0, 0, 0] 0 3 true =
        .ok (u, [1, 2, 3, 0]) ∧ u.content = [4] ∧ u.RingOk := by
  have hring : Shared.RingOk ⟨⟨8, 5, 6, 2, 4, 1, 0, 0⟩, [3, 4, 0, 0, 0, 0, 1, 2]⟩ :=
    ⟨rfl, by decide, fun _ => by decide, by decide, rfl⟩
  obtain ⟨hwrites, hreads, -⟩ := byte_ring_is_queue hring (by decide)
  obtain ⟨t, hwrite, hcontent, hhead, -, hok, hframe⟩ := hwrites [5, 6, 7, 8] (by decide)
  obtain ⟨-, u, hread, hleft, -, -, hok'⟩ := hreads [0, 0, 0, 0] 0 3 (by decide) (by decide)
  exact ⟨t, u, hwrite, hcontent, hhead, hok, hframe, hread, hleft, hok'⟩

end FasterFifo
