import Mathlib.Data.List.Rotate

/-! A list of fixed length read as a ring, where position `start + i` is taken modulo the length:
overwrites that continue at the front, and windows, by way of `List.rotate`. -/
namespace CyclicBuffer
variable {β : Type*}

/-- Overwrite the elements from `pos` on with `src`. -/
def splice (dst : List β) (pos : ℕ) (src : List β) : List β :=
  dst.take pos ++ src ++ dst.drop (pos + src.length)

/-- The `n` elements met when the ring is walked from `start`. -/
def window (ring : List β) (start n : ℕ) : List β := (ring.rotate start).take n

/-- Overwrite `data.length` ring elements from `start` on, in at most two pieces. -/
def overwrite (ring : List β) (start : ℕ) (data : List β) : List β :=
  if start + data.length < ring.length then splice ring start data
  else splice (splice ring start (data.take (ring.length - start))) 0
    (data.drop (ring.length - start))

theorem length_splice {dst src : List β} {pos : ℕ} (h : pos + src.length ≤ dst.length) :
    (splice dst pos src).length = dst.length := by
  simp only [splice, List.length_append, List.length_take, List.length_drop]
  omega

@[simp] theorem splice_nil (dst : List β) (pos : ℕ) : splice dst pos [] = dst := by
  simp [splice]

theorem length_take_append {dst src : List β} {pos : ℕ} (h : pos ≤ dst.length) :
    (dst.take pos ++ src).length = pos + src.length := by
  simp only [List.length_append, List.length_take]
  omega

theorem take_splice {dst src : List β} {pos : ℕ} (h : pos + src.length ≤ dst.length) :
    (splice dst pos src).take (pos + src.length) = dst.take pos ++ src :=
  List.take_left' (length_take_append (by omega))

theorem drop_splice {dst src : List β} {pos : ℕ} (h : pos + src.length ≤ dst.length) :
    (splice dst pos src).drop (pos + src.length) = dst.drop (pos + src.length) :=
  List.drop_left' (length_take_append (by omega))

theorem splice_append (dst a b : List β) (pos : ℕ)
    (h : pos + a.length + b.length ≤ dst.length) :
    splice (splice dst pos a) (pos + a.length) b = splice dst pos (a ++ b) := by
  have ha : pos + a.length ≤ dst.length := by omega
  rw [splice, take_splice ha, ← List.drop_drop, drop_splice ha, List.drop_drop]
  simp only [splice, List.length_append, List.append_assoc, Nat.add_assoc]

theorem length_overwrite {ring data : List β} {start : ℕ} (hs : start ≤ ring.length)
    (hd : data.length ≤ ring.length) : (overwrite ring start data).length = ring.length := by
  unfold overwrite
  split
  · exact length_splice (by omega)
  · have hfirst : (splice ring start (data.take (ring.length - start))).length = ring.length :=
      length_splice (by simp only [List.length_take]; omega)
    rw [length_splice, hfirst]
    rw [hfirst, List.length_drop]
    omega

theorem rotate_append {a b : List β} {n : ℕ} (h : a.length = n) : (a ++ b).rotate n = b ++ a := by
  rw [← h, List.rotate_append_length_eq]

theorem rotate_overwrite_self {ring data : List β} {start : ℕ} (hs : start ≤ ring.length)
    (hd : data.length ≤ ring.length) :
    (overwrite ring start data).rotate start = data ++ (ring.rotate start).drop data.length := by
  have htake : (ring.take start).length = start := by simp only [List.length_take]; omega
  rw [List.rotate_eq_drop_append_take hs]
  unfold overwrite
  split
  · rw [splice, List.append_assoc, rotate_append htake,
      List.drop_append_of_le_length (by simp only [List.length_drop]; omega), List.drop_drop,
      List.append_assoc]
  · -- the second piece is the front of the ring, and `start` lies beyond it
    have hpre : (data.take (ring.length - start)).length = ring.length - start := by
      simp only [List.length_take]; omega
    have hfirst : splice ring start (data.take (ring.length - start)) =
        ring.take start ++ data.take (ring.length - start) := by
      rw [splice, hpre, List.drop_eq_nil_of_le (by omega), List.append_nil]
    have hle : (data.drop (ring.length - start)).length ≤ (ring.take start).length := by
      simp only [List.length_take, List.length_drop]; omega
    have hnil : (ring.drop start).drop data.length = [] :=
      List.drop_eq_nil_of_le (by simp only [List.length_drop]; omega)
    rw [hfirst, splice, List.take_zero, List.nil_append, Nat.zero_add,
      List.drop_append_of_le_length hle, ← List.append_assoc, rotate_append]
    · rw [← List.append_assoc, List.take_append_drop, List.drop_append, hnil, List.nil_append,
        List.length_drop, List.length_drop]
    · simp only [List.length_append, List.length_drop, List.length_take]; omega

/-- Seen from `size` elements before its start, an overwrite replaces the
elements that follow the first `size`. -/
theorem rotate_overwrite {ring data : List β} {head size : ℕ} (hh : head < ring.length)
    (hd : size + data.length ≤ ring.length) :
    (overwrite ring ((head + size) % ring.length) data).rotate head =
      (ring.rotate head).take size ++ data ++ (ring.rotate head).drop (size + data.length) := by
  have hs : (head + size) % ring.length ≤ ring.length := (Nat.mod_lt _ (by omega)).le
  have hdata : data.length ≤ ring.length := by omega
  have hlen := length_overwrite hs hdata
  have hself := rotate_overwrite_self hs hdata
  have hmod : ∀ l : List β, l.length = ring.length →
      l.rotate ((head + size) % ring.length) = (l.rotate head).rotate size := by
    intro l hl
    rw [List.rotate_rotate, ← hl, List.rotate_mod]
  rw [hmod _ hlen, hmod ring rfl] at hself
  have hc : (ring.rotate head).length = ring.length := List.length_rotate ring head
  generalize ring.rotate head = c at hself hc ⊢
  have htake : (c.take size).length = size := by simp only [List.length_take]; omega
  -- both sides agree after a further rotation by `size`, and rotation is injective
  apply List.rotate_injective size
  simp only
  rw [hself, List.append_assoc, rotate_append htake, List.rotate_eq_drop_append_take (by omega),
    List.drop_append_of_le_length (by simp only [List.length_drop]; omega), List.drop_drop,
    List.append_assoc]

theorem length_window {ring : List β} {start n : ℕ} (h : n ≤ ring.length) :
    (window ring start n).length = n := by
  simp only [window, List.length_take, List.length_rotate]
  omega

theorem take_window (ring : List β) (start n k : ℕ) :
    (window ring start n).take k = window ring start (min k n) := by
  rw [window, window, List.take_take]

theorem window_drop {ring : List β} (start : ℕ) {n k : ℕ} (hk : k ≤ n) (hn : n ≤ ring.length) :
    window ring (start + k) (n - k) = (window ring start n).drop k := by
  have hlen : k ≤ (ring.rotate start).length := by rw [List.length_rotate]; omega
  rw [window, window, ← List.rotate_rotate, List.rotate_eq_drop_append_take hlen, List.drop_take,
    List.take_append_of_le_length]
  simp only [List.length_drop, List.length_rotate]
  omega

theorem window_mod (ring : List β) (start n : ℕ) :
    window ring (start % ring.length) n = window ring start n := by
  rw [window, List.rotate_mod, window]

/-- The two-piece copy out of the ring. -/
theorem window_eq {ring : List β} {start n : ℕ} (hs : start ≤ ring.length) (hn : n ≤ ring.length) :
    window ring start n =
      (ring.drop start).take n ++ ring.take (n - (ring.length - start)) := by
  rw [window, List.rotate_eq_drop_append_take hs, List.take_append, List.take_take,
    List.length_drop]
  congr 2
  omega

theorem getElem?_window {ring : List β} {start n i : ℕ} (hi : i < n) (hn : n ≤ ring.length) :
    (window ring start n)[i]? = ring[(start + i) % ring.length]? := by
  rw [window, List.getElem?_take_of_lt hi, List.getElem?_rotate (by omega), Nat.add_comm]

/-- Overwriting just past a window extends it by the data. -/
theorem window_overwrite {ring data : List β} {head size : ℕ} (hh : head < ring.length)
    (hd : size + data.length ≤ ring.length) :
    window (overwrite ring ((head + size) % ring.length) data) head (size + data.length) =
      window ring head size ++ data := by
  rw [window, rotate_overwrite hh hd, List.take_left', window]
  simp only [List.length_append, List.length_take, List.length_rotate]
  omega

theorem getElem?_overwrite_of_lt {ring data : List β} {head size i : ℕ} (hh : head < ring.length)
    (hd : size + data.length ≤ ring.length) (hi : i < size) :
    (overwrite ring ((head + size) % ring.length) data)[(head + i) % ring.length]? =
      ring[(head + i) % ring.length]? := by
  have hs : (head + size) % ring.length ≤ ring.length := (Nat.mod_lt _ (by omega)).le
  have hdata : data.length ≤ ring.length := by omega
  have hlen := length_overwrite hs hdata
  have hnew : (overwrite ring ((head + size) % ring.length) data)[(head + i) % ring.length]? =
      (window (overwrite ring ((head + size) % ring.length) data) head
        (size + data.length))[i]? := by
    rw [getElem?_window (by omega) (by omega), hlen]
  rw [hnew, window_overwrite hh hd, List.getElem?_append_left, getElem?_window hi (by omega)]
  rw [length_window (by omega)]
  exact hi

/-- Walking once around the ring meets every position. -/
theorem exists_offset {len start i : ℕ} (hs : start < len) (hi : i < len) :
    ∃ k < len, i = (start + k) % len := by
  by_cases hle : start ≤ i
  · refine ⟨i - start, by omega, ?_⟩
    rw [Nat.add_sub_cancel' hle, Nat.mod_eq_of_lt hi]
  · refine ⟨i + len - start, by omega, ?_⟩
    rw [Nat.add_sub_cancel' (by omega), Nat.add_mod_right, Nat.mod_eq_of_lt hi]

theorem getElem?_overwrite_of_ne {ring data : List β} {start i : ℕ} (hs : start < ring.length)
    (hd : data.length ≤ ring.length) (hi : ∀ j < data.length, i ≠ (start + j) % ring.length) :
    (overwrite ring start data)[i]? = ring[i]? := by
  have hlen := length_overwrite hs.le hd
  by_cases hlt : i < ring.length
  · obtain ⟨k, hk, rfl⟩ := exists_offset hs hlt
    have hbehind : data.length ≤ k := by
      by_contra hin
      exact hi k (Nat.lt_of_not_le hin) rfl
    have hself := congrArg (fun l => l[k]?) (rotate_overwrite_self hs.le hd)
    rw [List.getElem?_rotate (by omega), hlen, List.getElem?_append_right hbehind,
      List.getElem?_drop, Nat.add_sub_cancel' hbehind, List.getElem?_rotate hk] at hself
    rwa [Nat.add_comm]
  · rw [List.getElem?_eq_none (by omega), List.getElem?_eq_none (by omega)]

end CyclicBuffer
