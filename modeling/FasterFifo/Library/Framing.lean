import Mathlib.Algebra.Order.BigOperators.Group.List
import Mathlib.Tactic.Ring

/-! Frames with a header of fixed width that holds the length of the payload. The codec of the
header is a parameter whose round trip is a field; `littleEndian` is one. -/
namespace Framing
variable {β : Type*}

/-- A fixed-width encoding of the numbers below `bound`. -/
structure HeaderCodec (β : Type*) where
  width : ℕ
  bound : ℕ
  encode : ℕ → List β
  decode : List β → ℕ
  length_encode : ∀ n, (encode n).length = width
  decode_encode : ∀ n, n < bound → decode (encode n) = n

def frame (c : HeaderCodec β) (m : List β) : List β := c.encode m.length ++ m

def frames (c : HeaderCodec β) (ms : List (List β)) : List β := ms.flatMap (frame c)

/-- The first `k` frames of a stream and what follows them; `none` when the stream ends early. -/
def splitFrames (c : HeaderCodec β) : ℕ → List β → Option (List (List β) × List β)
  | 0, stream => some ([], stream)
  | k+1, stream =>
      let payload := stream.drop c.width
      let len := c.decode (stream.take c.width)
      if stream.length < c.width ∨ payload.length < len then none
      else (splitFrames c k (payload.drop len)).map fun r => (payload.take len :: r.1, r.2)

theorem length_frame (c : HeaderCodec β) (m : List β) :
    (frame c m).length = c.width + m.length := by
  simp only [frame, List.length_append, c.length_encode]

@[simp] theorem frames_nil (c : HeaderCodec β) : frames c [] = [] := rfl

@[simp] theorem frames_cons (c : HeaderCodec β) (m : List β) (ms : List (List β)) :
    frames c (m :: ms) = frame c m ++ frames c ms := rfl

@[simp] theorem frames_append (c : HeaderCodec β) (ms ns : List (List β)) :
    frames c (ms ++ ns) = frames c ms ++ frames c ns := List.flatMap_append

theorem length_frames (c : HeaderCodec β) (ms : List (List β)) :
    (frames c ms).length = (ms.map fun m => c.width + m.length).sum := by
  induction ms with
  | nil => rfl
  | cons m ms ih =>
      rw [frames_cons, List.length_append, length_frame, ih, List.map_cons, List.sum_cons]

theorem frames_eq_nil_iff {c : HeaderCodec β} (hw : 0 < c.width) {ms : List (List β)} :
    (frames c ms).length = 0 ↔ ms = [] := by
  cases ms with
  | nil => simp
  | cons m ms =>
      simp only [frames_cons, List.length_append, length_frame, reduceCtorEq, iff_false]
      omega

theorem take_frame_frames (c : HeaderCodec β) (m : List β) (ms : List (List β)) :
    (frames c (m :: ms)).take (c.width + m.length) = frame c m :=
  List.take_left' (length_frame c m)

/-- Reading back exactly the frames that were laid down. -/
theorem splitFrames_frames {c : HeaderCodec β} {ms : List (List β)}
    (h : ∀ m ∈ ms, m.length < c.bound) (rest : List β) :
    splitFrames c ms.length (frames c ms ++ rest) = some (ms, rest) := by
  induction ms with
  | nil => rfl
  | cons m ms ih =>
      have hm := h m List.mem_cons_self
      have hdrop : (frames c (m :: ms) ++ rest).drop c.width = m ++ (frames c ms ++ rest) := by
        rw [frames_cons, frame, List.append_assoc, List.append_assoc,
          List.drop_left' (c.length_encode _)]
      have htake : (frames c (m :: ms) ++ rest).take c.width = c.encode m.length := by
        rw [frames_cons, frame, List.append_assoc, List.append_assoc,
          List.take_left' (c.length_encode _)]
      have hlen : ¬((frames c (m :: ms) ++ rest).length < c.width ∨
          (m ++ (frames c ms ++ rest)).length < m.length) := by
        simp only [frames_cons, List.length_append, length_frame]
        omega
      simp only [List.length_cons, splitFrames, hdrop, htake, c.decode_encode _ hm, if_neg hlen,
        List.drop_left, List.take_left, ih fun x hx => h x (List.mem_cons_of_mem m hx),
        Option.map_some]

/-- Every header of the right width is the encoding of what it decodes to. -/
def HeaderCodec.Canonical (c : HeaderCodec β) : Prop :=
  ∀ hs, hs.length = c.width → c.decode hs < c.bound ∧ c.encode (c.decode hs) = hs

/-- What a canonical codec splits is what it would have laid down, and nothing else. -/
theorem splitFrames_eq_some_iff {c : HeaderCodec β} (hc : c.Canonical) {k : ℕ}
    {stream rest : List β} {ms : List (List β)} :
    splitFrames c k stream = some (ms, rest) ↔
      ms.length = k ∧ (∀ m ∈ ms, m.length < c.bound) ∧ stream = frames c ms ++ rest := by
  constructor
  · intro h
    induction k generalizing stream ms with
    | zero =>
        cases h
        exact ⟨rfl, fun m hm => absurd hm List.not_mem_nil, rfl⟩
    | succ k ih =>
        rw [splitFrames] at h
        split at h
        · cases h
        · rename_i hroom
          rw [not_or, not_lt, not_lt] at hroom
          obtain ⟨⟨ms', rest'⟩, htail, hr⟩ := Option.map_eq_some_iff.mp h
          cases hr
          obtain ⟨hk, hlen, hstream⟩ := ih htail
          obtain ⟨hbound, hencode⟩ := hc (stream.take c.width) (List.length_take_of_le hroom.1)
          have hm := List.length_take_of_le hroom.2
          refine ⟨congrArg Nat.succ hk, ?_, ?_⟩
          · intro m hmem
            rcases List.mem_cons.mp hmem with rfl | hmem
            · rwa [hm]
            · exact hlen m hmem
          · rw [frames_cons, frame, hm, hencode, List.append_assoc, List.append_assoc, ← hstream,
              List.take_append_drop, List.take_append_drop]
  · rintro ⟨rfl, hlen, rfl⟩
    exact splitFrames_frames hlen rest

/-- `w` little-endian base-256 digits. -/
def encodeLE : ℕ → ℕ → List UInt8
  | 0, _ => []
  | w+1, n => UInt8.ofNat (n % 256) :: encodeLE w (n / 256)

def decodeLE : List UInt8 → ℕ
  | [] => 0
  | b :: bs => b.toNat + 256 * decodeLE bs

theorem length_encodeLE (w n : ℕ) : (encodeLE w n).length = w := by
  induction w generalizing n with
  | zero => rfl
  | succ w ih => simp only [encodeLE, List.length_cons, ih]

theorem decodeLE_encodeLE (w n : ℕ) (h : n < 256 ^ w) : decodeLE (encodeLE w n) = n := by
  induction w generalizing n with
  | zero => simp only [Nat.pow_zero, Nat.lt_one_iff] at h; simp only [encodeLE, decodeLE, h]
  | succ w ih =>
      have hdiv : n / 256 < 256 ^ w := by
        rw [Nat.div_lt_iff_lt_mul (by decide), ← Nat.pow_succ]
        exact h
      have hdigit : (UInt8.ofNat (n % 256)).toNat = n % 256 := by
        simp only [UInt8.toNat_ofNat', Nat.reducePow, Nat.mod_mod]
      rw [encodeLE, decodeLE, ih _ hdiv, hdigit]
      omega

theorem decodeLE_lt (bs : List UInt8) : decodeLE bs < 256 ^ bs.length := by
  induction bs with
  | nil => decide
  | cons b bs ih =>
      have hb := b.toNat_lt
      rw [decodeLE, List.length_cons, Nat.pow_succ]
      omega

theorem encodeLE_decodeLE (bs : List UInt8) : encodeLE bs.length (decodeLE bs) = bs := by
  induction bs with
  | nil => rfl
  | cons b bs ih =>
      have hb := b.toNat_lt
      have hdigit : (b.toNat + 256 * decodeLE bs) % 256 = b.toNat := by omega
      have hrest : (b.toNat + 256 * decodeLE bs) / 256 = decodeLE bs := by omega
      rw [decodeLE, List.length_cons, encodeLE, hdigit, hrest, ih, UInt8.ofNat_toNat]

def littleEndian (w : ℕ) : HeaderCodec UInt8 where
  width := w
  bound := 256 ^ w
  encode := encodeLE w
  decode := decodeLE
  length_encode := length_encodeLE w
  decode_encode := decodeLE_encodeLE w

theorem littleEndian_canonical (w : ℕ) : (littleEndian w).Canonical := by
  rintro hs rfl
  exact ⟨decodeLE_lt hs, encodeLE_decodeLE hs⟩

end Framing
