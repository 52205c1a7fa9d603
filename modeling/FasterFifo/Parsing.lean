import FasterFifo.Python
import FasterFifo.Contracts
import Mathlib.Data.List.Forall2

/-! `queue_put` frames the pickles of a batch, and `get_many` parses them out of the receive buffer:
in front of frames it yields their objects, whatever the buffer holds behind them. -/
namespace FasterFifo
open CheckedMemory Framing Monitor
open BoundedFifo (total total_cons total_nil)

variable {α : Type} {S : Serializer α}

/-- The object is pickled to the message and unpickled from it. -/
def Serializer.Pickles (S : Serializer α) (x : α) (m : Bytes) : Prop :=
  S.dumps x = some m ∧ S.loads m = some x

/-- The message is unpickled to the object. -/
def Serializer.Loads (S : Serializer α) (x : α) (m : Bytes) : Prop := S.loads m = some x

theorem loads_of_pickles {xs : List α} {ms : List Bytes} (h : List.Forall₂ S.Pickles xs ms) :
    List.Forall₂ S.Loads xs ms := h.imp fun _ _ hx => hx.2

theorem forall₂_of_loads {ms : List Bytes} (h : ∀ m ∈ ms, ∃ x, S.loads m = some x) :
    ∃ xs, List.Forall₂ S.Loads xs ms := by
  induction ms with
  | nil => exact ⟨[], .nil⟩
  | cons m ms ih =>
      obtain ⟨x, hx⟩ := h m List.mem_cons_self
      obtain ⟨xs, hxs⟩ := ih fun m hm => h m (List.mem_cons_of_mem _ hm)
      exact ⟨x :: xs, .cons hx hxs⟩

/-- `loads(dumps(x)) = x`. -/
def Serializer.RoundTrips (S : Serializer α) (xs : List α) : Prop :=
  ∀ x ∈ xs, ∀ m, S.dumps x = some m → S.loads m = some x

instance [DecidableEq α] (S : Serializer α) (xs : List α) : Decidable (S.RoundTrips xs) :=
  decidable_of_iff (∀ x ∈ xs, (S.dumps x).all (fun m => decide (S.loads m = some x)) = true)
    (by simp only [Serializer.RoundTrips, Option.all_eq_true, decide_eq_true_eq])

theorem dumpsAll_pickles {xs : List α} {ms : List Bytes} (h : S.RoundTrips xs)
    (hdumps : dumpsAll S xs = .ok ms) : List.Forall₂ S.Pickles xs ms := by
  induction xs generalizing ms with
  | nil =>
      cases hdumps
      exact .nil
  | cons x xs ih =>
      rw [dumpsAll] at hdumps
      split at hdumps
      · cases hdumps
      · rename_i m hm
        cases hrest : dumpsAll S xs with
        | error e =>
            rw [hrest] at hdumps
            cases hdumps
        | ok rest =>
            rw [hrest] at hdumps
            cases hdumps
            refine .cons ⟨hm, h x List.mem_cons_self m hm⟩ (ih ?_ hrest)
            exact fun y hy => h y (List.mem_cons_of_mem x hy)

theorem prepare_pickles {xs : PutMessages α} {ms : List Bytes} (h : S.RoundTrips xs.objects)
    (hprepare : prepare S xs = .ok ms) : List.Forall₂ S.Pickles xs.objects ms := by
  cases xs with
  | list xs => exact dumpsAll_pickles h hprepare
  | tuple xs => exact dumpsAll_pickles h hprepare
  | other typeName => cases hprepare

theorem dumpsAll_error {xs : List α} {e : PyError} (h : dumpsAll S xs = .error e) :
    e = .dumpsFailed := by
  induction xs with
  | nil => cases h
  | cons x xs ih =>
      rw [dumpsAll] at h
      split at h
      · cases h
        rfl
      · cases hrest : dumpsAll S xs with
        | error e' =>
            rw [hrest] at h
            cases h
            exact ih hrest
        | ok rest =>
            rw [hrest] at h
            cases h

theorem parseLoop_round {msgBuffer rest m : Bytes} {ms : List Bytes} {offset : ℕ}
    (hm : m.length < sizeT.bound)
    (hbuffer : msgBuffer.drop offset = frames sizeT (m :: ms) ++ rest) (n : ℕ) :
    msgBuffer.drop (offset + msgWeight m) = frames sizeT ms ++ rest ∧
      parseLoop S msgBuffer (n + 1) offset =
        match S.loads m with
        | none => .error .loadsFailed
        | some x => (parseLoop S msgBuffer n (offset + msgWeight m)).map fun r => (x :: r.1, r.2) := by
  have hwidth : (sizeT.encode m.length).length = sizeofSizeT := sizeT.length_encode _
  rw [frames_cons, frame, List.append_assoc, List.append_assoc] at hbuffer
  have hroom : ¬msgBuffer.length < offset + sizeofSizeT := by
    have hcount := congrArg List.length hbuffer
    rw [List.length_drop, List.length_append, hwidth, sizeofSizeT] at hcount
    rw [sizeofSizeT]
    omega
  have hheader : (msgBuffer.drop offset).take sizeofSizeT = sizeT.encode m.length := by
    rw [hbuffer]
    exact List.take_left' hwidth
  have hpayload : msgBuffer.drop (offset + sizeofSizeT) = m ++ (frames sizeT ms ++ rest) := by
    rw [← List.drop_drop, hbuffer]
    exact List.drop_left' hwidth
  have hnext : msgBuffer.drop (offset + msgWeight m) = frames sizeT ms ++ rest := by
    rw [msgWeight, ← Nat.add_assoc, ← List.drop_drop, hpayload]
    exact List.drop_left' rfl
  refine ⟨hnext, ?_⟩
  rw [parseLoop, if_neg hroom]
  simp only [hheader, sizeT.decode_encode _ hm, hpayload, List.take_left]
  have hsum : offset + sizeofSizeT + m.length = offset + msgWeight m := Nat.add_assoc _ _ _
  cases S.loads m with
  | none => rfl
  | some x =>
      exact congrArg (fun k => (parseLoop S msgBuffer n k).map fun r => (x :: r.1, r.2)) hsum

/-- The parser follows the frames from any offset on. -/
theorem parseLoop_frames {msgBuffer rest : Bytes} {offset : ℕ} {xs : List α} {ms : List Bytes}
    (hlen : ∀ m ∈ ms, m.length < sizeT.bound) (hxs : List.Forall₂ S.Loads xs ms)
    (hbuffer : msgBuffer.drop offset = frames sizeT ms ++ rest) :
    parseLoop S msgBuffer ms.length offset = .ok (xs, offset + total msgWeight ms) := by
  induction hxs generalizing offset with
  | nil => rfl
  | @cons x m xs ms hx hxs ih =>
      have hm : m.length < sizeT.bound := hlen m List.mem_cons_self
      obtain ⟨hnext, hround⟩ := parseLoop_round (S := S) hm hbuffer ms.length
      have hloads : S.loads m = some x := hx
      rw [List.length_cons, hround, hloads]
      simp only [ih (fun m hm => hlen m (List.mem_cons_of_mem _ hm)) hnext, Except.map,
        total_cons, Nat.add_assoc]

theorem parseLoop_fails {msgBuffer rest : Bytes} {offset : ℕ} {ms : List Bytes}
    (hlen : ∀ m ∈ ms, m.length < sizeT.bound) (hbad : ∃ m ∈ ms, S.loads m = none)
    (hbuffer : msgBuffer.drop offset = frames sizeT ms ++ rest) :
    parseLoop S msgBuffer ms.length offset = .error .loadsFailed := by
  induction ms generalizing offset with
  | nil =>
      obtain ⟨m, hm, -⟩ := hbad
      cases hm
  | cons m ms ih =>
      have hm := hlen m List.mem_cons_self
      obtain ⟨hnext, hround⟩ := parseLoop_round (S := S) hm hbuffer ms.length
      rw [List.length_cons, hround]
      cases hloads : S.loads m with
      | none => rfl
      | some x =>
          have hrest : ∃ m ∈ ms, S.loads m = none := by
            obtain ⟨bad, hmem, hnone⟩ := hbad
            rcases List.mem_cons.mp hmem with rfl | hmem
            · rw [hnone] at hloads
              cases hloads
            · exact ⟨bad, hmem, hnone⟩
          dsimp only
          rw [ih (fun m hm => hlen m (List.mem_cons_of_mem _ hm)) hrest hnext]
          rfl

theorem drop_zero_of_take {msgBuffer : Bytes} {ms : List Bytes}
    (hbuffer : msgBuffer.take (total msgWeight ms) = frames sizeT ms) :
    msgBuffer.drop 0 = frames sizeT ms ++ msgBuffer.drop (total msgWeight ms) := by
  rw [← hbuffer, List.drop_zero, List.take_append_drop]

theorem parseMessages_frames {msgBuffer : Bytes} {xs : List α} {ms : List Bytes}
    (hlen : ∀ m ∈ ms, m.length < sizeT.bound) (hxs : List.Forall₂ S.Loads xs ms)
    (hbuffer : msgBuffer.take (total msgWeight ms) = frames sizeT ms) :
    parseMessages S ms.length (total msgWeight ms) msgBuffer = .ok xs := by
  rw [parseMessages, parseLoop_frames hlen hxs (drop_zero_of_take hbuffer)]
  simp only [Nat.zero_add, ne_eq, not_true_eq_false, if_false]

theorem parseMessages_fails {msgBuffer : Bytes} {ms : List Bytes}
    (hlen : ∀ m ∈ ms, m.length < sizeT.bound) (hbad : ∃ m ∈ ms, S.loads m = none)
    (hbuffer : msgBuffer.take (total msgWeight ms) = frames sizeT ms) :
    parseMessages S ms.length (total msgWeight ms) msgBuffer = .error .loadsFailed := by
  rw [parseMessages, parseLoop_fails hlen hbad (drop_zero_of_take hbuffer)]

/-- The result of a `queue_get` that read the messages `ms`. -/
structure GetResult.Holds (r : GetResult) (ms : List Bytes) : Prop where
  lengths : ∀ m ∈ ms, m.length < sizeT.bound
  ne_nil : ms ≠ []
  status : r.status = .success ∨ r.status = .msgBufferTooSmall
  read : r.messagesRead = ms.length
  bytes : r.bytesRead = total msgWeight ms
  buffer : r.msgBuffer.take r.bytesRead = frames sizeT ms

section Finish
variable {caller current : GetManyArgs} {r : GetResult} {ms : List Bytes}

theorem finishGet_read (h : r.Holds ms) :
    finishGet S caller current r =
      match parseMessages S ms.length (total msgWeight ms) r.msgBuffer with
      | .error e => ⟨.idle, .raised e, some r.msgBuffer⟩
      | .ok messages =>
          if r.status = .msgBufferTooSmall then
            ⟨.idle, .got messages, some (reallocateMsgBuffer (grownSize r.messagesSize))⟩
          else ⟨.idle, .got messages, some r.msgBuffer⟩ := by
  have hcount : ¬r.messagesRead ≤ 0 := by
    rw [h.read, Nat.le_zero, List.length_eq_zero_iff]
    exact h.ne_nil
  have hsize : ¬r.bytesRead ≤ 0 := by
    have hle := mul_length_le_weight ms
    rw [h.bytes]
    rw [h.read] at hcount
    simp only [sizeofSizeT] at hle
    omega
  rw [← h.read, ← h.bytes, finishGet, if_neg fun hnone => hcount hnone.2, if_pos h.status]
  exact if_neg fun hnone => hnone.elim hcount hsize

theorem finishGet_got {xs : List α} (h : r.Holds ms) (hxs : List.Forall₂ S.Loads xs ms) :
    (finishGet S caller current r).outcome = .got xs := by
  have hbuffer := h.buffer
  rw [h.bytes] at hbuffer
  rw [finishGet_read h, parseMessages_frames h.lengths hxs hbuffer]
  dsimp only
  split <;> rfl

/-- What was read ends the call: its objects are returned, or one of them cannot be unpickled. -/
theorem finishGet_ends (S : Serializer α) (caller current : GetManyArgs) (h : r.Holds ms) :
    (finishGet S caller current r).activity = .idle ∧
      ((∃ xs, List.Forall₂ S.Loads xs ms ∧ (finishGet S caller current r).outcome = .got xs) ∨
        (∃ m ∈ ms, S.loads m = none) ∧
          (finishGet S caller current r).outcome = .raised .loadsFailed) := by
  constructor
  · rw [finishGet_read h]
    split
    · rfl
    · split <;> rfl
  · by_cases hbad : ∃ m ∈ ms, S.loads m = none
    · have hbuffer := h.buffer
      rw [h.bytes] at hbuffer
      refine .inr ⟨hbad, ?_⟩
      rw [finishGet_read h, parseMessages_fails h.lengths hbad hbuffer]
    · have hloads : ∀ m ∈ ms, ∃ x, S.loads m = some x := by
        intro m hm
        exact Option.ne_none_iff_exists'.mp fun hnone => hbad ⟨m, hm, hnone⟩
      obtain ⟨xs, hxs⟩ := forall₂_of_loads hloads
      exact .inl ⟨xs, hxs, finishGet_got h hxs⟩

theorem finishGet_retry (hstatus : r.status = .msgBufferTooSmall) (hread : r.messagesRead = 0) :
    (finishGet S caller current r).outcome = .pending := by
  rw [finishGet, if_pos ⟨hstatus, Nat.le_of_eq hread⟩]

theorem finishGet_retrying {caller' last : GetManyArgs}
    (h : (finishGet S caller current r).activity = .retrying caller' last) :
    caller' = caller ∧ last = current := by
  unfold finishGet at h
  split at h
  · cases h
    exact ⟨rfl, rfl⟩
  · split at h
    · dsimp only at h
      split at h
      · cases h
      · split at h
        · cases h
        · split at h <;> cases h
    · split at h <;> cases h

end Finish

section Served
variable {M N : ℕ} {s : Shared} {f : MessageStore M N} {a : GetArgs} {xs : List α}

theorem refuses_of_serves_none (hne : f.items ≠ []) (hK : 1 ≤ a.maxMessagesToGet)
    (hX : 1 ≤ a.maxBytesToGet) (hk : a.serves (a.start s) f.items = 0) :
    a.refuses (a.start s) f.items := by
  rw [GetArgs.refuses, hk, List.take_zero, total_nil]
  exact ⟨hK, hX, List.length_pos_of_ne_nil hne⟩

theorem served_holds (h : Represents s f) (hk : a.serves (a.start s) f.items ≠ 0) :
    ((a.start s).served a f.items).result.Holds
      (f.items.take (a.serves (a.start s) f.items)) := by
  have hcount := length_take_serves a (a.start s) f.items
  rw [served_result]
  constructor
  · intro m hm
    exact h.length_lt (List.mem_of_mem_take hm)
  · intro hnil
    rw [hnil] at hcount
    exact hk hcount.symm
  · by_cases hr : a.refuses (a.start s) f.items
    · exact .inr (if_pos hr)
    · exact .inl (if_neg hr)
  · exact hcount.symm
  · rfl
  · exact List.take_left' (length_frames_eq _)

/-- The outcome of `get_many` after `queue_get` has found messages; the bytes of the receive
buffer behind the frames just read have no part in it. -/
theorem finishGet_served (caller current : GetManyArgs) (h : Represents s f) (hne : f.items ≠ [])
    (hK : 1 ≤ a.maxMessagesToGet) (hX : 1 ≤ a.maxBytesToGet)
    (hxs : List.Forall₂ S.Pickles xs f.items) {msgBuffer : Bytes}
    (hsame : msgBuffer.take ((a.start s).served a f.items).result.bytesRead =
      ((a.start s).served a f.items).result.msgBuffer.take
        ((a.start s).served a f.items).result.bytesRead) :
    (finishGet S caller current
      { ((a.start s).served a f.items).result with msgBuffer := msgBuffer }).outcome =
      if a.serves (a.start s) f.items = 0 then .pending
      else .got (xs.take (a.serves (a.start s) f.items)) := by
  by_cases hk : a.serves (a.start s) f.items = 0
  · rw [if_pos hk, served_result]
    exact finishGet_retry (if_pos (refuses_of_serves_none hne hK hX hk)) hk
  · rw [if_neg hk]
    have hholds := served_holds (a := a) h hk
    exact finishGet_got { hholds with buffer := hsame.trans hholds.buffer }
      (loads_of_pickles (List.forall₂_take _ hxs))

end Served
end FasterFifo
