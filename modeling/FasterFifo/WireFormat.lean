import FasterFifo.Parsing

/-! `parse_messages` trusts the counts that `queue_get` reported. It accepts the frames of exactly
so many messages, all of which can be unpickled, and there is only one such list. -/
namespace FasterFifo
open Framing
open BoundedFifo (total total_cons)

variable {α : Type} {S : Serializer α} {msgBuffer : Bytes} {n offset stop : ℕ} {xs : List α}

theorem sizeT_canonical : sizeT.Canonical := littleEndian_canonical sizeofSizeT

theorem frames_unique {ms ns : List Bytes} (hms : ∀ m ∈ ms, m.length < sizeT.bound)
    (hns : ∀ m ∈ ns, m.length < sizeT.bound) (hlen : ms.length = ns.length)
    (h : frames sizeT ms = frames sizeT ns) : ms = ns := by
  have hleft : splitFrames sizeT ns.length (frames sizeT ns) = some (ms, []) :=
    (splitFrames_eq_some_iff sizeT_canonical).mpr ⟨hlen, hms, by rw [h, List.append_nil]⟩
  have hright : splitFrames sizeT ns.length (frames sizeT ns) = some (ns, []) :=
    (splitFrames_eq_some_iff sizeT_canonical).mpr ⟨rfl, hns, by rw [List.append_nil]⟩
  rw [hleft] at hright
  cases hright
  rfl

/-- The parsed frames lie one behind the other between the first and the last offset. -/
theorem parseLoop_sound (h : parseLoop S msgBuffer n offset = .ok (xs, stop))
    (hstop : stop ≤ msgBuffer.length) :
    ∃ ms, ms.length = n ∧ (∀ m ∈ ms, m.length < sizeT.bound) ∧ List.Forall₂ S.Loads xs ms ∧
      stop = offset + total msgWeight ms ∧
      (msgBuffer.drop offset).take (total msgWeight ms) = frames sizeT ms := by
  induction n generalizing offset xs with
  | zero =>
      cases h
      exact ⟨[], rfl, fun m hm => absurd hm List.not_mem_nil, .nil, rfl, rfl⟩
  | succ n ih =>
      rw [parseLoop] at h
      split at h
      · cases h
      · rename_i hroom
        dsimp only at h
        split at h
        · cases h
        · rename_i x hx
          cases hrest : parseLoop S msgBuffer n (offset + sizeofSizeT +
              sizeT.decode ((msgBuffer.drop offset).take sizeofSizeT)) with
          | error e =>
              rw [hrest] at h
              cases h
          | ok r =>
              rw [hrest] at h
              cases h
              obtain ⟨ms, hk, hlen, hxs, hend, htail⟩ := ih hrest
              -- the header is canonical, and the payload is not cut short by the buffer's end
              have hheader : ((msgBuffer.drop offset).take sizeofSizeT).length = sizeofSizeT := by
                rw [List.length_take, List.length_drop]
                omega
              obtain ⟨hbound, hencode⟩ := sizeT_canonical _ hheader
              have hpayload : ((msgBuffer.drop (offset + sizeofSizeT)).take
                  (sizeT.decode ((msgBuffer.drop offset).take sizeofSizeT))).length =
                  sizeT.decode ((msgBuffer.drop offset).take sizeofSizeT) := by
                rw [List.length_take, List.length_drop]
                omega
              refine ⟨_ :: ms, congrArg Nat.succ hk, ?_, .cons hx hxs, ?_, ?_⟩
              · intro m hm
                rcases List.mem_cons.mp hm with rfl | hm
                · rw [hpayload]
                  exact hbound
                · exact hlen m hm
              · rw [hend, total_cons, msgWeight, hpayload]
                omega
              · rw [total_cons, msgWeight, hpayload]
                simp only [List.take_add, List.drop_drop, ← Nat.add_assoc]
                rw [htail, frames_cons, frame, hpayload, hencode]

/-- The parser accepts a receive buffer with the reported bytes exactly if these are the frames of
the reported number of messages, all of which can be unpickled; it yields their objects, and no
other messages have these frames. -/
theorem parse_messages_accepts {totalBytes : ℕ} (hbytes : totalBytes ≤ msgBuffer.length) :
    parseMessages S n totalBytes msgBuffer = .ok xs ↔
      ∃! ms, ms.length = n ∧ (∀ m ∈ ms, m.length < sizeT.bound) ∧
        msgBuffer.take totalBytes = frames sizeT ms ∧ List.Forall₂ S.Loads xs ms := by
  constructor
  · intro h
    rw [parseMessages] at h
    split at h
    · cases h
    · rename_i messages stop hloop
      split at h
      · cases h
      · rename_i hstop
        rw [ne_eq, not_not] at hstop
        cases h
        subst hstop
        obtain ⟨ms, hk, hlen, hxs, hend, hframes⟩ := parseLoop_sound hloop hbytes
        rw [Nat.zero_add] at hend
        rw [List.drop_zero, ← hend] at hframes
        refine ⟨ms, ⟨hk, hlen, hframes, hxs⟩, ?_⟩
        rintro ns ⟨hk', hlen', hframes', -⟩
        exact frames_unique hlen' hlen (hk'.trans hk.symm) (hframes'.symm.trans hframes)
  · rintro ⟨ms, ⟨rfl, hlen, hframes, hxs⟩, -⟩
    have htotal : totalBytes = total msgWeight ms := by
      rw [← length_frames_eq, ← hframes, List.length_take_of_le hbytes]
    subst htotal
    exact parseMessages_frames hlen hxs hframes

theorem parse_messages_accepts_stale :
    parseMessages (⟨some, some⟩ : Serializer Bytes) 1 9 [1, 0, 0, 0, 0, 0, 0, 0, 7, 255] =
        .ok [[7]] ∧
      ∃! ms : List Bytes, ms.length = 1 ∧ (∀ m ∈ ms, m.length < sizeT.bound) ∧
        ([1, 0, 0, 0, 0, 0, 0, 0, 7, 255] : Bytes).take 9 = frames sizeT ms ∧
        List.Forall₂ (⟨some, some⟩ : Serializer Bytes).Loads [[7]] ms := by
  have hparse : parseMessages (⟨some, some⟩ : Serializer Bytes) 1 9
      [1, 0, 0, 0, 0, 0, 0, 0, 7, 255] = .ok [[7]] := by rfl
  exact ⟨hparse, (parse_messages_accepts (by decide)).mp hparse⟩

end FasterFifo
