import FasterFifo.Contracts

/-! `total_size` and the sums of `can_fit` are formed in `size_t`: past 2^64 a batch is taken for
small whenever the residues are. `is_queue_full` puts to the check the smallest message that there
is. -/
namespace FasterFifo
open CheckedMemory Framing Monitor Transition
open BoundedFifo (total Store total_append total_cons total_nil)

variable {M N : ℕ} {s : Shared} {f : MessageStore M N}

/-- Neither of the two ring writes of one round reaches 2^64 in a sum. -/
def RoundInRange (t : Shared) (m : Bytes) : Prop :=
  t.queue.tail + sizeofSizeT < sizeModulus ∧ t.queue.size + sizeofSizeT < sizeModulus ∧
    ∀ u, circularBufferWrite t (sizeT.encode m.length) sizeofSizeT = .ok u →
      u.queue.tail + m.length < sizeModulus ∧ u.queue.size + m.length < sizeModulus

/-- A batch that passes `can_fit` fits as exact integers, and none of its writes wraps. -/
def RoomCheckExact (s : Shared) (a : PutArgs) : Prop :=
  s.queue.canFit (totalSize a.msgSizes) a.msgs.length = true →
    s.queue.size + total msgWeight a.msgs ≤ s.queue.maxSizeBytes ∧
    s.queue.numElem + a.msgs.length ≤ s.queue.maxsize ∧
    ∀ i m t, a.msgs[i]? = some m → writeMessages s (a.msgs.take i) = .ok t → RoundInRange t m

theorem canFit_residues (s : Shared) (a : PutArgs) :
    s.queue.canFit (totalSize a.msgSizes) a.msgs.length = true ↔
      (s.queue.size + total msgWeight a.msgs) % sizeModulus ≤ s.queue.maxSizeBytes ∧
      (s.queue.numElem + a.msgs.length) % sizeModulus ≤ s.queue.maxsize := by
  rw [Queue.canFit, Bool.and_eq_true, decide_eq_true_iff, decide_eq_true_iff, totalSize_eq,
    addSize, addSize, Nat.add_mod_mod]

theorem Represents.roundInRange (h : Represents s f) {m : Bytes} (hm : f.Fits [m]) :
    RoundInRange s m := by
  obtain ⟨hroom, hM⟩ := pushed_room h hm
  have hcap := h.ring.capacity_le
  have htail := h.ring.tail_lt hM
  have hheader := header_ring h hm
  have hwrite := circularBufferWrite_eq h.ring hM (header_room h hm)
  rw [length_header] at hwrite
  refine ⟨?_, ?_, ?_⟩
  · simp only [sizeModulus, sizeofSizeT] at *; omega
  · simp only [sizeModulus, sizeofSizeT] at *; omega
  · intro u hu
    cases hwrite.symm.trans hu
    have hnext := hheader.tail_lt hM
    rw [written_maxSizeBytes] at hnext
    rw [written_size, length_header]
    simp only [sizeModulus, sizeofSizeT] at *
    omega

theorem rounds_in_range (h : Represents s f) {batch : List Bytes} (hfit : f.Fits batch) {i : ℕ}
    {m : Bytes} {t : Shared} (hm : batch[i]? = some m)
    (hwrite : writeMessages s (batch.take i) = .ok t) : RoundInRange t m := by
  obtain ⟨hi, hget⟩ := List.getElem?_eq_some_iff.mp hm
  have hcut : batch.take i ++ (m :: batch.drop (i + 1)) = batch := by
    rw [← hget, ← List.drop_eq_getElem_cons hi, List.take_append_drop]
  rw [← hcut] at hfit
  obtain ⟨hok, hrep⟩ := writeMessages_eq h hfit.left
  cases hok.symm.trans hwrite
  exact hrep.roundInRange hfit.right.head

/-- The room check is exact precisely when the exact sum stays below 2^64, or its
residue or that of the count is over the limit all the same. -/
theorem room_check_exact_iff (h : Represents s f) (a : PutArgs) :
    RoomCheckExact s a ↔
      s.queue.size + total msgWeight a.msgs < sizeModulus ∨
      s.queue.maxSizeBytes < (s.queue.size + total msgWeight a.msgs) % sizeModulus ∨
      s.queue.maxsize < (s.queue.numElem + a.msgs.length) % sizeModulus := by
  have hnum := h.numElem_le
  have hcount := mul_length_le_weight a.msgs
  have hcap := h.ring.capacity_le
  rw [RoomCheckExact, canFit_residues]
  constructor
  · intro hexact
    by_contra hwrap
    simp only [not_or, not_lt] at hwrap
    have hroom := (hexact hwrap.2).1
    simp only [sizeModulus] at hwrap
    omega
  · rintro (hsum | hover | hover) hres
    · have hsmall : s.queue.numElem + a.msgs.length < sizeModulus := by
        simp only [sizeofSizeT] at hcount
        omega
      rw [Nat.mod_eq_of_lt hsum, Nat.mod_eq_of_lt hsmall] at hres
      have hfit : f.Fits a.msgs := by
        rw [Store.Fits, ← h.size_eq, ← h.numElem_eq, ← h.capacity, ← h.limit]
        exact hres
      exact ⟨hres.1, hres.2, fun i m t hm hwrite => rounds_in_range h hfit hm hwrite⟩
    · exact absurd hres.1 (Nat.not_le.mpr hover)
    · exact absurd hres.2 (Nat.not_le.mpr hover)

/-- One object put many times in one batch. -/
def repeatedBatch (n : ℕ) (m : Bytes) : PutArgs := ⟨List.replicate n m, false, 0⟩

theorem total_repeatedBatch (n : ℕ) (m : Bytes) :
    total msgWeight (repeatedBatch n m).msgs = n * msgWeight m := by
  rw [repeatedBatch, total, List.map_replicate, List.sum_replicate, smul_eq_mul]

/-- 2^29 times an object of 2^35 - 8 bytes has exact total 2^64, which is no size at all. -/
theorem residue_accepted {m : Bytes} (hm : m.length = 2 ^ 35 - 8) (hN : 2 ^ 29 ≤ N)
    (h : Represents s (Store.empty : MessageStore M N)) :
    ¬RoomCheckExact s (repeatedBatch (2 ^ 29) m) := by
  have htotal : total msgWeight (repeatedBatch (2 ^ 29) m).msgs = sizeModulus := by
    rw [total_repeatedBatch, msgWeight, hm]
    rfl
  have hlength : (repeatedBatch (2 ^ 29) m).msgs.length = 2 ^ 29 := List.length_replicate
  have hsize : s.queue.size = 0 := h.size_eq
  have hnum : s.queue.numElem = 0 := h.numElem_eq
  have hcap := h.ring.capacity_le
  have hlimit := h.limit
  intro hexact
  have haccepted := (canFit_residues s (repeatedBatch (2 ^ 29) m)).mpr (by
    rw [htotal, hlength, hsize, hnum, hlimit]
    exact ⟨Nat.zero_le _, hN⟩)
  have hroom := (hexact haccepted).1
  rw [htotal, hsize] at hroom
  exact absurd (hroom.trans hcap) (by decide)

/-- The default queue, empty, takes a batch of 2^64 bytes to fit. -/
theorem wrapping_batch_accepted :
    Represents (System.init (Fin 1) 1000000 1000000000 (List.replicate 1000000 0)).shared
        (Store.empty : MessageStore 1000000 1000000000) ∧
      (∀ m ∈ (repeatedBatch (2 ^ 29) (List.replicate (2 ^ 35 - 8) 0)).msgs,
        m.length ≤ 2 ^ 63 - 1) ∧
      ¬RoomCheckExact (System.init (Fin 1) 1000000 1000000000 (List.replicate 1000000 0)).shared
        (repeatedBatch (2 ^ 29) (List.replicate (2 ^ 35 - 8) 0)) := by
  have hrep : Represents (System.init (Fin 1) 1000000 1000000000 (List.replicate 1000000 0)).shared
      (Store.empty : MessageStore 1000000 1000000000) :=
    .init (by decide) List.length_replicate
  refine ⟨hrep, ?_, residue_accepted List.length_replicate (by decide) hrep⟩
  intro m hm
  rw [List.eq_of_mem_replicate hm, List.length_replicate]
  decide

theorem taken_run :
    ∃ (moves : List (Move (System (Fin 1)) (Event (Fin 1)))) (w : System (Fin 1)),
      BoundedRun 64 1000000000 (List.replicate 64 0) moves w ∧ w.shared.queue.size = 9 ∧
      w.shared.queue.numElem = 1 ∧ w.shared.queue.maxSizeBytes = 64 ∧
      w.shared.queue.maxsize = 1000000000 := by
  have hrun : (program.run (System.init (Fin 1) 64 1000000000 (List.replicate 64 0))
      [.enter 0 (.put ⟨[[7]], false, 0⟩) ⟨⟨0, 0⟩, ⟨0, 0⟩⟩ none]).any (fun r => decide
        ((∀ m ∈ r.1, BoundedEvent m.label) ∧ r.2.shared.queue.size = 9 ∧
        r.2.shared.queue.numElem = 1 ∧ r.2.shared.queue.maxSizeBytes = 64 ∧
        r.2.shared.queue.maxsize = 1000000000)) = true := by
    decide +kernel
  obtain ⟨moves, w, htrace, hw⟩ := reach_of_run hrun
  obtain ⟨hbounded, hrest⟩ := of_decide_eq_true hw
  exact ⟨moves, w, ⟨by decide, rfl, htrace, hbounded⟩, hrest⟩

/-- Behind the nine bytes, a batch of 2^64 bytes passes the check and one of 2^35 bytes less is
seen to be too large. -/
theorem room_check_exact_iff_taken :
    ∃ (moves : List (Move (System (Fin 1)) (Event (Fin 1)))) (w : System (Fin 1)),
      BoundedRun 64 1000000000 (List.replicate 64 0) moves w ∧ w.shared.queue.size = 9 ∧
      ¬RoomCheckExact w.shared (repeatedBatch (2 ^ 29) (List.replicate (2 ^ 35 - 8) 0)) ∧
      RoomCheckExact w.shared (repeatedBatch (2 ^ 29 - 1) (List.replicate (2 ^ 35 - 8) 0)) := by
  obtain ⟨moves, w, hrun, hsize, hnum, hcap, hlimit⟩ := taken_run
  obtain ⟨f, hf⟩ := hrun.sound
  have hweight : ∀ n, total msgWeight (repeatedBatch n (List.replicate (2 ^ 35 - 8) 0)).msgs =
      n * 2 ^ 35 := by
    intro n
    rw [total_repeatedBatch, msgWeight, List.length_replicate]
    rfl
  have hlength : ∀ n, (repeatedBatch n (List.replicate (2 ^ 35 - 8) 0)).msgs.length = n :=
    fun n => List.length_replicate
  refine ⟨moves, w, hrun, hsize, ?_, ?_⟩
  · rw [room_check_exact_iff hf.represents, hweight, hlength, hsize, hnum, hcap, hlimit]
    decide
  · rw [room_check_exact_iff hf.represents, hweight, hlength, hsize, hnum, hcap, hlimit]
    decide

section Full

theorem not_full_iff (h : Represents s f) {m : Bytes} (hm : m.length = 1) :
    isQueueFull s = false ↔ f.Fits [m] := by
  have htotal : total msgWeight [m] = 9 := by
    rw [total_cons, total_nil, msgWeight, hm]
    rfl
  have hsizes : totalSize [m.length] = 9 := by
    rw [hm]
    rfl
  have hprobe := canFit_iff h (a := ⟨[m], false, 0⟩) (by rw [htotal]; decide)
  rw [← hprobe, PutArgs.msgSizes, List.map_singleton, hsizes]
  change (!s.queue.canFit 9 1) = false ↔ s.queue.canFit 9 1 = true
  rw [Bool.not_eq_false']

theorem probe_le_total {m : Bytes} (hm : m.length = 1) {batch : List Bytes} (hne : batch ≠ [])
    (hbatch : ∀ x ∈ batch, 1 ≤ x.length) : total msgWeight [m] ≤ total msgWeight batch := by
  cases batch with
  | nil => exact absurd rfl hne
  | cons x xs =>
      have hx := hbatch x List.mem_cons_self
      simp only [total_cons, total_nil, msgWeight, hm]
      omega

/-- In a full queue a put that may not wait is refused, whatever it brings. -/
theorem full_refuses (h : Represents s f) (hfull : isQueueFull s = true) {a : PutArgs}
    (hblock : a.block = false) (hne : a.msgs ≠ []) (hmsgs : ∀ m ∈ a.msgs, 1 ≤ m.length)
    (hbound : (Call.put a).Bounded) (clock : Clock) :
    program.body (.enter (.put a)) clock s = .ok ⟨s, none, .returned (.put .full)⟩ := by
  apply put_refused_eq h hbound _ hblock
  intro hfit
  have hprobe : f.Fits [[0]] :=
    hfit.of_le (probe_le_total rfl hne hmsgs) (List.length_pos_iff.mpr hne)
  rw [(not_full_iff h rfl).mpr hprobe] at hfull
  cases hfull

theorem not_full_accepts (h : Represents s f) (hfull : isQueueFull s = false) {a : PutArgs}
    {m : Bytes} (hmsgs : a.msgs = [m]) (hm : m.length = 1) (clock : Clock) :
    ∃ o, program.body (.enter (.put a)) clock s = .ok o ∧
      o.exit = .returned (.put .success) := by
  have hbound : (startCall (.enter (.put a))).Bounded := by
    change total msgWeight a.msgs < 2 ^ 63
    rw [hmsgs, total_cons, total_nil, msgWeight, hm]
    decide
  have hfit : f.Fits a.msgs := by
    rw [hmsgs]
    exact (not_full_iff h hm).mp hfull
  exact ⟨_, put_section_eq h rfl hbound hfit clock, rfl⟩

variable {T : Type} [DecidableEq T] {buffer : Bytes} {moves : List (Move (System T) (Event T))}
  {w : System T}

/-- `is_queue_full` says whether a put of anything has to be refused. -/
theorem full_iff_puts_refused (h : BoundedRun M N buffer moves w) :
    (isQueueFull w.shared = true ↔ ∀ a : PutArgs, a.block = false → a.msgs ≠ [] →
      (∀ m ∈ a.msgs, 1 ≤ m.length) → total msgWeight a.msgs < 2 ^ 63 → ∀ clock, ∃ o,
      program.body (.enter (.put a)) clock w.shared = .ok o ∧ o.exit = .returned (.put .full)) ∧
    (isQueueFull w.shared = false → ∀ (a : PutArgs) (m : Bytes), a.msgs = [m] → m.length = 1 →
      ∀ clock, ∃ o, program.body (.enter (.put a)) clock w.shared = .ok o ∧
      o.exit = .returned (.put .success)) := by
  obtain ⟨f, hf⟩ := h.sound
  have hrep := hf.represents
  refine ⟨?_, fun hfull a m hmsgs hm => not_full_accepts hrep hfull hmsgs hm⟩
  constructor
  · intro hfull a hblock hne hmsgs hbound clock
    exact ⟨_, full_refuses hrep hfull hblock hne hmsgs hbound clock, rfl⟩
  · intro hrefused
    by_contra hfull
    rw [Bool.not_eq_true] at hfull
    obtain ⟨o, hbody, hx⟩ := hrefused ⟨[[0]], false, 0⟩ rfl (List.cons_ne_nil _ _) (by decide)
      (by decide) ⟨⟨0, 0⟩, ⟨0, 0⟩⟩
    obtain ⟨o', hbody', hx'⟩ := not_full_accepts hrep hfull (a := ⟨[[0]], false, 0⟩) rfl rfl
      ⟨⟨0, 0⟩, ⟨0, 0⟩⟩
    cases hbody.symm.trans hbody'
    rw [hx] at hx'
    cases hx'

theorem full_run :
    ∃ (moves : List (Move (System (Fin 1)) (Event (Fin 1)))) (w : System (Fin 1)),
      BoundedRun 20 5 (List.replicate 20 0) moves w ∧ isQueueFull w.shared = true := by
  have hrun : (program.run (System.init (Fin 1) 20 5 (List.replicate 20 0))
      [.enter 0 (.put ⟨[[1, 2, 3, 4]], false, 0⟩) ⟨⟨0, 0⟩, ⟨0, 0⟩⟩ none]).any (fun r => decide
        ((∀ m ∈ r.1, BoundedEvent m.label) ∧ isQueueFull r.2.shared = true)) = true := by
    decide +kernel
  obtain ⟨moves, w, htrace, hw⟩ := reach_of_run hrun
  obtain ⟨hbounded, hfull⟩ := of_decide_eq_true hw
  exact ⟨moves, w, ⟨by decide, rfl, htrace, hbounded⟩, hfull⟩

theorem full_iff_puts_refused_twenty :
    ∃ (moves : List (Move (System (Fin 1)) (Event (Fin 1)))) (w : System (Fin 1)) (o o' : Section),
      BoundedRun 20 5 (List.replicate 20 0) moves w ∧ isQueueFull w.shared = true ∧
      program.body (.enter (.put ⟨[[5]], false, 0⟩)) ⟨⟨0, 0⟩, ⟨0, 0⟩⟩ w.shared = .ok o ∧
      o.exit = .returned (.put .full) ∧
      isQueueFull (System.init (Fin 1) 20 5 (List.replicate 20 0)).shared = false ∧
      program.body (.enter (.put ⟨[[5]], false, 0⟩)) ⟨⟨0, 0⟩, ⟨0, 0⟩⟩
        (System.init (Fin 1) 20 5 (List.replicate 20 0)).shared = .ok o' ∧
      o'.exit = .returned (.put .success) := by
  obtain ⟨moves, w, hrun, hfull⟩ := full_run
  have hnew : BoundedRun 20 5 (List.replicate 20 0) []
      (System.init (Fin 1) 20 5 (List.replicate 20 0)) :=
    ⟨by decide, rfl, .nil, fun m hm => absurd hm List.not_mem_nil⟩
  have hroom : isQueueFull (System.init (Fin 1) 20 5 (List.replicate 20 0)).shared = false := rfl
  obtain ⟨o, hbody, hexit⟩ := (full_iff_puts_refused hrun).1.mp hfull ⟨[[5]], false, 0⟩ rfl
    (List.cons_ne_nil _ _) (by decide) (by decide) ⟨⟨0, 0⟩, ⟨0, 0⟩⟩
  obtain ⟨o', hbody', hexit'⟩ := (full_iff_puts_refused hnew).2 hroom ⟨[[5]], false, 0⟩ [5] rfl rfl
    ⟨⟨0, 0⟩, ⟨0, 0⟩⟩
  exact ⟨moves, w, o, o', hrun, hfull, hbody, hexit, hroom, hbody', hexit'⟩

end Full

end FasterFifo
