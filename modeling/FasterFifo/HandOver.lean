import FasterFifo.Progress

/-! A thread or process that the queue is handed to takes over the size of the giver's receive
buffer. The same methods run from a queue whose threads had such buffers all along. -/
namespace FasterFifo
open Transition Monitor Function

section Pickling

/-- `TLSBuffer.__getstate__`: the size of the buffer, 0 without one. -/
def TLSBuffer.getstate : Option Bytes → ℕ
  | none => 0
  | some val => val.length

/-- `TLSBuffer.__setstate__`: a new buffer of that size. -/
def TLSBuffer.setstate (messageBufferSize : ℕ) : Option Bytes :=
  if messageBufferSize = 0 then none else some (List.replicate messageBufferSize 0)

theorem getstate_setstate (n : ℕ) : TLSBuffer.getstate (TLSBuffer.setstate n) = n := by
  unfold TLSBuffer.setstate
  split
  · rename_i hzero
    exact hzero.symm
  · exact List.length_replicate

theorem handed_size {n : ℕ} {val : Option Bytes} (h : ∀ v, val = some v → n ≤ v.length) {v : Bytes}
    (hv : TLSBuffer.setstate (TLSBuffer.getstate val) = some v) : n ≤ v.length := by
  have hlen := congrArg TLSBuffer.getstate hv
  rw [getstate_setstate] at hlen
  cases val with
  | none => cases hv
  | some w => exact (h w rfl).trans hlen.le

end Pickling

variable {T α : Type} [DecidableEq T] {S : Serializer α} {X M N : ℕ} {buffer : Bytes}
  {recv : T → Option Bytes} {p q : PySystem T α} {label : PyEvent T α} {t u : T}

/-- The same queue, with another receive buffer in thread `u`. -/
def PySystem.withRecv (p : PySystem T α) (u : T) (msgBuffer : Option Bytes) : PySystem T α :=
  { p with recv := update p.recv u msgBuffer }

inductive HandEvent (T α : Type) where
  | method (label : PyEvent T α)
  | hand (giver taker : T)

inductive HandStep (S : Serializer α) (X : ℕ) :
    PySystem T α → HandEvent T α → PySystem T α → Prop
  | method {p q : PySystem T α} {label : PyEvent T α} (hstep : PyStep S X p label q) :
      HandStep S X p (.method label) q
  | hand {p : PySystem T α} (giver taker : T) :
      HandStep S X p (.hand giver taker)
        (p.withRecv taker (TLSBuffer.setstate (TLSBuffer.getstate (p.recv giver))))

def HandEvent.methods : HandEvent T α → List (PyEvent T α)
  | .method label => [label]
  | .hand _ _ => []

/-- The queue is handed to threads that have not used it yet. -/
def TakersFresh (moves : List (Move (PySystem T α) (HandEvent T α))) : Prop :=
  ∀ before m after, moves = before ++ m :: after →
    ∀ giver taker, m.label = .hand giver taker →
    ∀ n ∈ before, ∀ label ∈ n.label.methods, ¬label.TakenBy taker

/-- A run in memory with hand-overs. -/
structure HandedRun (S : Serializer α) (X M N : ℕ) (buffer : Bytes) (recv : T → Option Bytes)
    (moves : List (Move (PySystem T α) (HandEvent T α))) (q : PySystem T α) : Prop where
  capacity : M ≤ 2 ^ 63
  length_buffer : buffer.length = M
  initial : ∀ t msgBuffer, recv t = some msgBuffer → initialRecvBufferSize ≤ msgBuffer.length
  trace : Trace (HandStep S X) (PySystem.init M N buffer recv) moves q
  addressable : ∀ m ∈ moves, ∀ label ∈ m.label.methods, label.Addressable
  fresh : TakersFresh moves

section Buffers

theorem recv_withRecv_of_ne (h : t ≠ u) (p : PySystem T α) (msgBuffer : Option Bytes) :
    (p.withRecv u msgBuffer).recv t = p.recv t := update_of_ne h _ _

theorem recv_withRecv_self (p : PySystem T α) (msgBuffer : Option Bytes) :
    (p.withRecv u msgBuffer).recv u = msgBuffer := update_self _ _ _

theorem after_withRecv (h : t ≠ u) (p : PySystem T α) (msgBuffer : Option Bytes) (w : System T)
    (e : PyEnd α) : (p.withRecv u msgBuffer).after t w e = (p.after t w e).withRecv u msgBuffer := by
  simp only [PySystem.after, PySystem.withRecv, update_comm h]

theorem pyStep_withRecv (hstep : PyStep S X p label q) (hu : ¬label.TakenBy u)
    (msgBuffer : Option Bytes) :
    PyStep S X (p.withRecv u msgBuffer) label (q.withRecv u msgBuffer) := by
  cases hstep with
  | putRaise hidle hprepare => exact .putRaise hidle hprepare
  | wake hstep => exact .wake hstep
  | putEnter hidle hprepare hstep hend =>
      rw [← recv_withRecv_of_ne hu p msgBuffer] at hend
      rw [← after_withRecv hu]
      exact .putEnter hidle hprepare hstep hend
  | putResume hputting hstep hend =>
      rw [← recv_withRecv_of_ne hu p msgBuffer] at hend
      rw [← after_withRecv hu]
      exact .putResume hputting hstep hend
  | getEnter hidle hstep hend =>
      rw [← recv_withRecv_of_ne hu p msgBuffer] at hstep hend ⊢
      rw [← after_withRecv hu]
      exact .getEnter hidle hstep hend
  | getRetry hretrying hargs hstep hend =>
      rw [← recv_withRecv_of_ne hu p msgBuffer] at hstep hend ⊢
      rw [← after_withRecv hu]
      exact .getRetry hretrying hargs hstep hend
  | getResume hgetting hstep hend =>
      rw [← recv_withRecv_of_ne hu p msgBuffer] at hend
      rw [← after_withRecv hu]
      exact .getResume hgetting hstep hend

theorem init_withRecv (msgBuffer : Option Bytes) :
    (PySystem.init M N buffer recv : PySystem T α).withRecv u msgBuffer =
      PySystem.init M N buffer (update recv u msgBuffer) := rfl

variable {moves : List (Move (PySystem T α) (PyEvent T α))}

/-- A thread that has done nothing yet may have had any receive buffer from the beginning. -/
theorem MemoryRun.withRecv (h : MemoryRun S X M N buffer recv moves q)
    (hfresh : ∀ m ∈ moves, ¬m.label.TakenBy u) {msgBuffer : Option Bytes}
    (hsize : ∀ b, msgBuffer = some b → initialRecvBufferSize ≤ b.length) :
    ∃ moves', MemoryRun S X M N buffer (update recv u msgBuffer) moves' (q.withRecv u msgBuffer) ∧
      moves'.map Move.label = moves.map Move.label := by
  have hinitial : ∀ t b, update recv u msgBuffer t = some b → initialRecvBufferSize ≤ b.length := by
    intro t b hb
    rcases eq_or_ne t u with rfl | hne
    · rw [update_self] at hb
      exact hsize b hb
    · rw [update_of_ne hne] at hb
      exact h.initial t b hb
  have hsteps : ∀ m : Move (PySystem T α) (PyEvent T α), ¬m.label.TakenBy u →
      PyStep S X m.pre m.label m.post → ∀ p, p = m.pre.withRecv u msgBuffer →
      ∃ as p', Trace (PyStep S X) p as p' ∧ as.map Move.label = [m.label] ∧
        p' = m.post.withRecv u msgBuffer := by
    rintro m hu hstep p rfl
    exact ⟨_, _, .single (pyStep_withRecv hstep hu msgBuffer), rfl, rfl⟩
  obtain ⟨moves', q', htrace, hlabels, rfl⟩ := h.trace.simulate
    (R := fun p p' => p' = p.withRecv u msgBuffer) hsteps hfresh (init_withRecv _).symm
  rw [← List.map_eq_flatMap] at hlabels
  refine ⟨moves', ⟨h.capacity, h.length_buffer, hinitial, htrace, ?_⟩, hlabels⟩
  intro m hm
  have hlabel : m.label ∈ moves.map Move.label := hlabels ▸ List.mem_map_of_mem hm
  obtain ⟨n, hn, hsame⟩ := List.mem_map.mp hlabel
  rw [← hsame]
  exact h.addressable n hn

theorem MemoryRun.recv_le (h : MemoryRun S X M N buffer recv moves q)
    (hbound : ∀ t, TLSBuffer.getstate (recv t) ≤ recvBound M) (t : T) :
    TLSBuffer.getstate (q.recv t) ≤ recvBound M := by
  obtain ⟨hcapacity, hlength, hinitial, htrace, haddr⟩ := h
  induction htrace generalizing t with
  | nil => exact hbound t
  | snoc htrace hstep ih =>
      have hbefore := fun m hm => haddr m (List.mem_append_left _ hm)
      have hrun : MemoryRun S X M N buffer recv _ _ :=
        ⟨hcapacity, hlength, hinitial, htrace, hbefore⟩
      obtain ⟨f, hf⟩ := hrun.store
      exact (recvSize_step hrun.retrying hrun.consistent hf.represents hstep t).2 (ih t hbefore)

end Buffers

section Runs
variable {moves : List (Move (PySystem T α) (HandEvent T α))}

omit [DecidableEq T] in
theorem fresh_before {m : Move (PySystem T α) (HandEvent T α)}
    (h : TakersFresh (moves ++ [m])) : TakersFresh moves := by
  rintro first n last rfl giver taker hlabel
  refine h first n (last ++ [m]) ?_ giver taker hlabel
  rw [List.append_assoc, List.cons_append]

/-- Hand-overs in the middle of a run are nothing new: a run with hand-overs ends where a run of
the same methods does whose threads had their receive buffers from the beginning, no buffer that
is ever handed on is smaller than the initial size, and none is larger than the bound on all others
if the first ones are not. -/
theorem hand_over_initial (h : HandedRun S X M N buffer recv moves q) :
    ∃ recv' moves', MemoryRun S X M N buffer recv' moves' q ∧
      moves'.map Move.label = moves.flatMap (fun m => m.label.methods) ∧
      (∀ t msgBuffer, q.recv t = some msgBuffer → initialRecvBufferSize ≤ msgBuffer.length) ∧
      ((∀ t, TLSBuffer.getstate (recv t) ≤ recvBound M) →
        (∀ t, TLSBuffer.getstate (recv' t) ≤ recvBound M) ∧
        ∀ t msgBuffer, q.recv t = some msgBuffer → msgBuffer.length ≤ recvBound M) := by
  suffices hsame : ∃ recv' moves', MemoryRun S X M N buffer recv' moves' q ∧
      moves'.map Move.label = moves.flatMap (fun m => m.label.methods) ∧
      ((∀ t, TLSBuffer.getstate (recv t) ≤ recvBound M) →
        ∀ t, TLSBuffer.getstate (recv' t) ≤ recvBound M) by
    obtain ⟨recv', moves', hrun, hlabels, hkept⟩ := hsame
    refine ⟨recv', moves', hrun, hlabels, fun t => (hrun.retrying t).recv, fun hbound => ?_⟩
    refine ⟨hkept hbound, ?_⟩
    intro t msgBuffer hrecv
    have hle := hrun.recv_le (hkept hbound) t
    rwa [hrecv] at hle
  obtain ⟨hcapacity, hlength, hinitial, htrace, haddr, hfresh⟩ := h
  induction htrace with
  | nil => exact ⟨recv, [], ⟨hcapacity, hlength, hinitial, .nil, by simp⟩, rfl, id⟩
  | @snoc p q moves label htrace hstep ih =>
      obtain ⟨recv', moves', hrun, hlabels, hkept⟩ :=
        ih (fun m hm => haddr m (List.mem_append_left _ hm)) (fresh_before hfresh)
      rw [List.flatMap_append, List.flatMap_singleton, ← hlabels]
      cases hstep with
      | method hstep =>
          have hlast := haddr _ (List.mem_append_right _ List.mem_cons_self) _ List.mem_cons_self
          exact ⟨recv', _, hrun.snoc hstep hlast, List.map_append, hkept⟩
      | hand giver taker =>
          have hunused : ∀ m ∈ moves', ¬m.label.TakenBy taker := by
            intro m hm
            have hlabel : m.label ∈ moves.flatMap (fun m => m.label.methods) :=
              hlabels ▸ List.mem_map_of_mem hm
            obtain ⟨n, hn, hmember⟩ := List.mem_flatMap.mp hlabel
            exact hfresh moves _ [] rfl giver taker rfl n hn m.label hmember
          obtain ⟨moves'', hrun', hlabels'⟩ := hrun.withRecv hunused
            (fun c => handed_size (hrun.retrying giver).recv)
          refine ⟨_, moves'', hrun', hlabels'.trans (List.append_nil _).symm, ?_⟩
          intro hbound t
          rcases eq_or_ne t taker with rfl | hne
          · rw [update_self, getstate_setstate]
            exact hrun.recv_le (hkept hbound) giver
          · rw [update_of_ne hne]
            exact hkept hbound t

theorem MemoryRun.handed {moves : List (Move (PySystem T α) (PyEvent T α))}
    (h : MemoryRun S X M N buffer recv moves q) :
    HandedRun S X M N buffer recv (moves.map fun m => ⟨m.pre, .method m.label, m.post⟩) q := by
  have hsteps : ∀ m : Move (PySystem T α) (PyEvent T α), PyStep S X m.pre m.label m.post →
      Trace (HandStep S X) (id m.pre) [⟨m.pre, .method m.label, m.post⟩] (id m.post) :=
    fun m hm => .single (.method hm)
  have htrace := h.trace.project hsteps
  rw [← List.map_eq_flatMap] at htrace
  refine ⟨h.capacity, h.length_buffer, h.initial, htrace, ?_, ?_⟩
  · intro m hm label hlabel
    obtain ⟨n, hn, rfl⟩ := List.mem_map.mp hm
    rw [List.mem_singleton.mp hlabel]
    exact h.addressable n hn
  · intro before m after he giver taker hlabel
    have hm : m ∈ before ++ m :: after := List.mem_append_right _ List.mem_cons_self
    rw [← he] at hm
    obtain ⟨n, -, rfl⟩ := List.mem_map.mp hm
    cases hlabel

omit [DecidableEq T] in
theorem fresh_snoc (h : TakersFresh moves) {m : Move (PySystem T α) (HandEvent T α)}
    (hlast : ∀ giver taker, m.label = .hand giver taker →
      ∀ n ∈ moves, ∀ label ∈ n.label.methods, ¬label.TakenBy taker) :
    TakersFresh (moves ++ [m]) := by
  intro before n after he
  rcases List.eq_nil_or_concat after with rfl | ⟨after, n', rfl⟩
  · obtain ⟨rfl, hsame⟩ := List.append_inj' he rfl
    cases hsame
    exact hlast
  · rw [List.concat_eq_append, ← List.cons_append, ← List.append_assoc] at he
    exact h before n after (List.append_inj' he rfl).1

/-- A run may always go on with a hand-over to a thread that has not used the queue yet. -/
theorem HandedRun.hand (h : HandedRun S X M N buffer recv moves q) (giver taker : T)
    (hfresh : ∀ m ∈ moves, ∀ label ∈ m.label.methods, ¬label.TakenBy taker) :
    ∃ more, HandedRun S X M N buffer recv (moves ++ more)
      (q.withRecv taker (TLSBuffer.setstate (TLSBuffer.getstate (q.recv giver)))) := by
  refine ⟨_, h.capacity, h.length_buffer, h.initial, h.trace.snoc (.hand giver taker), ?_, ?_⟩
  · intro m hm label hlabel
    rcases List.mem_append.mp hm with hm | hm
    · exact h.addressable m hm label hlabel
    · rw [List.mem_singleton.mp hm] at hlabel
      cases hlabel
  · refine fresh_snoc h.fresh ?_
    rintro _ _ ⟨⟩
    exact hfresh

theorem hand_over_initial_growing :
    ∃ (moves : List (Move (PySystem (Fin 3) Unit) (HandEvent (Fin 3) Unit)))
      (moves' : List (Move (PySystem (Fin 3) Unit) (PyEvent (Fin 3) Unit)))
      (recv' : Fin 3 → Option Bytes) (q : PySystem (Fin 3) Unit),
      HandedRun bulkySerializer 6008 6008 5 (List.replicate 6008 0) (fun _ => none) moves q ∧
      TLSBuffer.getstate (q.recv 2) = 9012 ∧
      MemoryRun bulkySerializer 6008 6008 5 (List.replicate 6008 0) recv' moves' q ∧
      moves'.map Move.label = moves.flatMap (fun m => m.label.methods) ∧
      (∀ t, TLSBuffer.getstate (recv' t) ≤ recvBound 6008) ∧
      ∀ t msgBuffer, q.recv t = some msgBuffer →
        initialRecvBufferSize ≤ msgBuffer.length ∧ msgBuffer.length ≤ recvBound 6008 := by
  have hrun : ((PySystem.init 6008 5 (List.replicate 6008 0) fun _ => none :
      PySystem (Fin 3) Unit).run bulkySerializer 6008 (growingSchedule 0 1)).any (fun r => decide
        ((∀ m ∈ r.1, m.label.Addressable) ∧ (∀ m ∈ r.1, ¬m.label.TakenBy 2) ∧
        TLSBuffer.getstate (r.2.recv 1) = 9012)) = true := by decide +kernel
  obtain ⟨moves, q, htrace, hq⟩ := pyReach_of_run hrun
  obtain ⟨haddr, hunused, hsize⟩ := of_decide_eq_true hq
  have hmemory : MemoryRun bulkySerializer 6008 6008 5 (List.replicate 6008 0) (fun _ => none)
      moves q := ⟨by decide, List.length_replicate, by rintro t msgBuffer ⟨⟩, htrace, haddr⟩
  have hfresh : ∀ m ∈ moves.map (fun m : Move _ (PyEvent (Fin 3) Unit) =>
      (⟨m.pre, HandEvent.method m.label, m.post⟩ : Move (PySystem (Fin 3) Unit) _)),
      ∀ label ∈ m.label.methods, ¬label.TakenBy 2 := by
    intro m hm label hlabel
    obtain ⟨n, hn, rfl⟩ := List.mem_map.mp hm
    rw [List.mem_singleton.mp hlabel]
    exact hunused n hn
  obtain ⟨more, hhanded⟩ := hmemory.handed.hand 1 2 hfresh
  obtain ⟨recv', moves', hsame, hlabels, hinitial, hsizes⟩ := hand_over_initial hhanded
  obtain ⟨hbound, hlargest⟩ := hsizes fun _ => Nat.zero_le _
  refine ⟨_, moves', recv', _, hhanded, ?_, hsame, hlabels, hbound,
    fun t b hb => ⟨hinitial t b hb, hlargest t b hb⟩⟩
  rw [recv_withRecv_self, getstate_setstate]
  exact hsize

end Runs
end FasterFifo
