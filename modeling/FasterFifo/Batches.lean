import FasterFifo.Contracts

/-! A batched call and the single calls it stands for leave the same indices, counts and ring bytes,
and the single gets deliver the bytes of the batched one. -/
namespace FasterFifo
open CheckedMemory CyclicBuffer Framing Transition Monitor
open BoundedFifo (total total_cons total_nil)

/-- A call made where it need not wait: its result, and the state it leaves. -/
def callOnce (s : Shared) (c : Call) (clock : Clock) : Option (Result × Shared) :=
  match program.body (.enter c) clock s with
  | .ok ⟨s', _, .returned r⟩ => some (r, s')
  | _ => none

/-- Calls made one after the other, none of which waits. -/
def callsInTurn (s : Shared) : List (Call × Clock) → Option (List Result × Shared)
  | [] => some ([], s)
  | (c, clock) :: rest =>
      match callOnce s c clock with
      | none => none
      | some (r, s') => (callsInTurn s' rest).map fun x => (r :: x.1, x.2)

theorem callOnce_eq {s s' : Shared} {c : Call} {clock : Clock} {r : Result}
    (h : callOnce s c clock = some (r, s')) :
    ∃ k, program.body (.enter c) clock s = .ok ⟨s', k, .returned r⟩ := by
  unfold callOnce at h
  split at h
  · rename_i hbody
    cases h
    exact ⟨_, hbody⟩
  · cases h

theorem callsInTurn_cons {s s' : Shared} {c : Call} {clock : Clock} {k : Option Cond} {r : Result}
    (h : program.body (.enter c) clock s = .ok ⟨s', k, .returned r⟩) (rest : List (Call × Clock)) :
    callsInTurn s ((c, clock) :: rest) =
      (callsInTurn s' rest).map fun x => (r :: x.1, x.2) := by
  have honce : callOnce s c clock = some (r, s') := by rw [callOnce, h]
  rw [callsInTurn, honce]

section Singles
variable {M N : ℕ} {s t : Shared} {f : MessageStore M N}

theorem SameRing.pushed (h : SameRing s t) (hM : t.queue.maxSizeBytes = s.queue.maxSizeBytes)
    (m : Bytes) : SameRing (s.pushed m) (t.pushed m) := by
  constructor
  · exact h.head
  · change (t.queue.head + (t.queue.size + (sizeT.encode m.length).length + m.length)) %
      t.queue.maxSizeBytes = _
    rw [h.head, h.size, hM]
    rfl
  · change t.queue.size + (sizeT.encode m.length).length + m.length = _
    rw [h.size]
    rfl
  · change t.queue.numElem + 1 = _
    rw [h.numElem]
    rfl
  · change overwrite (overwrite t.buffer t.queue.tail (sizeT.encode m.length))
      ((t.queue.head + (t.queue.size + (sizeT.encode m.length).length)) %
        t.queue.maxSizeBytes) m = _
    rw [h.buffer, h.tail, h.head, h.size, hM]
    rfl

theorem SameRing.foldl_pushed (h : SameRing s t)
    (hM : t.queue.maxSizeBytes = s.queue.maxSizeBytes) (batch : List Bytes) :
    SameRing (batch.foldl Shared.pushed s) (batch.foldl Shared.pushed t) := by
  induction batch generalizing s t with
  | nil => exact h
  | cons m ms ih => exact ih (h.pushed hM m) hM

theorem SameRing.dropped (h : SameRing s t) (hM : t.queue.maxSizeBytes = s.queue.maxSizeBytes)
    (ms : List Bytes) : SameRing (s.dropped ms) (t.dropped ms) := by
  refine ⟨?_, h.tail, ?_, ?_, h.buffer⟩
  · simp only [Shared.dropped, h.head, hM]
  · simp only [Shared.dropped, h.size]
  · simp only [Shared.dropped, h.numElem]

theorem puts_in_turn (h : Represents s f) {batch : List Bytes} (hfit : f.Fits batch)
    (hbound : total msgWeight batch < 2 ^ 63) {singles : List (PutArgs × Clock)}
    (hsingles : singles.map (fun p => p.1.msgs) = batch.map fun m => [m]) :
    callsInTurn s (singles.map fun p => (.put p.1, p.2)) =
      some (singles.map fun _ => .put .success, batch.foldl Shared.pushed s) := by
  induction batch generalizing s f singles with
  | nil =>
      rw [List.map_nil, List.map_eq_nil_iff] at hsingles
      subst hsingles
      rfl
  | cons m ms ih =>
      cases singles with
      | nil => cases hsingles
      | cons p ps =>
          obtain ⟨a, clock⟩ := p
          rw [List.map_cons, List.map_cons, List.cons.injEq] at hsingles
          obtain ⟨hmsgs, hrest⟩ := hsingles
          dsimp only at hmsgs
          rw [total_cons] at hbound
          have hsingle : (startCall (.enter (.put a))).Bounded := by
            change total msgWeight a.msgs < 2 ^ 63
            rw [hmsgs, total_cons, total_nil]
            omega
          have hroom : f.Fits a.msgs := by
            rw [hmsgs]
            exact hfit.head
          have hbody := put_section_eq h rfl hsingle hroom clock
          have hnext := ih (h.pushed hfit.head) hfit.tail (by omega) hrest
          rw [hmsgs] at hbody
          rw [List.map_cons, callsInTurn_cons hbody]
          change (callsInTurn (s.pushed m) _).map _ = _
          rw [hnext]
          rfl

theorem serves_one {a : GetArgs} (s : Shared) {m : Bytes} (ms : List Bytes)
    (hK : a.maxMessagesToGet = 1) (hX : 1 ≤ a.maxBytesToGet)
    (hB : msgWeight m ≤ a.msgBufferSize) : a.serves (a.start s) (m :: ms) = 1 := by
  have hpos := serves_pos s ms hK.ge hX hB
  apply le_antisymm _ hpos
  by_contra hlt
  have hopen := BoundedFifo.open_before_served msgWeight a.maxMessagesToGet a.maxBytesToGet
    a.msgBufferSize (Nat.lt_of_not_le hlt)
  have hlimit := hopen.1
  rw [hK] at hlimit
  omega

theorem single_get (h : Represents s f) {m : Bytes} {ms : List Bytes} (hf : f.items = m :: ms)
    {a : GetArgs} (hK : a.maxMessagesToGet = 1) (hX : 1 ≤ a.maxBytesToGet)
    (hB : msgWeight m ≤ a.msgBufferSize) (clock : Clock) :
    ∃ k r, program.body (.enter (.get a)) clock s = .ok ⟨s.dropped [m], k, .returned (.get r)⟩ ∧
      r.status = .success ∧ r.messagesRead = 1 ∧
      r.msgBuffer.take r.bytesRead = frames sizeT [m] := by
  have hne : f.items ≠ [] := by
    rw [hf]
    exact List.cons_ne_nil m ms
  have hone : a.serves (a.start s) f.items = 1 := by
    rw [hf]
    exact serves_one s ms hK hX hB
  have htake : f.items.take 1 = [m] := by
    rw [hf]
    rfl
  have hrefuses : ¬a.refuses (a.start s) f.items := by
    rintro ⟨hlt, -⟩
    rw [hone, hK] at hlt
    omega
  have hbody := get_section_eq h hne (show startCall (.enter (.get a)) = .get a from rfl) clock
  have hresult := served_result a s f.items
  have hshared : ((a.start s).served a f.items).shared = s.dropped [m] := by
    simp only [GetState.served, hone, htake]
    rfl
  rw [hone, htake] at hresult
  rw [startShared, hshared] at hbody
  refine ⟨_, _, hbody, ?_, ?_, ?_⟩
  · rw [hresult]
    exact if_neg hrefuses
  · rw [hresult]
  · rw [hresult, ← length_frames_eq]
    exact List.take_left

/-- What the calls put in front of the readers, one receive buffer after the other. -/
def readBytes (rs : List GetResult) : Bytes := rs.flatMap fun r => r.msgBuffer.take r.bytesRead

theorem gets_in_turn (h : Represents s f) (hM : 0 < s.queue.maxSizeBytes) {out : List Bytes}
    {singles : List (GetArgs × Clock)} (hout : out = f.items.take singles.length)
    (hlen : singles.length ≤ f.items.length)
    (hsingles : ∀ p ∈ singles, p.1.maxMessagesToGet = 1 ∧ 1 ≤ p.1.maxBytesToGet ∧
      ∀ m ∈ out, msgWeight m ≤ p.1.msgBufferSize) :
    ∃ rs, callsInTurn s (singles.map fun p => (.get p.1, p.2)) =
        some (rs.map .get, s.dropped out) ∧
      (∀ r ∈ rs, r.status = .success ∧ r.messagesRead = 1) ∧
      readBytes rs = frames sizeT out := by
  subst hout
  induction singles generalizing s f with
  | nil =>
      refine ⟨[], ?_, ?_, rfl⟩
      · rw [List.length_nil, List.take_zero, dropped_nil h.ring hM]
        rfl
      · intro r hr
        cases hr
  | cons p ps ih =>
      obtain ⟨a, clock⟩ := p
      cases hf : f.items with
      | nil =>
          rw [hf] at hlen
          exact absurd hlen (Nat.not_succ_le_zero _)
      | cons m ms =>
          rw [hf, List.length_cons, List.length_cons] at hlen
          simp only [hf, List.length_cons, List.take_succ_cons, List.forall_mem_cons] at hsingles
          obtain ⟨⟨hK, hX, hm, -⟩, hrest⟩ := hsingles
          obtain ⟨k, r, hbody, hstatus, hread, hbytes⟩ := single_get h hf hK hX hm clock
          have hdropped := h.dropped 1
          have hone : f.items.take 1 = [m] := by rw [hf]; rfl
          have hitems : (f.dequeue 1).items = ms := by
            simp only [BoundedFifo.Store.dequeue, hf, List.drop_one, List.tail_cons]
          rw [hone] at hdropped
          obtain ⟨rs, hcalls, hall, hrs⟩ := ih hdropped hM (by rw [hitems]; omega) (by
            rw [hitems]
            exact fun q hq => ⟨(hrest q hq).1, (hrest q hq).2.1, (hrest q hq).2.2.2⟩)
          refine ⟨r :: rs, ?_, ?_, ?_⟩
          · rw [List.map_cons, callsInTurn_cons hbody, hcalls, hitems, dropped_dropped]
            rfl
          · exact List.forall_mem_cons.mpr ⟨⟨hstatus, hread⟩, hall⟩
          · rw [hitems] at hrs
            rw [readBytes, List.flatMap_cons, hbytes, List.length_cons, List.take_succ_cons]
            change frames sizeT [m] ++ readBytes rs = _
            rw [hrs, ← frames_append, List.singleton_append]

theorem wants_bytes {a : GetArgs} {ms : List Bytes} (h : 0 < a.serves (a.start s) ms) :
    1 ≤ a.maxBytesToGet := by
  have hbefore := BoundedFifo.open_before_served msgWeight a.maxMessagesToGet a.maxBytesToGet
    a.msgBufferSize h
  exact Nat.zero_lt_of_lt hbefore.2.1

/-- What a batched get delivers, single gets deliver. -/
theorem batched_get (h : Represents s f) {start : Start Call Request} {a : GetArgs} {clock : Clock}
    {o : Section} {r : GetResult} (hc : startCall start = .get a)
    (hbody : program.body start clock s = .ok o) (hx : o.exit = .returned (.get r))
    {singles : List (GetArgs × Clock)} (hlen : singles.length = r.messagesRead)
    (hsingles : ∀ p ∈ singles, p.1.maxMessagesToGet = 1 ∧ p.1.maxBytesToGet = a.maxBytesToGet ∧
      p.1.msgBufferSize = a.msgBufferSize) :
    ∃ rs s', callsInTurn s (singles.map fun p => (.get p.1, p.2)) = some (rs.map .get, s') ∧
      (∀ r' ∈ rs, r'.status = .success ∧ r'.messagesRead = 1) ∧
      readBytes rs = r.msgBuffer.take r.bytesRead ∧ SameRing s' o.shared := by
  have hstart := h.startShared start
  have hsame := SameRing.startShared start s
  rw [body_eq, hc] at hbody
  cases queueGetWait_cases hbody with
  | empty hsize hstop =>
      cases hx
      rw [List.length_eq_zero_iff] at hlen
      subst hlen
      refine ⟨[], s, rfl, ?_, rfl, hsame⟩
      intro r' hr'
      cases hr'
  | wait hsize hblock htimer => cases hx
  | read hsize hloop =>
      cases hx
      obtain ⟨hne, rfl, -⟩ := read_spec hstart hsize hloop
      have hresult := served_result a (startShared start s) f.items
      have hserved : singles.length = a.serves (a.start (startShared start s)) f.items := by
        rw [hlen, hresult]
      have hopen : ∀ p ∈ singles, p.1.maxMessagesToGet = 1 ∧ 1 ≤ p.1.maxBytesToGet ∧
          ∀ m ∈ f.items.take singles.length, msgWeight m ≤ p.1.msgBufferSize := by
        intro p hp
        obtain ⟨hK, hX, hB⟩ := hsingles p hp
        rw [hX, hB, hserved]
        refine ⟨hK, ?_, ?_⟩
        · exact wants_bytes (hserved ▸ List.length_pos_of_mem hp)
        · intro m hm
          exact (total_le_of_mem hm).trans (served_total_le a _ f.items)
      obtain ⟨rs, hcalls, hall, hbytes⟩ := gets_in_turn h (h.capacity_pos hne) rfl
        (hserved ▸ serves_le_length a _ f.items) hopen
      refine ⟨rs, _, hcalls, hall, ?_, ?_⟩
      · rw [hbytes, hresult, hserved, ← length_frames_eq]
        exact List.take_left.symm
      · rw [hserved]
        exact hsame.dropped (by rw [hstart.capacity, h.capacity]) _

end Singles

section Runs
variable {T : Type} [DecidableEq T] {M N : ℕ} {buffer : Bytes}
  {moves : List (Move (System T) (Event T))} {w : System T}

/-- The call, its clock and its result, of a section that is a whole call of thread `t`. -/
def turn (t : T) : Event T → Option ((Call × Clock) × Result)
  | .crit u (.enter c) clock o _ =>
      match o.exit with
      | .returned r => if u = t then some ((c, clock), r) else none
      | .waiting _ => none
  | _ => none

/-- Any idle thread may make the calls one after the other, with no other thread in between. -/
theorem callsInTurn_trace {t : T} (ht : w.phase t = .idle) {calls : List (Call × Clock)}
    {rs : List Result} {s : Shared} (h : callsInTurn w.shared calls = some (rs, s)) :
    ∃ moves w', Trace (Step program) w moves w' ∧ w'.shared = s ∧ w'.phase t = .idle ∧
      moves.map (fun m => turn t m.label) = (calls.zip rs).map some := by
  induction calls generalizing w rs with
  | nil =>
      cases h
      exact ⟨[], w, .nil, rfl, ht, rfl⟩
  | cons p rest ih =>
      obtain ⟨c, clock⟩ := p
      rw [callsInTurn] at h
      split at h
      · cases h
      · rename_i r s₁ honce
        obtain ⟨⟨rs', s₂⟩, hrest, hrs⟩ := Option.map_eq_some_iff.mp h
        cases hrs
        obtain ⟨k, hbody⟩ := callOnce_eq honce
        have hphase : w.phase t = (Start.enter c).phase := ht
        obtain ⟨pick, w₁, hstep⟩ := exists_step hphase hbody
        obtain ⟨-, -, hshared, hself⟩ := hstep.crit_inv
        rw [← show w₁.shared = s₁ from hshared] at hrest
        obtain ⟨moves, w₂, htrace, hlast, hidle, hturns⟩ := ih hself hrest
        refine ⟨_, w₂, (Trace.single hstep).append htrace, hlast, hidle, ?_⟩
        rw [List.map_append, hturns, List.map_singleton, List.zip_cons_cons, List.map_cons]
        simp [turn]

/-- A batched call and the single calls it stands for agree on indices, counts and ring bytes,
and the single gets deliver the bytes of the batched one. -/
theorem batch_in_turn (h : BoundedRun M N buffer moves w) {start : Start Call Request}
    {clock : Clock} {o : Section} (hbody : program.body start clock w.shared = .ok o) :
    (∀ a, startCall start = .put a → total msgWeight a.msgs < 2 ^ 63 →
      o.exit = .returned (.put .success) → ∀ singles : List (PutArgs × Clock),
      singles.map (fun p => p.1.msgs) = a.msgs.map (fun m => [m]) →
      ∃ s, callsInTurn w.shared (singles.map fun p => (.put p.1, p.2)) =
        some (singles.map fun _ => .put .success, s) ∧ SameRing s o.shared) ∧
    (∀ a r, startCall start = .get a → o.exit = .returned (.get r) →
      ∀ singles : List (GetArgs × Clock), singles.length = r.messagesRead →
      (∀ p ∈ singles, p.1.maxMessagesToGet = 1 ∧ p.1.maxBytesToGet = a.maxBytesToGet ∧
        p.1.msgBufferSize = a.msgBufferSize) →
      ∃ rs s, callsInTurn w.shared (singles.map fun p => (.get p.1, p.2)) =
        some (rs.map .get, s) ∧ (∀ r' ∈ rs, r'.status = .success ∧ r'.messagesRead = 1) ∧
        readBytes rs = r.msgBuffer.take r.bytesRead ∧ SameRing s o.shared) := by
  obtain ⟨f, hf⟩ := h.sound
  have hrep := hf.represents
  have hsame := SameRing.startShared start w.shared
  have hM : (startShared start w.shared).queue.maxSizeBytes = w.shared.queue.maxSizeBytes := by
    rw [(hrep.startShared start).capacity, hrep.capacity]
  constructor
  · intro a hc hbound hx singles hsingles
    have hcall : (startCall start).Bounded := by
      rw [hc]
      exact hbound
    have hfit := put_fits hrep hc hcall hbody hx
    cases hbody.symm.trans (put_section_eq hrep hc hcall hfit clock)
    exact ⟨_, puts_in_turn hrep hfit hbound hsingles, hsame.foldl_pushed hM a.msgs⟩
  · intro a r hc hx singles hlen hsingles
    exact batched_get hrep hc hbody hx hlen hsingles

theorem batch_run :
    ∃ (moves : List (Move (System (Fin 1)) (Event (Fin 1)))) (w : System (Fin 1)),
      BoundedRun 64 10 (List.replicate 64 0) moves w ∧
      (callOnce w.shared (.put ⟨[[4], [5, 6]], false, 0⟩) ⟨⟨0, 0⟩, ⟨0, 0⟩⟩).map Prod.fst =
        some (.put .success) ∧
      (callOnce w.shared (.get ⟨List.replicate 32 0, 5, 64, false, 0⟩) ⟨⟨0, 0⟩, ⟨0, 0⟩⟩).map
        Prod.fst = some (.get ⟨.success, 2, 19, 19,
          frames sizeT [[1], [2, 3]] ++ List.replicate 13 0⟩) := by
  have hrun : (program.run (System.init (Fin 1) 64 10 (List.replicate 64 0))
      [.enter 0 (.put ⟨[[1], [2, 3]], false, 0⟩) ⟨⟨0, 0⟩, ⟨0, 0⟩⟩ none]).any (fun r => decide
        ((∀ m ∈ r.1, BoundedEvent m.label) ∧
        (callOnce r.2.shared (.put ⟨[[4], [5, 6]], false, 0⟩) ⟨⟨0, 0⟩, ⟨0, 0⟩⟩).map Prod.fst =
          some (.put .success) ∧
        (callOnce r.2.shared (.get ⟨List.replicate 32 0, 5, 64, false, 0⟩) ⟨⟨0, 0⟩, ⟨0, 0⟩⟩).map
          Prod.fst = some (.get ⟨.success, 2, 19, 19,
            frames sizeT [[1], [2, 3]] ++ List.replicate 13 0⟩))) = true := by decide +kernel
  obtain ⟨moves, w, htrace, hw⟩ := reach_of_run hrun
  obtain ⟨hbounded, hrest⟩ := of_decide_eq_true hw
  exact ⟨moves, w, ⟨by decide, rfl, htrace, hbounded⟩, hrest⟩

theorem batch_in_turn_pair :
    ∃ (moves : List (Move (System (Fin 1)) (Event (Fin 1)))) (w : System (Fin 1)) (o o' : Section)
      (s t : Shared) (rs : List GetResult), BoundedRun 64 10 (List.replicate 64 0) moves w ∧
      program.body (.enter (.put ⟨[[4], [5, 6]], false, 0⟩)) ⟨⟨0, 0⟩, ⟨0, 0⟩⟩ w.shared = .ok o ∧
      o.exit = .returned (.put .success) ∧
      callsInTurn w.shared [(.put ⟨[[4]], false, 0⟩, ⟨⟨0, 0⟩, ⟨0, 0⟩⟩),
        (.put ⟨[[5, 6]], false, 0⟩, ⟨⟨0, 0⟩, ⟨0, 0⟩⟩)] =
        some ([.put .success, .put .success], s) ∧ SameRing s o.shared ∧
      program.body (.enter (.get ⟨List.replicate 32 0, 5, 64, false, 0⟩)) ⟨⟨0, 0⟩, ⟨0, 0⟩⟩
        w.shared = .ok o' ∧
      callsInTurn w.shared (List.replicate 2
        (.get ⟨List.replicate 32 0, 1, 64, false, 0⟩, ⟨⟨0, 0⟩, ⟨0, 0⟩⟩)) =
        some (rs.map .get, t) ∧ (∀ r ∈ rs, r.status = .success ∧ r.messagesRead = 1) ∧
      readBytes rs = frames sizeT [[1], [2, 3]] ∧ SameRing t o'.shared := by
  obtain ⟨moves, w, hrun, hput, hget⟩ := batch_run
  obtain ⟨⟨r, s⟩, honce, hr⟩ := Option.map_eq_some_iff.mp hput
  obtain ⟨⟨q, t⟩, honce', hq⟩ := Option.map_eq_some_iff.mp hget
  cases hr
  cases hq
  obtain ⟨k, hbody⟩ := callOnce_eq honce
  obtain ⟨k', hbody'⟩ := callOnce_eq honce'
  obtain ⟨s', hs', hsame⟩ := (batch_in_turn hrun hbody).1 ⟨[[4], [5, 6]], false, 0⟩ rfl (by decide)
    rfl [(⟨[[4]], false, 0⟩, ⟨⟨0, 0⟩, ⟨0, 0⟩⟩), (⟨[[5, 6]], false, 0⟩, ⟨⟨0, 0⟩, ⟨0, 0⟩⟩)] rfl
  have hsingles : ∀ p ∈ List.replicate 2
      ((⟨List.replicate 32 0, 1, 64, false, 0⟩, ⟨⟨0, 0⟩, ⟨0, 0⟩⟩) : GetArgs × Clock),
      p.1.maxMessagesToGet = 1 ∧ p.1.maxBytesToGet = 64 ∧
        p.1.msgBufferSize = (List.replicate 32 (0 : UInt8)).length := by
    intro p hp
    rw [List.eq_of_mem_replicate hp]
    exact ⟨rfl, rfl, rfl⟩
  obtain ⟨rs, t', ht', hone, hbytes, hsame'⟩ := (batch_in_turn hrun hbody').2
    ⟨List.replicate 32 0, 5, 64, false, 0⟩ _ rfl rfl _ (List.length_replicate) hsingles
  exact ⟨moves, w, _, _, s', t', rs, hrun, hbody, rfl, hs', hsame, hbody', ht', hone, hbytes,
    hsame'⟩

end Runs
end FasterFifo
