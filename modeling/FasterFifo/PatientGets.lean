import FasterFifo.Progress

/-! `get_many` raises `Empty` too early only from a retry, and not even then if one thread alone
gets; receive buffers with room for every message exclude the retry. -/
namespace FasterFifo
open Transition Monitor

variable {T α : Type} [DecidableEq T] {S : Serializer α} {X M N L : ℕ} {buffer : Bytes}
  {recv : T → Option Bytes} {moves : List (Move (PySystem T α) (PyEvent T α))}
  {p q : PySystem T α} {label : PyEvent T α} {t x : T}

/-- What the steps of a run in memory keep, given everything that is known of such a run. -/
theorem MemoryRun.invariant {I : PySystem T α → Prop}
    {Good : Move (PySystem T α) (PyEvent T α) → Prop}
    (hkeep : ∀ {before : List (Move (PySystem T α) (PyEvent T α))} {p q : PySystem T α}
      {label : PyEvent T α}, MemoryRun S X M N buffer recv before p → (∀ m ∈ before, Good m) →
      label.Addressable → Good ⟨p, label, q⟩ → PyStep S X p label q → I p → I q)
    (h : MemoryRun S X M N buffer recv moves q) (good : ∀ m ∈ moves, Good m)
    (h0 : I (PySystem.init M N buffer recv)) : I q := by
  obtain ⟨hcapacity, hlength, hinitial, htrace, haddr⟩ := h
  induction htrace with
  | nil => exact h0
  | @snoc p q moves label htrace hstep ih =>
      have hbefore := fun m hm => haddr m (List.mem_append_left _ hm)
      have hlast : (⟨p, label, q⟩ : Move _ _) ∈ moves ++ [⟨p, label, q⟩] :=
        List.mem_append_right _ (List.mem_singleton.mpr rfl)
      have hgood := fun m hm => good m (List.mem_append_left _ hm)
      exact hkeep ⟨hcapacity, hlength, hinitial, htrace, hbefore⟩ hgood (haddr _ hlast)
        (good _ hlast) hstep (ih hgood hbefore)

theorem retrying_before (hstep : PyStep S X p label q)
    (hother : ∀ caller current event outcome, label ≠ .get t caller current event outcome)
    {caller last : GetManyArgs} (h : q.activity t = .retrying caller last) :
    p.activity t = .retrying caller last := by
  have hput : ∀ {u : T} {w : System T} {e : PyEnd α} {args : PutManyArgs α}
      {y : Exit Request Result}, putEnd args (p.recv u) y = some e →
      (p.after u w e).activity t = .retrying caller last →
      p.activity t = .retrying caller last := by
    intro u w e args y hend hafter
    rcases eq_or_ne t u with rfl | hne
    · rw [after_activity_self] at hafter
      exact absurd hafter ((putEnd_recv hend).2 caller last)
    · rwa [after_activity_of_ne hne] at hafter
  have hget : ∀ {u : T} {w : System T} {e : PyEnd α}, t ≠ u →
      (p.after u w e).activity t = .retrying caller last →
      p.activity t = .retrying caller last := by
    intro u w e hne hafter
    rwa [after_activity_of_ne hne] at hafter
  cases hstep with
  | putRaise hidle hprepare => exact h
  | putEnter hidle hprepare hsection hend => exact hput hend h
  | putResume hputting hsection hend => exact hput hend h
  | getEnter hidle hsection hend => exact hget (by rintro rfl; exact hother _ _ _ _ rfl) h
  | getRetry hretrying hargs hsection hend =>
      exact hget (by rintro rfl; exact hother _ _ _ _ rfl) h
  | getResume hgetting hsection hend => exact hget (by rintro rfl; exact hother _ _ _ _ rfl) h
  | wake hsection => exact h

theorem justified_of_not_retries (h : MemoryRun S X M N buffer recv moves q)
    (hnone : ∀ m ∈ moves, ¬RetriesEmpty m) : ∀ m ∈ moves, EmptyJustified m := by
  intro m hm
  obtain ⟨before, after, -, hbefore, hstep⟩ := h.trace.of_mem hm
  exact (step_justified hstep fun t r => pending_blocks (python_trace hbefore) fun _ => rfl).mpr
    (hnone m hm)

section Sole

/-- If the step is one of `get_many`, it is thread `x`'s. -/
def PyEvent.GetsBy (x : T) : PyEvent T α → Prop
  | .get t _ _ _ _ => t = x
  | _ => True

instance (x : T) (label : PyEvent T α) : Decidable (label.GetsBy x) :=
  match label with
  | .get _ _ _ _ _ => inferInstanceAs (Decidable (_ = _))
  | .putRaise _ _ _ => isTrue trivial
  | .put _ _ _ _ => isTrue trivial
  | .wake _ => isTrue trivial

/-- Whoever is about to retry is thread `x`, and its message is still there. -/
def Reserved (S : Serializer α) (X M N : ℕ) (x : T) (p : PySystem T α) : Prop :=
  ∀ t caller last, p.activity t = .retrying caller last →
    t = x ∧ ∃ f : MessageStore M N, Ready S X x p f

theorem Reserved.step (h : Reserved S X M N x p) (hrun : MemoryRun S X M N buffer recv moves p)
    (haddr : label.Addressable) (hsole : label.GetsBy x) (hstep : PyStep S X p label q) :
    Reserved S X M N x q := by
  intro t caller last hretrying
  by_cases hget : label.IsGet
  · cases label with
    | get u caller' current event outcome =>
        obtain rfl : u = x := hsole
        have hown : t = u := by
          by_contra hne
          have hbefore := retrying_before hstep (by rintro _ _ _ _ ⟨⟩; exact hne rfl) hretrying
          exact hne (h t caller last hbefore).1
        subst hown
        obtain ⟨f, hf⟩ := hrun.store
        have hnext := hrun.snoc hstep haddr
        obtain ⟨g, hg⟩ := hnext.store
        obtain ⟨a, hturn, -⟩ := (hrun.retrying t).get_turn hrun.consistent hstep
        exact ⟨rfl, g, hturn.ready hf.represents hnext.consistent hg hretrying⟩
    | putRaise u args e => exact hget.elim
    | put u args event outcome => exact hget.elim
    | wake u => exact hget.elim
  · have hbefore := retrying_before hstep (by rintro _ _ _ _ rfl; exact hget trivial) hretrying
    obtain ⟨rfl, f, hf⟩ := h t caller last hbefore
    exact ⟨rfl, hf.step hget haddr hstep⟩

theorem MemoryRun.reserved (h : MemoryRun S X M N buffer recv moves q)
    (hsole : ∀ m ∈ moves, m.label.GetsBy x) : Reserved S X M N x q :=
  h.invariant (fun hrun _ haddr hgets hstep hpre => hpre.step hrun haddr hgets hstep) hsole nofun

/-- Where one thread alone gets, a blocking `get_many` raises `Empty` only when its time is up,
whatever is put and however small the receive buffer is. -/
theorem sole_getter_waits_out (h : MemoryRun S X M N buffer recv moves q)
    (hsole : ∀ m ∈ moves, m.label.GetsBy x) : ∀ m ∈ moves, EmptyJustified m := by
  refine justified_of_not_retries h ?_
  intro m hm hempty
  obtain ⟨before, after, hmoves⟩ := List.append_of_mem hm
  obtain ⟨hbefore, -⟩ := h.before hmoves
  have hreserved := hbefore.reserved (forall_before hsole hmoves).1
  unfold RetriesEmpty at hempty
  split at hempty
  · rename_i t caller current event outcome hlabel
    obtain ⟨-, -, hsize, hretrying⟩ := hempty
    split at hretrying
    · rename_i caller' last hactivity
      obtain ⟨-, f, hf⟩ := hreserved t caller' last hactivity
      obtain ⟨y, ys, hitems, -⟩ := hf.room
      rw [hf.admissible.represents.size_eq_zero_iff, hitems] at hsize
      cases hsize
    · exact hretrying
  · exact hempty

end Sole

section Roomy

/-- Messages of at most `L` bytes. -/
def Call.Light (L : ℕ) : Call → Prop
  | .put a => ∀ y ∈ a.msgs, y.length ≤ L
  | .get _ => True

instance (L : ℕ) (c : Call) : Decidable (c.Light L) :=
  match c with
  | .put _ => inferInstanceAs (Decidable (∀ _ ∈ _, _))
  | .get _ => isTrue trivial

/-- The `queue_put` that the step enters, if it does, is of the kind `C`. -/
def PyEvent.Puts (C : Call → Prop) : PyEvent T α → Prop
  | .put _ _ event _ => Enters C event
  | _ => True

instance (C : Call → Prop) [DecidablePred C] (label : PyEvent T α) : Decidable (label.Puts C) :=
  match label with
  | .put _ _ (.crit _ (.enter c) _ _ _) _ => inferInstanceAs (Decidable (C c))
  | .put _ _ (.crit _ (.resume _) _ _ _) _ => isTrue trivial
  | .put _ _ (.wake _) _ => isTrue trivial
  | .putRaise _ _ _ => isTrue trivial
  | .get _ _ _ _ _ => isTrue trivial
  | .wake _ => isTrue trivial

omit [DecidableEq T] in
theorem PyEvent.Addressable.puts (h : label.Addressable) : label.Puts Call.Addressable := by
  cases label with
  | put t args event outcome => exact h
  | putRaise t args e => trivial
  | get t caller current event outcome => trivial
  | wake t => trivial

theorem worldMoves_enters {C : Call → Prop} (hC : ∀ a, C (.get a))
    {m : Move (PySystem T α) (PyEvent T α)} (hstep : PyStep S X m.pre m.label m.post)
    (hputs : m.label.Puts C) : ∀ n ∈ worldMoves m, Enters C n.label := by
  obtain ⟨p, label, q⟩ := m
  dsimp only at hstep
  intro n hn
  cases hstep with
  | putRaise hidle hprepare => cases hn
  | putEnter hidle hprepare hsection hend =>
      rw [List.mem_singleton.mp hn]
      exact hputs
  | putResume hputting hsection hend =>
      rw [List.mem_singleton.mp hn]
      trivial
  | getEnter hidle hsection hend =>
      rw [List.mem_singleton.mp hn]
      exact hC _
  | getRetry hretrying hargs hsection hend =>
      rw [List.mem_singleton.mp hn]
      exact hC _
  | getResume hgetting hsection hend =>
      rw [List.mem_singleton.mp hn]
      trivial
  | wake hsection =>
      rw [List.mem_singleton.mp hn]
      trivial

theorem MemoryRun.light (h : MemoryRun S X M N buffer recv moves q)
    (hlight : ∀ m ∈ moves, m.label.Puts (Call.Light L)) :
    ∃ f : MessageStore M N, Represents q.world.shared f ∧ ∀ y ∈ f.items, y.length ≤ L := by
  have hgood : ∀ n ∈ moves.flatMap worldMoves,
      Enters Call.Addressable n.label ∧ Enters (Call.Light L) n.label := by
    intro n hn
    obtain ⟨m, hm, hn⟩ := List.mem_flatMap.mp hn
    obtain ⟨before, after, -, -, hstep⟩ := h.trace.of_mem hm
    exact ⟨worldMoves_enters (fun _ => trivial) hstep (h.addressable m hm).puts n hn,
      worldMoves_enters (fun _ => trivial) hstep (hlight m hm) n hn⟩
  obtain ⟨f, hf, hall⟩ := (python_trace h.trace).invariant
    (I := fun w => ∃ f : MessageStore M N,
      Admissible (fun c => c.Addressable ∧ c.Light L) w f ∧ ∀ y ∈ f.items, y.length ≤ L)
    (fun m hm hstep ⟨f, hf, hall⟩ =>
      hf.step_all (fun c hc => hc.1) (fun a ha => ha.2) hall (hm.1.and hm.2) hstep) hgood
    ⟨.empty, ⟨.init h.capacity h.length_buffer, by rintro t r (hr | hr) <;> cases hr⟩, nofun⟩
  exact ⟨f, hf.represents, hall⟩

/-- A receive buffer that is large enough at first stays so. -/
theorem MemoryRun.roomy (h : MemoryRun S X M N buffer recv moves q) {n : ℕ}
    (hroom : n ≤ (recvBuffer (recv t)).length) : n ≤ (recvBuffer (q.recv t)).length := by
  have hgrows : (PySystem.init M N buffer recv : PySystem T α).recvSize t ≤ q.recvSize t := by
    have hany : ∀ m ∈ moves, True := fun _ _ => trivial
    refine h.invariant (I := fun p =>
      (PySystem.init M N buffer recv : PySystem T α).recvSize t ≤ p.recvSize t) ?_ hany le_rfl
    intro before p q label hrun _ _ _ hstep hpre
    obtain ⟨f, hf⟩ := hrun.store
    exact hpre.trans
      (recvSize_step hrun.retrying hrun.consistent hf.represents hstep t).1
  cases hrecv : recv t with
  | none =>
      rw [hrecv, recvBuffer, length_reallocateMsgBuffer, max_self] at hroom
      exact hroom.trans (h.retrying t).initial_le
  | some msgBuffer =>
      rw [hrecv] at hroom
      simp only [PySystem.recvSize, PySystem.init, hrecv] at hgrows
      exact hroom.trans (hgrows.trans (recvSize_le q t))

theorem GetTurn.not_retries {caller current : GetManyArgs} {a : GetArgs} {event : Event T}
    {outcome : PyOutcome α} {f : MessageStore M N} (h : GetTurn S X p t caller current a event outcome q)
    (hf : Represents p.world.shared f) (hroom : ∀ y ∈ f.items, msgWeight y ≤ a.msgBufferSize)
    (caller' last : GetManyArgs) : q.activity t ≠ .retrying caller' last := by
  intro hretrying
  cases h with
  | @intro start clock o pick w e hcall hlimits hbuffer hsection hend =>
      have hbody := hsection.crit_inv.2.1
      have hstart := hf.startShared start
      rw [body_eq, hcall] at hbody
      rw [after_activity_self] at hretrying
      unfold getEnd at hend
      split at hend
      · cases hend
        cases hretrying
      · rename_i r hx
        cases hend
        obtain ⟨hsmall, hread, -⟩ := finishGet_retries hretrying
        have hreports := get_reports hstart (queueGetWait_cases hbody) hx
        obtain ⟨-, -, y, ys, hitems, hsize⟩ := hreports.first hsmall hread
        have hbeyond := (hreports.small hsmall).1
        rw [hsize] at hbeyond
        exact Nat.not_le_of_lt hbeyond (hroom y (by rw [hitems]; exact List.mem_cons_self))
      · cases hend

theorem MemoryRun.not_retrying (h : MemoryRun S X M N buffer recv moves q)
    (hlight : ∀ m ∈ moves, m.label.Puts (Call.Light L))
    (hroom : ∀ t, sizeofSizeT + L ≤ (recvBuffer (recv t)).length) :
    ∀ t caller last, q.activity t ≠ .retrying caller last := by
  refine h.invariant (I := fun p => ∀ t caller last, p.activity t ≠ .retrying caller last) ?_
    hlight nofun
  intro before p q label hrun hgood _ _ hstep hpre t caller last hretrying
  by_cases hget : ∃ caller current event outcome, label = .get t caller current event outcome
  · obtain ⟨caller', current, event, outcome, rfl⟩ := hget
    obtain ⟨f, hf, hlight'⟩ := hrun.light hgood
    obtain ⟨a, hturn, -⟩ := (hrun.retrying t).get_turn hrun.consistent hstep
    have hbuffer : a.msgBuffer = recvBuffer (p.recv t) := by
      cases hturn with
      | intro hcall hlimits hbuffer hsection hend => exact hbuffer
    refine hturn.not_retries hf ?_ caller last hretrying
    intro y hy
    rw [GetArgs.msgBufferSize, hbuffer]
    exact (Nat.add_le_add_left (hlight' y hy) _).trans (hrun.roomy (hroom t))
  · refine hpre t caller last (retrying_before hstep ?_ hretrying)
    rintro _ _ _ _ rfl
    exact hget ⟨_, _, _, _, rfl⟩

/-- Where every receive buffer has room for every message at first, no `get_many` is ever
retried: each is one `queue_get`, and a blocking one raises `Empty` only when its time is up. -/
theorem roomy_buffers_never_retry (h : MemoryRun S X M N buffer recv moves q)
    (hlight : ∀ m ∈ moves, m.label.Puts (Call.Light L))
    (hroom : ∀ t, sizeofSizeT + L ≤ (recvBuffer (recv t)).length) :
    (∀ v ∈ visited (PySystem.init M N buffer recv) moves, ∀ t, (v.activity t).isRetrying = false) ∧
      ∀ m ∈ moves, EmptyJustified m := by
  constructor
  · intro v hv t
    rw [Bool.eq_false_iff]
    intro hretrying
    obtain ⟨caller, last, hactivity⟩ := isRetrying_eq hretrying
    rcases List.mem_cons.mp hv with rfl | hv
    · cases hactivity
    · obtain ⟨m, hm, rfl⟩ := List.mem_map.mp hv
      obtain ⟨before, after, hmoves⟩ := List.append_of_mem hm
      refine (h.after hmoves).not_retrying ?_ hroom t caller last hactivity
      intro n hn
      rcases List.mem_append.mp hn with hn | hn
      · exact (forall_before hlight hmoves).1 n hn
      · rw [List.mem_singleton.mp hn]
        exact hlight m hm
  · refine justified_of_not_retries h ?_
    intro m hm hempty
    obtain ⟨before, after, hmoves⟩ := List.append_of_mem hm
    have hnone := (h.before hmoves).1.not_retrying (forall_before hlight hmoves).1 hroom
    unfold RetriesEmpty at hempty
    split at hempty
    · obtain ⟨-, -, -, hretrying⟩ := hempty
      split at hretrying
      · rename_i caller last hactivity
        exact hnone _ caller last hactivity
      · exact hretrying
    · exact hempty

end Roomy

/-- The only consumer retries for a message of 6000 bytes, and then waits in vain for another. -/
def loneGetterSchedule (producer consumer : T) : List (PyAction T Unit) :=
  let early : Clock := ⟨⟨0, 0⟩, ⟨0, 0⟩⟩
  let late : Clock := ⟨⟨10, 0⟩, ⟨10, 0⟩⟩
  let args := getArgs true defaultTimeout
  [.putMany producer (putArgs () true defaultTimeout) early none,
    .getMany consumer args early none, .retry consumer early none,
    .getMany consumer args early none, .wake consumer, .resume consumer late none]

theorem sole_getter_waits_out_growing :
    ∃ (moves : List (Move (PySystem (Fin 2) Unit) (PyEvent (Fin 2) Unit)))
      (q : PySystem (Fin 2) Unit),
      MemoryRun bulkySerializer 6008 6008 5 (List.replicate 6008 0) (fun _ => none) moves q ∧
      (∀ m ∈ moves, m.label.GetsBy 1) ∧ (∃ m ∈ moves, (m.post.activity 1).isRetrying = true) ∧
      (∃ m ∈ moves, m.label.raisesEmpty = true) ∧ ∀ m ∈ moves, EmptyJustified m := by
  have hrun : ((PySystem.init 6008 5 (List.replicate 6008 0) fun _ => none :
      PySystem (Fin 2) Unit).run bulkySerializer 6008 (loneGetterSchedule 0 1)).any (fun r => decide
        ((∀ m ∈ r.1, m.label.Addressable) ∧ (∀ m ∈ r.1, m.label.GetsBy 1) ∧
        (∃ m ∈ r.1, (m.post.activity 1).isRetrying = true) ∧
        ∃ m ∈ r.1, m.label.raisesEmpty = true)) = true := by decide +kernel
  obtain ⟨moves, q, htrace, hq⟩ := pyReach_of_run hrun
  obtain ⟨haddr, hsole, hretries, hraises⟩ := of_decide_eq_true hq
  have hmemory : MemoryRun bulkySerializer 6008 6008 5 (List.replicate 6008 0) (fun _ => none)
      moves q := ⟨by decide, List.length_replicate, nofun, htrace, haddr⟩
  exact ⟨moves, q, hmemory, hsole, hretries, hraises, sole_getter_waits_out hmemory hsole⟩

/-- Two consumers share two messages, and one of them waits in vain for a third. -/
def sharedSchedule (producer first second : T) : List (PyAction T Bytes) :=
  let early : Clock := ⟨⟨0, 0⟩, ⟨0, 0⟩⟩
  let late : Clock := ⟨⟨10, 0⟩, ⟨10, 0⟩⟩
  let args := getArgs true defaultTimeout
  [.getMany first args early none,
    .putMany producer ⟨.list [[1], [2, 3]], true, defaultTimeout⟩ early (some first),
    .getMany second args early none, .resume first early none,
    .getMany second args early none, .wake second, .resume second late none]

theorem roomy_buffers_never_retry_shared :
    ∃ (moves : List (Move (PySystem (Fin 3) Bytes) (PyEvent (Fin 3) Bytes)))
      (q : PySystem (Fin 3) Bytes),
      MemoryRun plainSerializer 24 24 5 (List.replicate 24 0) (fun _ => none) moves q ∧
      (∀ m ∈ moves, m.label.Puts (Call.Light 4992)) ∧
      (∃ m ∈ moves, m.label.raisesEmpty = true) ∧
      (∀ v ∈ visited (PySystem.init 24 5 (List.replicate 24 0) fun _ => none) moves,
        ∀ t, (v.activity t).isRetrying = false) ∧ ∀ m ∈ moves, EmptyJustified m := by
  have hrun : ((PySystem.init 24 5 (List.replicate 24 0) fun _ => none :
      PySystem (Fin 3) Bytes).run plainSerializer 24 (sharedSchedule 0 1 2)).any (fun r => decide
        ((∀ m ∈ r.1, m.label.Addressable) ∧ (∀ m ∈ r.1, m.label.Puts (Call.Light 4992)) ∧
        ∃ m ∈ r.1, m.label.raisesEmpty = true)) = true := by decide +kernel
  obtain ⟨moves, q, htrace, hq⟩ := pyReach_of_run hrun
  obtain ⟨haddr, hlight, hraises⟩ := of_decide_eq_true hq
  have hmemory : MemoryRun plainSerializer 24 24 5 (List.replicate 24 0) (fun _ => none)
      moves q := ⟨by decide, rfl, nofun, htrace, haddr⟩
  have hroom : ∀ t : Fin 3, sizeofSizeT + 4992 ≤ (recvBuffer none).length := by
    intro t
    rw [recvBuffer, length_reallocateMsgBuffer]
    decide
  obtain ⟨hnone, hjustified⟩ := roomy_buffers_never_retry hmemory hlight hroom
  exact ⟨moves, q, hmemory, hlight, hraises, hnone, hjustified⟩

end FasterFifo
