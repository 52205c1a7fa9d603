import FasterFifo.Retries

/-! A thread inside a method can end it alone: its wait times out, the section behind a deadline
does not wait again, and the retry that no other consumer comes before is the last. -/
namespace FasterFifo
open Transition Monitor

variable {T α : Type} [DecidableEq T] {S : Serializer α} {X M N : ℕ} {buffer : Bytes}
  {recv : T → Option Bytes} {moves : List (Move (PySystem T α) (PyEvent T α))}
  {p q : PySystem T α} {label : PyEvent T α} {t u : T}

section Engagement

/-- The method is inside `queue_put` or `queue_get`. -/
def Activity.InCall : Activity α → Prop
  | .putting _ => True
  | .getting _ _ => True
  | _ => False

/-- Whoever is inside a call waits in it. -/
def Engaged (p : PySystem T α) : Prop := ∀ t, (p.activity t).InCall → ∃ r, p.world.Pending t r

theorem putEnd_inCall {args : PutManyArgs α} {msgBuffer : Option Bytes} {x : Exit Request Result}
    {e : PyEnd α} (h : putEnd args msgBuffer x = some e) (hin : e.activity.InCall) :
    ∃ r, x = .waiting r := by
  unfold putEnd at h
  split at h
  · exact ⟨_, rfl⟩
  · cases h
    exact hin.elim
  · cases h

theorem finishGet_exit (S : Serializer α) (caller current : GetManyArgs) (r : GetResult) :
    (finishGet S caller current r).activity = .retrying caller current ∧
        (finishGet S caller current r).outcome = .pending ∨
      (finishGet S caller current r).activity = .idle ∧
        (finishGet S caller current r).outcome ≠ .pending := by
  unfold finishGet
  split
  · exact .inl ⟨rfl, rfl⟩
  · right
    split
    · dsimp only
      split
      · exact ⟨rfl, by simp⟩
      · split
        · exact ⟨rfl, by simp⟩
        · split
          · exact ⟨rfl, by simp⟩
          · exact ⟨rfl, by simp⟩
    · split
      · exact ⟨rfl, by simp⟩
      · exact ⟨rfl, by simp⟩

theorem getEnd_inCall {caller current : GetManyArgs} {msgBuffer : Option Bytes}
    {x : Exit Request Result} {e : PyEnd α} (h : getEnd S caller current msgBuffer x = some e)
    (hin : e.activity.InCall) : ∃ r, x = .waiting r := by
  unfold getEnd at h
  split at h
  · exact ⟨_, rfl⟩
  · rename_i r
    cases h
    rcases finishGet_exit S caller current r with ⟨hleft, -⟩ | ⟨hleft, -⟩ <;>
      rw [hleft] at hin <;> exact hin.elim
  · cases h

theorem Engaged.after (h : Engaged p) {start : Start Call Request} {clock : Clock} {o : Section}
    {pick : Option T} {w : System T} {e : PyEnd α}
    (hstep : Step program p.world (.crit t start clock o pick) w)
    (hwaits : e.activity.InCall → ∃ r, o.exit = .waiting r) : Engaged (p.after t w e) := by
  intro u hu
  rcases eq_or_ne u t with rfl | hne
  · rw [after_activity_self] at hu
    obtain ⟨r, hr⟩ := hwaits hu
    refine ⟨r, .inl ?_⟩
    change w.phase u = _
    rw [hstep.crit_inv.2.2.2, hr]
    rfl
  · rw [after_activity_of_ne hne] at hu
    obtain ⟨r, hr⟩ := h u hu
    exact ⟨r, hstep.keeps_pending hne hr⟩

theorem Engaged.step (h : Engaged p) (hturn : Turn S X p label q) : Engaged q := by
  cases hturn with
  | putRaise hprepare => exact h
  | put hprepare hcall hstep hend => exact h.after hstep (putEnd_inCall hend)
  | get hlimit hcall hstep hend => exact h.after hstep (getEnd_inCall hend)
  | wake hstep =>
      intro u hu
      obtain ⟨r, hr⟩ := h u hu
      exact ⟨r, hstep.wake_keeps_pending hr⟩

theorem MemoryRun.engaged (h : MemoryRun S X M N buffer recv moves q) : Engaged q := by
  have hany : ∀ m ∈ moves, True := fun _ _ => trivial
  have hboth := h.trace.invariant (I := fun p => Consistent S X p ∧ Engaged p) ?_ hany
    ⟨.init, fun t ht => ht.elim⟩
  · exact hboth.2
  · rintro m - hstep ⟨hc, hpre⟩
    have hturn := hc.turn hstep
    exact ⟨hc.step hturn, hpre.step hturn⟩

end Engagement

section Alone

/-- The step is one of this thread. -/
def PyEvent.TakenBy (t : T) : PyEvent T α → Prop
  | .putRaise u _ _ => u = t
  | .put u _ _ _ => u = t
  | .get u _ _ _ _ => u = t
  | .wake u => u = t

instance (t : T) (label : PyEvent T α) : Decidable (label.TakenBy t) :=
  match label with
  | .putRaise _ _ _ => inferInstanceAs (Decidable (_ = _))
  | .put _ _ _ _ => inferInstanceAs (Decidable (_ = _))
  | .get _ _ _ _ _ => inferInstanceAs (Decidable (_ = _))
  | .wake _ => inferInstanceAs (Decidable (_ = _))

/-- A step of this thread alone, with messages that fit in memory if it enters a call. -/
def PyEvent.Alone (t : T) (label : PyEvent T α) : Prop := label.TakenBy t ∧ label.Addressable

/-- The thread can end its method by itself. -/
def EndsWithin (S : Serializer α) (X : ℕ) (t : T) (n : ℕ) (p : PySystem T α) : Prop :=
  Within (PyStep S X) (PyEvent.Alone t) (fun q => q.activity t = .idle) n p

theorem MemoryRun.append (h : MemoryRun S X M N buffer recv moves p)
    {more : List (Move (PySystem T α) (PyEvent T α))} (htrace : Trace (PyStep S X) p more q)
    (haddr : ∀ m ∈ more, m.label.Addressable) :
    MemoryRun S X M N buffer recv (moves ++ more) q := by
  refine ⟨h.capacity, h.length_buffer, h.initial, h.trace.append htrace, ?_⟩
  intro m hm
  rcases List.mem_append.mp hm with hm | hm
  · exact h.addressable m hm
  · exact haddr m hm

theorem MemoryRun.snoc (h : MemoryRun S X M N buffer recv moves p) (hstep : PyStep S X p label q)
    (haddr : label.Addressable) : MemoryRun S X M N buffer recv (moves ++ [⟨p, label, q⟩]) q := by
  refine h.append (.single hstep) ?_
  intro m hm
  rw [List.mem_singleton.mp hm]
  exact haddr

/-- A call that may not wait ends with the section that it is in. -/
theorem exists_ending {w : System T} {f : MessageStore M N} (hf : Represents w.shared f)
    (start : Start Call Request) (clock : Clock) (hphase : w.phase t = start.phase)
    (hbound : (startCall start).Bounded) (hstop : (startCall start).block = false ∨
      timerPositive (startRemaining start clock) = false) :
    ∃ o pick w', Step program w (.crit t start clock o pick) w' ∧ ∀ r, o.exit ≠ .waiting r := by
  obtain ⟨o, hbody⟩ := section_ok hf hbound clock
  obtain ⟨pick, w', hstep⟩ := exists_step hphase hbody
  refine ⟨o, pick, w', hstep, ?_⟩
  intro r hx
  obtain ⟨-, hblock, htimer⟩ := waiting_section hbody hx
  rcases hstop with hstop | hstop
  · rw [hstop] at hblock
    cases hblock
  · rw [hstop] at htimer
    cases htimer

theorem putEnd_leaves {args : PutManyArgs α} {msgBuffer : Option Bytes} {x : Exit Request Result}
    {e : PyEnd α} (h : putEnd args msgBuffer x = some e) (hx : ∀ r, x ≠ .waiting r) :
    e.activity = .idle := by
  unfold putEnd at h
  split at h
  · exact absurd rfl (hx _)
  · cases h
    rfl
  · cases h

theorem getEnd_leaves {caller current : GetManyArgs} {msgBuffer : Option Bytes}
    {x : Exit Request Result} {e : PyEnd α} (h : getEnd S caller current msgBuffer x = some e)
    (hx : ∀ r, x ≠ .waiting r) :
    e.activity = .idle ∨ e.activity = .retrying caller current := by
  unfold getEnd at h
  split at h
  · exact absurd rfl (hx _)
  · rename_i r
    cases h
    rcases finishGet_exit S caller current r with ⟨hleft, -⟩ | ⟨hleft, -⟩
    · exact .inr hleft
    · exact .inl hleft
  · cases h

omit [DecidableEq T] in
theorem phase_of_outside (hc : Consistent S X p) (hout : ¬(p.activity t).InCall) :
    p.world.phase t = .idle := by
  have hnone : ∀ r, ¬p.world.Pending t r := by
    intro r hr
    have hruns := hc.pending t r hr
    cases hactivity : p.activity t <;> rw [hactivity] at hruns hout
    · exact hruns
    · exact hout trivial
    · exact hout trivial
    · exact hruns
  cases hphase : p.world.phase t with
  | idle => rfl
  | asleep r => exact absurd (.inl hphase) (hnone r)
  | woken r => exact absurd (.inr hphase) (hnone r)

theorem exists_retry {f : MessageStore M N} (hf : Represents p.world.shared f)
    (hc : Consistent S X p) {caller last : GetManyArgs}
    (hretrying : p.activity t = .retrying caller last) :
    ∃ current event outcome q, PyStep S X p (.get t caller current event outcome) q ∧
      (q.activity t = .idle ∨ q.activity t = .retrying caller current) := by
  have hphase := phase_of_outside hc (t := t) (by rw [hretrying]; exact id)
  let args := getManyNowaitArgs last.maxMessagesToGet
  let msgBuffer := recvBuffer (p.recv t)
  obtain ⟨o, pick, w, hstep, hx⟩ := exists_ending hf (.enter (args.call X msgBuffer))
    ⟨⟨0, 0⟩, ⟨0, 0⟩⟩ hphase trivial (.inl rfl)
  obtain ⟨e, hend⟩ := getEnd_of_section (S := S) hstep.crit_inv.2.1 rfl caller args (some msgBuffer)
  refine ⟨_, _, _, _, .getRetry hretrying rfl hstep hend, ?_⟩
  rw [after_activity_self]
  exact getEnd_leaves hend hx

/-- After an attempt that failed one retry is enough. -/
theorem ends_after_get (h : MemoryRun S X M N buffer recv moves p) {caller current : GetManyArgs}
    {event : Event T} {outcome : PyOutcome α}
    (hstep : PyStep S X p (.get t caller current event outcome) q)
    (hleft : q.activity t = .idle ∨ q.activity t = .retrying caller current) :
    EndsWithin S X t 1 q := by
  rcases hleft with hidle | hretrying
  · exact .now hidle
  · have hnext := h.snoc hstep trivial
    obtain ⟨f, hf⟩ := h.store
    obtain ⟨g, hg⟩ := hnext.store
    obtain ⟨a, hturn, -⟩ := (h.retrying t).get_turn h.consistent hstep
    have hready := hturn.ready hf.represents hnext.consistent hg hretrying
    obtain ⟨current', event', outcome', q', hretry, -⟩ :=
      exists_retry hg.represents hnext.consistent hretrying
    exact .next hretry ⟨rfl, trivial⟩ (.now (hready.retry hretry).1)

theorem ends_retrying (h : MemoryRun S X M N buffer recv moves p) {caller last : GetManyArgs}
    (hretrying : p.activity t = .retrying caller last) : EndsWithin S X t 2 p := by
  obtain ⟨f, hf⟩ := h.store
  obtain ⟨current, event, outcome, q, hstep, hleft⟩ :=
    exists_retry hf.represents h.consistent hretrying
  exact .next hstep ⟨rfl, trivial⟩ (ends_after_get h hstep hleft)

theorem timerPositive_timersub_self (v : Timeval) : timerPositive (timersub v v) = false := by
  simp [timerPositive, timersub]

/-- A thread that has been woken and finds its deadline passed. -/
theorem ends_woken (h : MemoryRun S X M N buffer recv moves p) {r : Request}
    (hphase : p.world.phase t = .woken r) (hbound : r.call.Bounded) : EndsWithin S X t 2 p := by
  obtain ⟨f, hf⟩ := h.store
  have hlate := timerPositive_timersub_self r.waitUntil
  obtain ⟨o, pick, w, hstep, hx⟩ := exists_ending hf.represents (.resume r)
    ⟨r.waitUntil, r.waitUntil⟩ hphase hbound (.inr hlate)
  have hbody := hstep.crit_inv.2.1
  have hruns := h.consistent.pending t r (.inr hphase)
  cases hactivity : p.activity t with
  | idle => exact .now hactivity
  | retrying caller last =>
      rw [hactivity] at hruns
      exact hruns.elim
  | putting args =>
      rw [hactivity] at hruns
      obtain ⟨msgs, -, hcall⟩ := hruns
      obtain ⟨e, hend⟩ := putEnd_of_section hbody hcall args (p.recv t)
      refine .next (.putResume hactivity hstep hend) ⟨rfl, trivial⟩ (.now ?_)
      rw [after_activity_self]
      exact putEnd_leaves hend hx
  | getting caller current =>
      rw [hactivity] at hruns
      obtain ⟨-, msgBuffer, hcall⟩ := hruns
      obtain ⟨e, hend⟩ := getEnd_of_section hbody hcall caller current (p.recv t)
      have hresume : PyStep S X p _ _ := .getResume hactivity hstep hend
      refine .next hresume ⟨rfl, trivial⟩ (ends_after_get h hresume ?_)
      rw [after_activity_self]
      exact getEnd_leaves hend hx

theorem ends_pending (h : MemoryRun S X M N buffer recv moves p) {r : Request}
    (hr : p.world.Pending t r) (hbound : r.call.Bounded) : EndsWithin S X t 3 p := by
  rcases hr with hasleep | hwoken
  · have hwake : PyStep S X p (.wake t) _ := .wake (.wake hasleep)
    have hnext := h.snoc hwake trivial
    exact .next hwake ⟨rfl, trivial⟩ (ends_woken hnext (Function.update_self _ _ _) hbound)
  · exact (ends_woken h hwoken hbound).mono (Nat.le_succ 2)

/-- No method is ever stuck: in every state that a run reaches, a thread whose waiting batch, if it
has one, totals less than 2^63 bytes can end its method by at most three steps of its own. -/
theorem method_ends_alone (h : MemoryRun S X M N buffer recv moves q)
    (hbound : ∀ r, q.world.Pending t r → r.call.Bounded) :
    ∃ more q', MemoryRun S X M N buffer recv (moves ++ more) q' ∧ more.length ≤ 3 ∧
      (∀ m ∈ more, m.label.TakenBy t) ∧ q'.activity t = .idle := by
  have hends : EndsWithin S X t 3 q := by
    cases hactivity : q.activity t with
    | idle => exact .now hactivity
    | retrying caller last => exact (ends_retrying h hactivity).mono (Nat.le_succ 2)
    | putting args =>
        obtain ⟨r, hr⟩ := h.engaged t (by rw [hactivity]; trivial)
        exact ends_pending h hr (hbound r hr)
    | getting caller current =>
        obtain ⟨r, hr⟩ := h.engaged t (by rw [hactivity]; trivial)
        exact ends_pending h hr (hbound r hr)
  obtain ⟨more, q', htrace, hlen, halone, hidle⟩ := hends.trace
  exact ⟨more, q', h.append htrace fun m hm => (halone m hm).2, hlen,
    fun m hm => (halone m hm).1, hidle⟩

/-- A batch of 19 bytes in a ring of 24, and the same again. -/
def crowdedSchedule (early late : T) : List (PyAction T Bytes) :=
  let clock : Clock := ⟨⟨0, 0⟩, ⟨0, 0⟩⟩
  let args : PutManyArgs Bytes := ⟨.list [[1], [2, 3]], true, defaultTimeout⟩
  [.putMany early args clock none, .putMany late args clock none]

theorem method_ends_alone_crowded :
    ∃ (moves : List (Move (PySystem (Fin 2) Bytes) (PyEvent (Fin 2) Bytes)))
      (q q' : PySystem (Fin 2) Bytes) (more : List (Move (PySystem (Fin 2) Bytes) _)),
      MemoryRun plainSerializer 24 24 5 (List.replicate 24 0) (fun _ => none) (moves ++ more) q' ∧
      q.world.phase 1 = .asleep ⟨.put ⟨[[1], [2, 3]], true, defaultTimeout⟩, ⟨10, 0⟩⟩ ∧
      more.length ≤ 3 ∧ (∀ m ∈ more, m.label.TakenBy 1) ∧ q'.activity 1 = .idle := by
  have hrun : ((PySystem.init 24 5 (List.replicate 24 0) fun _ => none :
      PySystem (Fin 2) Bytes).run plainSerializer 24 (crowdedSchedule 0 1)).any (fun r => decide
        ((∀ m ∈ r.1, m.label.Addressable) ∧ r.2.world.phase 1 =
          .asleep ⟨.put ⟨[[1], [2, 3]], true, defaultTimeout⟩, ⟨10, 0⟩⟩)) = true := by
    decide +kernel
  obtain ⟨moves, q, htrace, hq⟩ := pyReach_of_run hrun
  obtain ⟨haddr, hasleep⟩ := of_decide_eq_true hq
  have hmemory : MemoryRun plainSerializer 24 24 5 (List.replicate 24 0) (fun _ => none) moves q :=
    ⟨by decide, rfl, nofun, htrace, haddr⟩
  have hbound : ∀ r, q.world.Pending 1 r → r.call.Bounded := by
    rintro r (hr | hr)
    · rw [hasleep] at hr
      cases hr
      decide
    · rw [hasleep] at hr
      cases hr
  obtain ⟨more, q', hmore, hlen, htaken, hidle⟩ := method_ends_alone hmemory hbound
  exact ⟨moves, q, q', more, hmore, hasleep, hlen, htaken, hidle⟩

end Alone
end FasterFifo
