import FasterFifo.Losses
import FasterFifo.Progress

/-! What one thread can do to the queue by itself: take everything out of it, in order, and so put
any batch that an empty queue has room for. -/
namespace FasterFifo
open Transition Monitor
open BoundedFifo (total)

variable {T α : Type} [DecidableEq T] {S : Serializer α} {X M N : ℕ} {buffer : Bytes}
  {recv : T → Option Bytes} {moves : List (Move (PySystem T α) (PyEvent T α))}
  {p q : PySystem T α} {label : PyEvent T α} {t : T} {f : MessageStore M N} {xs : List α}

section Orderly

/-- A run with proper batches and requests, and receive buffers of at least the initial size. -/
structure OrderlyRun (S : Serializer α) (M N : ℕ) (buffer : Bytes) (recv : T → Option Bytes)
    (moves : List (Move (PySystem T α) (PyEvent T α))) (q : PySystem T α) : Prop where
  run : PyRun S M N buffer recv moves q
  initial : ∀ t msgBuffer, recv t = some msgBuffer → initialRecvBufferSize ≤ msgBuffer.length

omit [DecidableEq T] in
theorem addressable_of_proper (h : label.Proper S) : label.Addressable := by
  cases label with
  | put t args event outcome =>
      cases event with
      | wake u => trivial
      | crit u start clock o pick =>
          cases start with
          | resume r => trivial
          | enter c => exact Call.Bounded.addressable h.1
  | _ => trivial

theorem OrderlyRun.memory (h : OrderlyRun S M N buffer recv moves q) :
    MemoryRun S M M N buffer recv moves q :=
  ⟨h.run.capacity, h.run.length_buffer, h.initial, h.run.trace,
    fun m hm => addressable_of_proper (h.run.proper m hm)⟩

theorem OrderlyRun.append (h : OrderlyRun S M N buffer recv moves p)
    {more : List (Move (PySystem T α) (PyEvent T α))} (htrace : Trace (PyStep S M) p more q)
    (hproper : ∀ m ∈ more, m.label.Proper S) :
    OrderlyRun S M N buffer recv (moves ++ more) q := by
  refine ⟨⟨h.run.capacity, h.run.length_buffer, h.run.trace.append htrace, ?_⟩, h.initial⟩
  intro m hm
  rcases List.mem_append.mp hm with hm | hm
  · exact h.run.proper m hm
  · exact hproper m hm

end Orderly

section Taking

theorem getEnd_exit {caller current : GetManyArgs} {msgBuffer : Option Bytes}
    {x : Exit Request Result} {e : PyEnd α} (h : getEnd S caller current msgBuffer x = some e) :
    e.outcome = .pending ∧
        (e.activity = .getting caller current ∨ e.activity = .retrying caller current) ∨
      e.outcome ≠ .pending ∧ e.activity = .idle := by
  unfold getEnd at h
  split at h
  · cases h
    exact .inl ⟨rfl, .inl rfl⟩
  · rename_i r
    cases h
    rcases finishGet_exit S caller current r with ⟨hleft, hpending⟩ | ⟨hleft, hshown⟩
    · exact .inl ⟨hpending, .inr hleft⟩
    · exact .inr ⟨hshown, hleft⟩
  · cases h

theorem getEnd_idle {caller current : GetManyArgs} {msgBuffer : Option Bytes}
    {x : Exit Request Result} {e : PyEnd α} (h : getEnd S caller current msgBuffer x = some e)
    (hidle : e.activity = .idle) : e.outcome ≠ .pending := by
  rcases getEnd_exit h with ⟨-, hon | hon⟩ | ⟨hshown, -⟩
  · rw [hidle] at hon
    cases hon
  · rw [hidle] at hon
    cases hon
  · exact hshown

theorem Turn.shown {caller current : GetManyArgs} {event : Event T} {outcome : PyOutcome α}
    (h : Turn S X p (.get t caller current event outcome) q) (hidle : q.activity t = .idle) :
    outcome ≠ .pending := by
  cases h with
  | get hlimit hcall hstep hend =>
      rw [after_activity_self] at hidle
      exact getEnd_idle hend hidle

theorem Stores.empty_of_raised (h : Stores S X p f xs) {caller current : GetManyArgs}
    {event : Event T} (hturn : Turn S X p (.get t caller current event (.raised .empty)) q) :
    xs = [] := by
  generalize houtcome : (PyOutcome.raised .empty : PyOutcome α) = outcome at hturn
  cases hturn with
  | get hlimit hcall hstep hend =>
      have hsize := (raised_empty hstep.crit_inv.2.1 hend houtcome.symm).1
      have hobjects := h.objects
      rw [h.sound.represents.size_eq_zero_iff.mp hsize] at hobjects
      exact List.forall₂_nil_right_iff.mp hobjects

omit [DecidableEq T] in
theorem items_eq_nil {f : MessageStore M N} (hf : Represents p.world.shared f)
    (hnone : p.world.shared.queue.numElem = 0) : f.items = [] :=
  List.eq_nil_of_length_eq_zero (hf.numElem_eq.symm.trans hnone)

/-- A step of a `get_many_nowait` of this thread. -/
def PyEvent.Takes (t : T) (K : ℕ) (label : PyEvent T α) : Prop :=
  ∃ current event outcome, label = .get t (getManyNowaitArgs K) current event outcome

omit [DecidableEq T] in
theorem proper_of_takes {K : ℕ} (hK : 1 ≤ K) (h : label.Takes t K) : label.Proper S := by
  obtain ⟨current, event, outcome, rfl⟩ := h
  exact hK

omit [DecidableEq T] in
theorem addressable_of_takes {K : ℕ} (h : label.Takes t K) : label.Addressable := by
  obtain ⟨current, event, outcome, rfl⟩ := h
  trivial

omit [DecidableEq T] in
theorem accepted_of_takes {K : ℕ} (h : label.Takes t K) : label.accepted = [] := by
  obtain ⟨current, event, outcome, rfl⟩ := h
  rfl

theorem exists_take (hf : Represents p.world.shared f) (hc : Consistent S X p)
    (hidle : p.activity t = .idle) (args : GetManyArgs) (hblock : args.block = false) :
    ∃ event outcome q, PyStep S X p (.get t args args event outcome) q ∧
      (q.activity t = .idle ∨ q.activity t = .retrying args args) := by
  have hphase := phase_of_outside hc (t := t) (by rw [hidle]; exact id)
  let msgBuffer := recvBuffer (p.recv t)
  obtain ⟨o, pick, w, hstep, hx⟩ := exists_ending hf (.enter (args.call X msgBuffer))
    ⟨⟨0, 0⟩, ⟨0, 0⟩⟩ hphase trivial (.inl hblock)
  obtain ⟨e, hend⟩ := getEnd_of_section (S := S) hstep.crit_inv.2.1 rfl args args (some msgBuffer)
  refine ⟨_, _, _, .getEnter hidle hstep hend, ?_⟩
  rw [after_activity_self]
  exact getEnd_leaves hend hx

/-- A step of `get_many_nowait` leaves no more than before, and less if it ended. -/
theorem MemoryRun.taken (h : MemoryRun S X M N buffer recv moves p) (hX : 1 ≤ X) {K : ℕ}
    (hK : 1 ≤ K) (htakes : label.Takes t K) (hstep : PyStep S X p label q) :
    q.world.shared.queue.numElem ≤ p.world.shared.queue.numElem ∧
      (q.activity t = .idle →
        q.world.shared.queue.numElem ≤ p.world.shared.queue.numElem - 1) := by
  obtain ⟨current, event, outcome, rfl⟩ := htakes
  obtain ⟨f, hf⟩ := h.store
  have hturn := h.consistent.turn hstep
  have haccounts := turn_accounts hf.represents hturn
  have haddr : (PyEvent.get t (getManyNowaitArgs K) current event outcome).Addressable := trivial
  obtain ⟨g, hg, hitems⟩ := turn_conserves hf haddr hturn
  have hlen : (delivered event).length + g.items.length = f.items.length := by
    have hboth := congrArg List.length hitems
    rwa [List.length_append, List.length_append] at hboth
  rw [hf.represents.numElem_eq, hg.represents.numElem_eq]
  refine ⟨by omega, fun hidle => ?_⟩
  have hshown := hturn.shown hidle
  -- a section that ends has popped a message, or there was none to pop
  cases haccounts with
  | handed hne hobjects =>
      have hpos := List.length_pos_of_ne_nil hne
      have hcount := hobjects.length_eq
      omega
  | lost hbad =>
      obtain ⟨m, hm, -⟩ := hbad
      have hpos := List.length_pos_of_mem hm
      omega
  | pending hsame hnone => exact absurd rfl hshown
  | empty hsame hnone hsize =>
      have hnil := congrArg List.length (hf.represents.size_eq_zero_iff.mp hsize)
      rw [List.length_nil] at hnil
      omega
  | unwanted hsame hnone hsize hlimit =>
      have hasked : (getManyNowaitArgs K).maxMessagesToGet = K := rfl
      omega

/-- One `get_many_nowait`, with at most one retry. -/
theorem take_round (h : MemoryRun S X M N buffer recv moves p) (hX : 1 ≤ X)
    (hidle : p.activity t = .idle) {K : ℕ} (hK : 1 ≤ K) :
    ∃ (more : List (Move (PySystem T α) (PyEvent T α))) (q : PySystem T α),
      Trace (PyStep S X) p more q ∧ more.length ≤ 2 ∧ (∀ m ∈ more, m.label.Takes t K) ∧
      q.activity t = .idle ∧
      q.world.shared.queue.numElem ≤ p.world.shared.queue.numElem - 1 := by
  obtain ⟨f, hf⟩ := h.store
  obtain ⟨event, outcome, q, hstep, hleft⟩ := exists_take hf.represents h.consistent hidle
    (getManyNowaitArgs K) rfl
  have htakes : (PyEvent.get t (getManyNowaitArgs K) (getManyNowaitArgs K) event outcome :
      PyEvent T α).Takes t K := ⟨_, _, _, rfl⟩
  obtain ⟨hle, hless⟩ := h.taken hX hK htakes hstep
  rcases hleft with hidle' | hretrying
  · refine ⟨_, q, .single hstep, Nat.le_succ 1, ?_, hidle', hless hidle'⟩
    intro m hm
    rw [List.mem_singleton.mp hm]
    exact htakes
  · -- the buffer was too small, so the retry has room for the first message
    have hnext := h.snoc hstep trivial
    obtain ⟨g, hg⟩ := hnext.store
    obtain ⟨a, hturn, -⟩ := (h.retrying t).get_turn h.consistent hstep
    have hready := hturn.ready hf.represents hnext.consistent hg hretrying
    obtain ⟨current, event', outcome', q', hretry, -⟩ :=
      exists_retry hg.represents hnext.consistent hretrying
    have htakes' : (PyEvent.get t (getManyNowaitArgs K) current event' outcome' :
        PyEvent T α).Takes t K := ⟨_, _, _, rfl⟩
    have hidle' := (hready.retry hretry).1
    obtain ⟨-, hless'⟩ := hnext.taken hX hK htakes' hretry
    refine ⟨_, q', (Trace.single hstep).append (.single hretry), le_rfl, ?_, hidle',
      (hless' hidle').trans (by omega)⟩
    intro m hm
    rcases List.mem_append.mp hm with hm | hm
    · rw [List.mem_singleton.mp hm]
      exact htakes
    · rw [List.mem_singleton.mp hm]
      exact htakes'

theorem take_all (h : MemoryRun S X M N buffer recv moves p) (hX : 1 ≤ X)
    (hidle : p.activity t = .idle) {K : ℕ} (hK : 1 ≤ K) {n : ℕ}
    (hn : p.world.shared.queue.numElem ≤ n) :
    ∃ (more : List (Move (PySystem T α) (PyEvent T α))) (q : PySystem T α),
      Trace (PyStep S X) p more q ∧ more.length ≤ 2 * n ∧ (∀ m ∈ more, m.label.Takes t K) ∧
      q.activity t = .idle ∧ q.world.shared.queue.numElem = 0 := by
  induction n generalizing moves p with
  | zero =>
      exact ⟨[], p, .nil, le_rfl, fun m hm => absurd hm List.not_mem_nil, hidle,
        Nat.le_zero.mp hn⟩
  | succ n ih =>
      obtain ⟨first, p', htrace, hlen, htakes, hidle', hless⟩ := take_round h hX hidle hK
      have haddr : ∀ m ∈ first, m.label.Addressable := fun m hm =>
        addressable_of_takes (htakes m hm)
      obtain ⟨more, q, htrace', hlen', htakes', hdone⟩ :=
        ih (h.append htrace haddr) hidle' (by omega)
      refine ⟨first ++ more, q, htrace.append htrace', ?_, ?_, hdone⟩
      · rw [List.length_append]
        omega
      · intro m hm
        rcases List.mem_append.mp hm with hm | hm
        · exact htakes m hm
        · exact htakes' m hm

end Taking

section Drained

theorem Stores.run (h : Stores S X p f xs) (hX : 1 ≤ X)
    (htrace : Trace (PyStep S X) p moves q) (hproper : ∀ m ∈ moves, m.label.Proper S) :
    ∃ (g : MessageStore M N) (ys : List α), Stores S X q g ys ∧
      moves.flatMap (fun m => m.label.obtained) ++ ys =
        xs ++ moves.flatMap (fun m => m.label.accepted) := by
  induction htrace with
  | nil => exact ⟨f, xs, h, (List.append_nil xs).symm⟩
  | @snoc p' q moves label _ hstep ih =>
      obtain ⟨g, ys, hstores, hfifo⟩ := ih fun m hm => hproper m (List.mem_append_left _ hm)
      have hlast : label.Proper S := hproper _ (List.mem_append_right _ List.mem_cons_self)
      obtain ⟨g', zs, hnext, hzs⟩ := hstores.step hX hlast (hstores.consistent.turn hstep)
      refine ⟨g', zs, hnext, ?_⟩
      rw [List.flatMap_append, List.flatMap_append, List.flatMap_singleton,
        List.flatMap_singleton, List.append_assoc, hzs, ← List.append_assoc, hfifo,
        List.append_assoc]

/-- Nothing is stuck in the queue: in every state that a run reaches, an idle thread that calls
nothing but `get_many_nowait` gets all the queued objects in order, within two sections an object,
and leaves the queue empty. -/
theorem gets_drain (h : OrderlyRun S M N buffer recv moves q) (hM : 1 ≤ M)
    (hidle : q.activity t = .idle) {K : ℕ} (hK : 1 ≤ K) :
    ∃ more q' objects messages, OrderlyRun S M N buffer recv (moves ++ more) q' ∧
      more.length ≤ 2 * q.world.shared.queue.numElem ∧ (∀ m ∈ more, m.label.Takes t K) ∧
      q'.activity t = .idle ∧ q'.world.shared.messages = some [] ∧
      q.world.shared.messages = some messages ∧ List.Forall₂ S.Pickles objects messages ∧
      more.flatMap (fun m => m.label.obtained) = objects := by
  obtain ⟨f, xs, hstores, -⟩ := h.run.stores hM
  obtain ⟨more, q', htrace, hlen, htakes, hidle', hdrained⟩ :=
    take_all h.memory hM hidle hK le_rfl
  have hproper : ∀ m ∈ more, m.label.Proper S := fun m hm => proper_of_takes hK (htakes m hm)
  obtain ⟨g, ys, hrest, hfifo⟩ := hstores.run hM htrace hproper
  have hitems := items_eq_nil hrest.sound.represents hdrained
  have hempty := hrest.sound.represents.messages_eq
  have hobjects := hrest.objects
  rw [hitems] at hempty hobjects
  obtain rfl := List.forall₂_nil_right_iff.mp hobjects
  refine ⟨more, q', xs, f.items, h.append htrace hproper, hlen, htakes, hidle', hempty,
    hstores.sound.represents.messages_eq, hstores.objects, ?_⟩
  have hnone : more.flatMap (fun m => m.label.accepted) = [] :=
    List.flatMap_eq_nil_iff.mpr fun m hm => accepted_of_takes (htakes m hm)
  rwa [hnone, List.append_nil, List.append_nil] at hfifo

theorem Stores.put_bounded (h : Stores S X p f xs) {args : PutManyArgs α}
    {event : Event T} {outcome : PyOutcome α} (hbound : BoundedEvent event)
    (hturn : Turn S X p (.put t args event outcome) q) :
    ∃ msgs, prepare S args.xs = .ok msgs ∧ total msgWeight msgs < 2 ^ 63 := by
  cases hturn with
  | @put _ _ msgs start clock o pick w e hprepare hcall hstep hend =>
      have hput : startCall start = .put ⟨msgs, args.block, args.timeout⟩ := hcall
      have hbatch := h.sound.start_call hstep.crit_inv.1 hbound
      rw [hput] at hbatch
      exact ⟨msgs, hprepare, hbatch⟩

/-- What a section of `put_many` shows its caller, and whether the queue had room for the batch. -/
theorem put_answer (hf : Represents p.world.shared f) {args : PutManyArgs α} {msgs : List Bytes}
    {event : Event T} {outcome : PyOutcome α} (hprepare : prepare S args.xs = .ok msgs)
    (hbound : total msgWeight msgs < 2 ^ 63)
    (hturn : Turn S X p (.put t args event outcome) q) :
    outcome = .pending ∨ outcome = .returned ∧ f.Fits msgs ∨
      outcome = .raised .full ∧ ¬f.Fits msgs := by
  cases hturn with
  | @put _ _ msgs' start clock o pick w e hprepare' hcall hstep hend =>
      cases hprepare.symm.trans hprepare'
      obtain ⟨hphase, hbody, -⟩ := hstep.crit_inv
      have hput : startCall start = .put ⟨msgs, args.block, args.timeout⟩ := hcall
      have hbatch : (Call.put ⟨msgs, args.block, args.timeout⟩).Bounded := hbound
      have hroom := canFit_iff (hf.startShared start) hbatch
      rw [body_eq, hput] at hbody
      cases queuePutLoop_cases hbody with
      | commit hfit hwrite =>
          cases hend
          exact .inr (.inl ⟨rfl, hroom.mp hfit⟩)
      | full hfit hstop =>
          cases hend
          refine .inr (.inr ⟨rfl, fun hfits => ?_⟩)
          exact absurd (hfit.symm.trans (hroom.mpr hfits)) (by decide)
      | wait hfit hblock htimer =>
          cases hend
          exact .inl rfl

theorem exists_put (hf : Represents p.world.shared f) (hc : Consistent S X p)
    (hidle : p.activity t = .idle) (args : PutManyArgs α) {msgs : List Bytes}
    (hprepare : prepare S args.xs = .ok msgs) (hbound : total msgWeight msgs < 2 ^ 63)
    (hfit : f.Fits msgs) :
    ∃ event q, PyStep S X p (.put t args event .returned) q ∧ BoundedEvent event := by
  have hphase := phase_of_outside hc (t := t) (by rw [hidle]; exact id)
  have hcall : startCall (.enter (args.call msgs)) = .put ⟨msgs, args.block, args.timeout⟩ := rfl
  have hbody := put_section_eq hf hcall hbound hfit ⟨⟨0, 0⟩, ⟨0, 0⟩⟩
  obtain ⟨pick, w, hstep⟩ := exists_step (t := t) hphase hbody
  exact ⟨_, _, .putEnter hidle hprepare hstep rfl, hbound⟩

theorem MemoryRun.emptied (h : MemoryRun S M M N buffer recv moves p)
    (hidle : p.activity t = .idle) :
    ∃ more q, MemoryRun S M M N buffer recv (moves ++ more) q ∧ q.activity t = .idle ∧
      q.world.shared.queue.numElem = 0 := by
  rcases Nat.eq_zero_or_pos M with hM | hM
  · obtain ⟨f, hf⟩ := h.store
    have hweight := mul_length_le_weight f.items
    have hbytes := f.weight_le
    refine ⟨[], p, by rwa [List.append_nil], hidle, ?_⟩
    rw [hf.represents.numElem_eq]
    simp only [sizeofSizeT] at hweight
    omega
  · obtain ⟨more, q, htrace, -, htakes, hidle', hdrained⟩ :=
      take_all h hM hidle le_rfl le_rfl
    exact ⟨more, q, h.append htrace fun m hm => addressable_of_takes (htakes m hm), hidle',
      hdrained⟩

/-- Which batches can be put at all, for any serializer: only those for which an empty queue has
room are ever accepted, and each of these can still be put from every state that a run reaches with
some thread idle. -/
theorem put_possible_iff (h : MemoryRun S M M N buffer recv moves q) {args : PutManyArgs α}
    {msgs : List Bytes} (hprepare : prepare S args.xs = .ok msgs)
    (hbound : total msgWeight msgs < 2 ^ 63) :
    ((∃ more q', MemoryRun S M M N buffer recv (moves ++ more) q' ∧
      ∃ m ∈ more, ∃ u event, m.label = .put u args event .returned) →
      total msgWeight msgs ≤ M ∧ msgs.length ≤ N) ∧
    ∀ t, q.activity t = .idle → total msgWeight msgs ≤ M ∧ msgs.length ≤ N →
      ∃ more q', MemoryRun S M M N buffer recv (moves ++ more) q' ∧
        ∃ m ∈ more, ∃ u event, m.label = .put u args event .returned := by
  constructor
  · rintro ⟨more, q', hrun, m, hm, u, event, hlabel⟩
    obtain ⟨before, after, he⟩ := List.append_of_mem (List.mem_append_right moves hm)
    obtain ⟨hbefore, hstep⟩ := hrun.before he
    obtain ⟨f, hf⟩ := hbefore.store
    have hturn := hbefore.consistent.turn hstep
    rw [hlabel] at hturn
    rcases put_answer hf.represents hprepare hbound hturn with hpending | ⟨-, hfits⟩ | ⟨hfull, -⟩
    · cases hpending
    · exact ⟨(Nat.le_add_left _ _).trans hfits.1, (Nat.le_add_left _ _).trans hfits.2⟩
    · cases hfull
  · rintro t hidle ⟨hbytes, hcount⟩
    obtain ⟨more, p, hrun, hidle', hempty⟩ := h.emptied hidle
    obtain ⟨f, hf⟩ := hrun.store
    have hfit : f.Fits msgs := by
      rw [BoundedFifo.Store.Fits, items_eq_nil hf.represents hempty]
      simpa using ⟨hbytes, hcount⟩
    obtain ⟨event, q', hput, hevent⟩ :=
      exists_put hf.represents hrun.consistent hidle' args hprepare hbound hfit
    have hlast := hrun.snoc hput (Enters.mono hevent fun c => Call.Bounded.addressable)
    rw [List.append_assoc] at hlast
    exact ⟨_, q', hlast, _, List.mem_append_right more (List.mem_singleton_self _), t, event, rfl⟩

def Activity.isIdle : Activity α → Bool
  | .idle => true
  | _ => false

omit [DecidableEq T] in
theorem isIdle_eq (h : (p.activity t).isIdle = true) : p.activity t = .idle := by
  unfold Activity.isIdle at h
  split at h
  · assumption
  · cases h

theorem crowded_run :
    ∃ (moves : List (Move (PySystem (Fin 2) Bytes) (PyEvent (Fin 2) Bytes)))
      (q : PySystem (Fin 2) Bytes),
      OrderlyRun plainSerializer 24 5 (List.replicate 24 0) (fun _ => none) moves q ∧
      q.activity 0 = .idle ∧ q.world.shared.messages = some [[1], [2, 3]] := by
  have hrun : ((PySystem.init 24 5 (List.replicate 24 0) fun _ => none :
      PySystem (Fin 2) Bytes).run plainSerializer 24 (crowdedSchedule 0 1)).any (fun r => decide
        ((∀ m ∈ r.1, m.label.Proper plainSerializer) ∧ (r.2.activity 0).isIdle = true ∧
          r.2.world.shared.messages = some [[1], [2, 3]])) = true := by
    decide +kernel
  obtain ⟨moves, q, htrace, hq⟩ := pyReach_of_run hrun
  obtain ⟨hproper, hidle, hmessages⟩ := of_decide_eq_true hq
  exact ⟨moves, q, ⟨⟨by decide, rfl, htrace, hproper⟩, by rintro t msgBuffer ⟨⟩⟩, isIdle_eq hidle,
    hmessages⟩

theorem gets_drain_crowded :
    ∃ (moves more : List (Move (PySystem (Fin 2) Bytes) (PyEvent (Fin 2) Bytes)))
      (q q' : PySystem (Fin 2) Bytes),
      q.world.shared.messages = some [[1], [2, 3]] ∧
      OrderlyRun plainSerializer 24 5 (List.replicate 24 0) (fun _ => none) (moves ++ more) q' ∧
      more.length ≤ 2 * q.world.shared.queue.numElem ∧ (∀ m ∈ more, m.label.Takes 0 1) ∧
      q'.activity 0 = .idle ∧ q'.world.shared.messages = some [] ∧
      more.flatMap (fun m => m.label.obtained) = [[1], [2, 3]] := by
  obtain ⟨moves, q, hrun, hidle, hmessages⟩ := crowded_run
  obtain ⟨more, q', objects, messages, hmore, hlen, htakes, hidle', hempty, hqueued, hobjects,
    hobtained⟩ := gets_drain hrun (by decide) hidle (K := 1) le_rfl
  rw [hmessages] at hqueued
  cases hqueued
  refine ⟨moves, more, q, q', hmessages, hmore, hlen, htakes, hidle', hempty, hobtained.trans ?_⟩
  cases hobjects with
  | cons hfirst hrest =>
      cases hrest with
      | cons hsecond hnil =>
          cases hnil
          rw [← Option.some.inj hfirst.1, ← Option.some.inj hsecond.1]

/-- In front of two queued messages and a producer that waits: the batch that would fill an empty
queue can still be put, and a byte more cannot. -/
theorem put_possible_iff_crowded :
    ∃ (moves : List (Move (PySystem (Fin 2) Bytes) (PyEvent (Fin 2) Bytes)))
      (q : PySystem (Fin 2) Bytes),
      q.world.shared.messages = some [[1], [2, 3]] ∧
      (∃ more q', MemoryRun plainSerializer 24 24 5 (List.replicate 24 0) (fun _ => none)
          (moves ++ more) q' ∧
        ∃ m ∈ more, ∃ u event, m.label =
          .put u ⟨.list [List.replicate 16 0], false, 0⟩ event .returned) ∧
      ¬∃ more q', MemoryRun plainSerializer 24 24 5 (List.replicate 24 0) (fun _ => none)
          (moves ++ more) q' ∧
        ∃ m ∈ more, ∃ u event, m.label =
          .put u ⟨.list [List.replicate 17 0], false, 0⟩ event .returned := by
  obtain ⟨moves, q, hrun, hidle, hmessages⟩ := crowded_run
  have hfull : prepare plainSerializer
      (PutManyArgs.mk (.list [List.replicate 16 0]) false 0).xs = .ok [List.replicate 16 0] := rfl
  have hlarge : prepare plainSerializer
      (PutManyArgs.mk (.list [List.replicate 17 0]) false 0).xs = .ok [List.replicate 17 0] := rfl
  refine ⟨moves, q, hmessages, ?_, ?_⟩
  · exact (put_possible_iff hrun.memory hfull (by decide)).2 0 hidle (by decide)
  · exact mt (put_possible_iff hrun.memory hlarge (by decide)).1 (by decide)

end Drained
end FasterFifo
