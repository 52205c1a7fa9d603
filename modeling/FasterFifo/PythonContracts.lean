import FasterFifo.Parsing

/-! Every step of a run is the turn of one method. `Stores` relates a state to the objects in the
queue, and every turn keeps it: what is got, followed by what is stored, is what was put. -/
namespace FasterFifo
open CheckedMemory Framing Transition Monitor
open BoundedFifo (Store total)

variable {T α : Type} [DecidableEq T] {S : Serializer α} {X M N : ℕ}

section Turns

theorem putEnd_of_section {start : Start Call Request} {clock : Clock} {s : Shared} {o : Section}
    {a : PutArgs} (h : program.body start clock s = .ok o) (hc : startCall start = .put a)
    (args : PutManyArgs α) (recv : Option Bytes) : ∃ e, putEnd args recv o.exit = some e := by
  rw [body_eq, hc] at h
  cases queuePutLoop_cases h <;> exact ⟨_, rfl⟩

theorem getEnd_of_section {start : Start Call Request} {clock : Clock} {s : Shared} {o : Section}
    {a : GetArgs} (h : program.body start clock s = .ok o) (hc : startCall start = .get a)
    (caller current : GetManyArgs) (recv : Option Bytes) :
    ∃ e, getEnd S caller current recv o.exit = some e := by
  rw [body_eq, hc] at h
  cases queueGetWait_cases h <;> exact ⟨_, rfl⟩

/-- A step with everything its thread remembers of the call. -/
inductive Turn (S : Serializer α) (X : ℕ) (p : PySystem T α) : PyEvent T α → PySystem T α → Prop
  | putRaise {t : T} {args : PutManyArgs α} {e : PyError}
      (hprepare : prepare S args.xs = .error e) :
      Turn S X p (.putRaise t args e)
        { p with lastError := (PyOutcome.raised e : PyOutcome α).record p.lastError }
  | put {t : T} {args : PutManyArgs α} {msgs : List Bytes} {start : Start Call Request}
      {clock : Clock} {o : Section} {pick : Option T} {w : System T} {e : PyEnd α}
      (hprepare : prepare S args.xs = .ok msgs) (hcall : startCall start = args.call msgs)
      (hstep : Step program p.world (.crit t start clock o pick) w)
      (hend : putEnd args (p.recv t) o.exit = some e) :
      Turn S X p (.put t args (.crit t start clock o pick) e.outcome) (p.after t w e)
  | get {t : T} {caller current : GetManyArgs} {msgBuffer : Bytes} {recv : Option Bytes}
      {start : Start Call Request} {clock : Clock} {o : Section} {pick : Option T} {w : System T}
      {e : PyEnd α} (hlimit : current.maxMessagesToGet = caller.maxMessagesToGet)
      (hcall : startCall start = current.call X msgBuffer)
      (hstep : Step program p.world (.crit t start clock o pick) w)
      (hend : getEnd S caller current recv o.exit = some e) :
      Turn S X p (.get t caller current (.crit t start clock o pick) e.outcome) (p.after t w e)
  | wake {t : T} {w : System T} (hstep : Step program p.world (.wake t) w) :
      Turn S X p (.wake t) { p with world := w }

/-- The waiting request of a thread is the call its method has made. -/
def Activity.Runs (S : Serializer α) (X : ℕ) : Activity α → Request → Prop
  | .putting args, r => ∃ msgs, prepare S args.xs = .ok msgs ∧ r.call = args.call msgs
  | .getting caller current, r =>
      current.maxMessagesToGet = caller.maxMessagesToGet ∧
        ∃ msgBuffer, r.call = current.call X msgBuffer
  | _, _ => False

structure Consistent (S : Serializer α) (X : ℕ) (p : PySystem T α) : Prop where
  pending : ∀ t r, p.world.Pending t r → (p.activity t).Runs S X r
  retrying : ∀ t caller last, p.activity t = .retrying caller last →
    last.maxMessagesToGet = caller.maxMessagesToGet

variable {p q : PySystem T α} {label : PyEvent T α}

omit [DecidableEq T] in
theorem Consistent.init {buffer : Bytes} {recv : T → Option Bytes} :
    Consistent S X (PySystem.init M N buffer recv : PySystem T α) where
  pending := by rintro t r (hr | hr) <;> cases hr
  retrying := by rintro t caller last ⟨⟩

theorem Consistent.turn (h : Consistent S X p) (hstep : PyStep S X p label q) :
    Turn S X p label q := by
  cases hstep with
  | putRaise hidle hprepare => exact .putRaise hprepare
  | putEnter hidle hprepare hstep hend => exact .put hprepare rfl hstep hend
  | putResume hputting hstep hend =>
      have hruns := h.pending _ _ (.inr hstep.crit_inv.1)
      rw [hputting] at hruns
      obtain ⟨msgs, hprepare, hcall⟩ := hruns
      exact .put hprepare hcall hstep hend
  | getEnter hidle hstep hend => exact .get rfl rfl hstep hend
  | getRetry hretrying hargs hstep hend =>
      subst hargs
      have hlimit := h.retrying _ _ _ hretrying
      exact .get hlimit rfl hstep hend
  | getResume hgetting hstep hend =>
      have hruns := h.pending _ _ (.inr hstep.crit_inv.1)
      rw [hgetting] at hruns
      obtain ⟨hlimit, msgBuffer, hcall⟩ := hruns
      exact .get hlimit hcall hstep hend
  | wake hstep => exact .wake hstep

theorem Consistent.after (h : Consistent S X p) {t : T} {start : Start Call Request}
    {clock : Clock} {o : Section} {pick : Option T} {w : System T} {e : PyEnd α}
    (hstep : Step program p.world (.crit t start clock o pick) w)
    (hruns : ∀ r, o.exit = .waiting r → e.activity.Runs S X r)
    (hretrying : ∀ caller last, e.activity = .retrying caller last →
      last.maxMessagesToGet = caller.maxMessagesToGet) : Consistent S X (p.after t w e) where
  pending := by
    intro u r hr
    rcases hstep.pending hr with ⟨hne, hold⟩ | ⟨rfl, hnew⟩
    · rw [after_activity_of_ne hne]
      exact h.pending u r hold
    · rw [after_activity_self]
      exact hruns r hnew
  retrying := by
    intro u caller last hu
    rcases eq_or_ne u t with rfl | hne
    · rw [after_activity_self] at hu
      exact hretrying caller last hu
    · rw [after_activity_of_ne hne] at hu
      exact h.retrying u caller last hu

theorem Consistent.step (h : Consistent S X p) (hturn : Turn S X p label q) :
    Consistent S X q := by
  cases hturn with
  | putRaise hprepare => exact ⟨h.pending, h.retrying⟩
  | @put t args msgs start clock o pick w e hprepare hcall hstep hend =>
      have hwaiting := @waiting_call _ _ _ _ hstep.crit_inv.2.1
      refine h.after hstep ?_ ?_
      · intro r hx
        rw [hx] at hend
        cases hend
        exact ⟨msgs, hprepare, (hwaiting hx).trans hcall⟩
      · intro caller last hactivity
        unfold putEnd at hend
        split at hend <;> cases hend <;> cases hactivity
  | @get t caller current msgBuffer recv start clock o pick w e hlimit hcall hstep hend =>
      have hwaiting := @waiting_call _ _ _ _ hstep.crit_inv.2.1
      refine h.after hstep ?_ ?_
      · intro r hx
        rw [hx] at hend
        cases hend
        exact ⟨hlimit, msgBuffer, (hwaiting hx).trans hcall⟩
      · intro caller' last hactivity
        unfold getEnd at hend
        split at hend
        · cases hend
          cases hactivity
        · cases hend
          obtain ⟨rfl, rfl⟩ := finishGet_retrying hactivity
          exact hlimit
        · cases hend
  | wake hstep =>
      exact ⟨fun t r hr => h.pending t r (hstep.wake_pending hr), h.retrying⟩

end Turns

section Objects

/-- The objects of a `put_many` that returned. -/
def PyEvent.accepted : PyEvent T α → List α
  | .put _ args _ .returned => args.xs.objects
  | _ => []

/-- The objects that a `get_many` returned. -/
def PyEvent.obtained : PyEvent T α → List α
  | .get _ _ _ _ (.got xs) => xs
  | _ => []

/-- Batches of less than 2^63 bytes whose objects survive pickling, and requests for at
least one message. -/
def PyEvent.Proper (S : Serializer α) : PyEvent T α → Prop
  | .put _ args e _ => BoundedEvent e ∧ S.RoundTrips args.xs.objects
  | .get _ caller _ _ _ => 1 ≤ caller.maxMessagesToGet
  | _ => True

instance [DecidableEq α] (S : Serializer α) (label : PyEvent T α) : Decidable (label.Proper S) :=
  match label with
  | .putRaise _ _ _ => isTrue trivial
  | .put _ _ _ _ => inferInstanceAs (Decidable (_ ∧ _))
  | .get _ _ _ _ _ => inferInstanceAs (Decidable (_ ≤ _))
  | .wake _ => isTrue trivial

/-- What a section of `get_many` shows its caller: nothing yet, `Empty`, or the objects of
the frames that it popped, at least one and no more than asked for. -/
inductive Shows (S : Serializer α) (pre post : Shared) (maxMessagesToGet : ℕ) :
    PyOutcome α → Prop
  | pending (hsame : post.messages = pre.messages) : Shows S pre post maxMessagesToGet .pending
  | empty (hsame : post.messages = pre.messages) :
      Shows S pre post maxMessagesToGet (.raised .empty)
  | got {xs : List α} {popped rest : List Bytes} (hne : xs ≠ [])
      (hlimit : xs.length ≤ maxMessagesToGet) (hpre : pre.messages = some (popped ++ rest))
      (hpost : post.messages = some rest) (hobjects : List.Forall₂ S.Pickles xs popped) :
      Shows S pre post maxMessagesToGet (.got xs)

theorem Shows.record {pre post : Shared} {K : ℕ} {outcome : PyOutcome α}
    (h : Shows S pre post K outcome) (lastError : Option String) :
    outcome.record lastError = lastError := by
  cases h <;> rfl

theorem putEnd_record {args : PutManyArgs α} {recv : Option Bytes} {x : Exit Request Result}
    {e : PyEnd α} (h : putEnd args recv x = some e) (lastError : Option String) :
    e.outcome.record lastError = lastError := by
  unfold putEnd at h
  split at h <;> cases h
  · rfl
  · rename_i status
    cases status <;> rfl

variable {s : Shared} {f : MessageStore M N} {xs : List α} {t : T} {start : Start Call Request}
  {clock : Clock} {o : Section} {pick : Option T} {e : PyEnd α}

omit [DecidableEq T] in
theorem put_turn {args : PutManyArgs α} {msgs : List Bytes} {recv : Option Bytes}
    (htrips : S.RoundTrips args.xs.objects) (hprepare : prepare S args.xs = .ok msgs)
    (hcall : startCall start = args.call msgs) (hbody : program.body start clock s = .ok o)
    (hend : putEnd args recv o.exit = some e) :
    List.Forall₂ S.Pickles
      (PyEvent.accepted (.put t args (.crit t start clock o pick) e.outcome))
      (committed (.crit t start clock o pick)) ∧
    delivered (.crit t start clock o pick) = [] := by
  have hput : startCall start = .put ⟨msgs, args.block, args.timeout⟩ := hcall
  rw [body_eq, hput] at hbody
  have hdelivered : delivered (.crit t start clock o pick) = [] := by
    simp only [delivered, delivery, hput]
    rfl
  refine ⟨?_, hdelivered⟩
  simp only [committed, hput]
  cases queuePutLoop_cases hbody with
  | commit hfit hwrite =>
      cases hend
      exact prepare_pickles htrips hprepare
  | full hfit hstop =>
      cases hend
      exact .nil
  | wait hfit hblock htimer =>
      cases hend
      exact .nil

section Get
variable {caller current : GetManyArgs} {a : GetArgs} {recv : Option Bytes}

omit [DecidableEq T] in
theorem get_turn (h : Represents s f) (hobjects : List.Forall₂ S.Pickles xs f.items)
    (hK : 1 ≤ a.maxMessagesToGet) (hX : 1 ≤ a.maxBytesToGet) (hget : startCall start = .get a)
    (hbody : program.body start clock s = .ok o)
    (hend : getEnd S caller current recv o.exit = some e) :
    committed (.crit t start clock o pick) = [] ∧
    ∃ k, delivered (.crit t start clock o pick) = f.items.take k ∧ k ≤ f.items.length ∧
      (k = 0 ∧ (e.outcome = .pending ∨ e.outcome = .raised .empty) ∨
        1 ≤ k ∧ k ≤ a.maxMessagesToGet ∧ e.outcome = .got (xs.take k)) := by
  have hstart := h.startShared start
  rw [body_eq, hget] at hbody
  simp only [committed, delivered, delivery, hget]
  refine ⟨trivial, ?_⟩
  cases queueGetWait_cases hbody with
  | empty hsize hstop =>
      cases hend
      exact ⟨0, rfl, Nat.zero_le _, .inl ⟨rfl, .inr rfl⟩⟩
  | wait hsize hblock htimer =>
      cases hend
      exact ⟨0, rfl, Nat.zero_le _, .inl ⟨rfl, .inl rfl⟩⟩
  | read hsize hloop =>
      cases hend
      obtain ⟨hne, rfl, -⟩ := read_spec hstart hsize hloop
      have houtcome := finishGet_served caller current hstart hne hK hX hobjects rfl
      refine ⟨a.serves (a.start (startShared start s)) f.items, ?_,
        serves_le_length a _ f.items, ?_⟩
      · rw [Option.bind_some, served_messages hstart, Option.getD_some]
      · rcases Nat.eq_zero_or_pos (a.serves (a.start (startShared start s)) f.items) with hk | hk
        · rw [if_pos hk] at houtcome
          exact .inl ⟨hk, .inl houtcome⟩
        · rw [if_neg hk.ne'] at houtcome
          exact .inr ⟨hk, (serves_isLeast a _ _).2 (.inl le_rfl), houtcome⟩

omit [DecidableEq T] in
/-- What `queue_get` left in the receive buffer behind the bytes read has no part in the outcome. -/
theorem get_turn_fresh (h : Represents s f) (hobjects : List.Forall₂ S.Pickles xs f.items)
    (hK : 1 ≤ a.maxMessagesToGet) (hX : 1 ≤ a.maxBytesToGet) (hget : startCall start = .get a)
    (hbody : program.body start clock s = .ok o)
    (hend : getEnd S caller current recv o.exit = some e) {r : GetResult}
    (hr : delivery (.crit t start clock o pick) = some r) {msgBuffer : Bytes}
    (hsame : msgBuffer.take r.bytesRead = r.msgBuffer.take r.bytesRead) :
    (finishGet S caller current { r with msgBuffer := msgBuffer }).outcome = e.outcome := by
  have hstart := h.startShared start
  rw [body_eq, hget] at hbody
  simp only [delivery, hget] at hr
  cases queueGetWait_cases hbody with
  | empty hsize hstop =>
      cases hr
      cases hend
      rfl
  | wait hsize hblock htimer => cases hr
  | read hsize hloop =>
      cases hr
      cases hend
      obtain ⟨hne, rfl, -⟩ := read_spec hstart hsize hloop
      rw [finishGet_served caller current hstart hne hK hX hobjects hsame]
      exact (finishGet_served caller current hstart hne hK hX hobjects rfl).symm

end Get

/-- The objects in the queue, in order; every request is that of a running method. -/
structure Stores (S : Serializer α) (X : ℕ) (p : PySystem T α) (f : MessageStore M N)
    (xs : List α) : Prop where
  consistent : Consistent S X p
  sound : Sound p.world f
  objects : List.Forall₂ S.Pickles xs f.items

variable {p q : PySystem T α} {label : PyEvent T α}

theorem Stores.get_step (h : Stores S X p f xs) (hX : 1 ≤ X) {caller current : GetManyArgs}
    {msgBuffer : Bytes} {recv : Option Bytes} {w : System T}
    (hK : 1 ≤ current.maxMessagesToGet) (hcall : startCall start = current.call X msgBuffer)
    (hstep : Step program p.world (.crit t start clock o pick) w)
    (hend : getEnd S caller current recv o.exit = some e) :
    ∃ (g : MessageStore M N) (k : ℕ), Sound w g ∧ g.items = f.items.drop k ∧ k ≤ f.items.length ∧
      (k = 0 ∧ (e.outcome = .pending ∨ e.outcome = .raised .empty) ∨
        1 ≤ k ∧ k ≤ current.maxMessagesToGet ∧ e.outcome = .got (xs.take k)) := by
  have hbounded : BoundedEvent (.crit t start clock o pick) := by
    cases start with
    | enter c => rw [show c = current.call X msgBuffer from hcall]; trivial
    | resume r => trivial
  obtain ⟨g, hg, hitems⟩ := h.sound.step_items hbounded hstep
  obtain ⟨hnone, k, hdelivered, hk, houtcome⟩ :=
    get_turn h.sound.represents h.objects hK hX hcall hstep.crit_inv.2.1 hend
  refine ⟨g, k, hg, ?_, hk, houtcome⟩
  rw [hnone, List.append_nil, hdelivered] at hitems
  exact List.append_cancel_left (hitems.trans (List.take_append_drop k f.items).symm)

/-- What is obtained leaves the objects in front, what is accepted goes behind them. -/
theorem Stores.step (h : Stores S X p f xs) (hX : 1 ≤ X) (hproper : label.Proper S)
    (hturn : Turn S X p label q) :
    ∃ (g : MessageStore M N) (ys : List α), Stores S X q g ys ∧
      label.obtained ++ ys = xs ++ label.accepted := by
  have hconsistent := h.consistent.step hturn
  cases hturn with
  | putRaise hprepare =>
      exact ⟨f, xs, ⟨hconsistent, h.sound, h.objects⟩, (List.append_nil xs).symm⟩
  | put hprepare hcall hstep hend =>
      obtain ⟨g, hg, hitems⟩ := h.sound.step_items hproper.1 hstep
      obtain ⟨haccepted, hnone⟩ := put_turn hproper.2 hprepare hcall hstep.crit_inv.2.1 hend
      rw [hnone, List.nil_append] at hitems
      refine ⟨g, _, ⟨hconsistent, hg, ?_⟩, rfl⟩
      rw [hitems]
      exact List.rel_append h.objects haccepted
  | @get t caller current msgBuffer recv start clock o pick w e hlimit hcall hstep hend =>
      have hK : 1 ≤ current.maxMessagesToGet := hlimit ▸ hproper
      obtain ⟨g, k, hg, hrest, -, houtcome⟩ := h.get_step hX hK hcall hstep hend
      have hobtained : (PyEvent.get t caller current (.crit t start clock o pick)
          e.outcome).obtained = xs.take k := by
        rcases houtcome with ⟨rfl, hshown | hshown⟩ | ⟨-, -, hshown⟩ <;> rw [hshown] <;> rfl
      refine ⟨g, xs.drop k, ⟨hconsistent, hg, ?_⟩, ?_⟩
      · rw [hrest]
        exact List.forall₂_drop k h.objects
      · rw [hobtained, List.take_append_drop]
        exact (List.append_nil xs).symm
  | wake hstep =>
      refine ⟨f, xs, ⟨hconsistent, ⟨?_, ?_⟩, h.objects⟩, (List.append_nil xs).symm⟩
      · rw [hstep.wake_inv.1]
        exact h.sound.represents
      · intro u r hr
        exact h.sound.pending u r (hstep.wake_pending hr)

theorem Stores.shows (h : Stores S X p f xs) (hX : 1 ≤ X) {caller current : GetManyArgs}
    {event : Event T} {outcome : PyOutcome α} (hK : 1 ≤ caller.maxMessagesToGet)
    (hturn : Turn S X p (.get t caller current event outcome) q) :
    Shows S p.world.shared q.world.shared caller.maxMessagesToGet outcome ∧
      ∀ r, delivery event = some r → ∀ msgBuffer : Bytes,
        msgBuffer.take r.bytesRead = r.msgBuffer.take r.bytesRead →
        (finishGet S caller current { r with msgBuffer := msgBuffer }).outcome = outcome := by
  cases hturn with
  | @get _ _ _ msgBuffer recv start clock o pick w e hlimit hcall hstep hend =>
      have hK' : 1 ≤ current.maxMessagesToGet := hlimit ▸ hK
      constructor
      · obtain ⟨g, k, hg, hrest, hk, houtcome⟩ := h.get_step hX hK' hcall hstep hend
        have hpre := h.sound.represents.messages_eq
        have hpost := hg.represents.messages_eq
        rw [hrest] at hpost
        rcases houtcome with ⟨rfl, hshown | hshown⟩ | ⟨hpos, hle, hshown⟩
        · rw [hshown]
          exact .pending (hpost.trans hpre.symm)
        · rw [hshown]
          exact .empty (hpost.trans hpre.symm)
        · rw [hshown]
          have hlen : (xs.take k).length = k := by
            rw [List.length_take, h.objects.length_eq, Nat.min_eq_left hk]
          refine .got ?_ ?_ ?_ hpost (List.forall₂_take k h.objects)
          · exact List.ne_nil_of_length_pos (by rw [hlen]; exact hpos)
          · rw [hlen, ← hlimit]
            exact hle
          · rw [List.take_append_drop]
            exact hpre
      · intro r hr msgBuffer hsame
        exact get_turn_fresh h.sound.represents h.objects hK' hX hcall hstep.crit_inv.2.1 hend hr
          hsame

/-- Every list or tuple is taken. -/
def PyEvent.PutsList : PyEvent T α → Prop
  | .putRaise _ args _ => ∀ typeName, args.xs ≠ .other typeName
  | _ => True

instance (label : PyEvent T α) : Decidable label.PutsList :=
  match label with
  | .putRaise _ ⟨.other typeName, _, _⟩ _ => isFalse fun h => h typeName rfl
  | .putRaise _ ⟨.list _, _, _⟩ _ => isTrue nofun
  | .putRaise _ ⟨.tuple _, _, _⟩ _ => isTrue nofun
  | .put _ _ _ _ => isTrue trivial
  | .get _ _ _ _ _ => isTrue trivial
  | .wake _ => isTrue trivial

theorem Stores.lastError (h : Stores S X p f xs) (hX : 1 ≤ X) (hproper : label.Proper S)
    (hlist : label.PutsList) (hturn : Turn S X p label q) : q.lastError = p.lastError := by
  cases hturn with
  | @putRaise t args e hprepare =>
      cases hxs : args.xs with
      | list xs =>
          rw [hxs] at hprepare
          rw [dumpsAll_error hprepare]
          rfl
      | tuple xs =>
          rw [hxs] at hprepare
          rw [dumpsAll_error hprepare]
          rfl
      | other typeName => exact absurd hxs (hlist typeName)
  | put hprepare hcall hstep hend => exact putEnd_record hend _
  | get hlimit hcall hstep hend =>
      have hshows := (h.shows hX hproper (.get hlimit hcall hstep hend)).1
      exact hshows.record _
  | wake hstep => rfl

end Objects

section Runs
variable {buffer : Bytes} {recv : T → Option Bytes} {q : PySystem T α}
  {moves : List (Move (PySystem T α) (PyEvent T α))}

/-- A run of a new queue of at most 2^63 bytes whose batches are bounded and survive pickling,
and whose gets ask for at least one message. -/
structure PyRun (S : Serializer α) (M N : ℕ) (buffer : Bytes) (recv : T → Option Bytes)
    (moves : List (Move (PySystem T α) (PyEvent T α))) (q : PySystem T α) : Prop where
  capacity : M ≤ 2 ^ 63
  length_buffer : buffer.length = M
  trace : Trace (PyStep S M) (PySystem.init M N buffer recv) moves q
  proper : ∀ m ∈ moves, m.label.Proper S

/-- What is got, followed by what is in the queue, is what was put. -/
theorem PyRun.stores (hM : 1 ≤ M) (h : PyRun S M N buffer recv moves q) :
    ∃ (f : MessageStore M N) (xs : List α), Stores S M q f xs ∧
      moves.flatMap (fun m => m.label.obtained) ++ xs =
        moves.flatMap (fun m => m.label.accepted) := by
  obtain ⟨hcapacity, hlength, htrace, hproper⟩ := h
  induction htrace with
  | nil =>
      exact ⟨Store.empty, [], ⟨.init, .init hcapacity hlength, .nil⟩, rfl⟩
  | @snoc p q moves label htrace hstep ih =>
      obtain ⟨f, xs, hstores, hfifo⟩ := ih fun m hm => hproper m (List.mem_append_left _ hm)
      have hlast : label.Proper S := hproper _ (List.mem_append_right _ List.mem_cons_self)
      obtain ⟨g, ys, hnext, hys⟩ := hstores.step hM hlast (hstores.consistent.turn hstep)
      refine ⟨g, ys, hnext, ?_⟩
      rw [List.flatMap_append, List.flatMap_append, List.flatMap_singleton,
        List.flatMap_singleton, ← hfifo, List.append_assoc, List.append_assoc, hys]

theorem PyRun.turn (hM : 1 ≤ M) (h : PyRun S M N buffer recv moves q)
    {m : Move (PySystem T α) (PyEvent T α)} (hm : m ∈ moves) :
    ∃ (f : MessageStore M N) (xs : List α), Stores S M m.pre f xs ∧
      Turn S M m.pre m.label m.post := by
  obtain ⟨before, after, hmoves, hbefore, hstep⟩ := h.trace.of_mem hm
  have hrun : PyRun S M N buffer recv before m.pre :=
    ⟨h.capacity, h.length_buffer, hbefore, (forall_before h.proper hmoves).1⟩
  obtain ⟨f, xs, hstores, -⟩ := hrun.stores hM
  exact ⟨f, xs, hstores, hstores.consistent.turn hstep⟩

/-- The contract of `get_many` in every run: it returns objects of frames that it popped itself,
never finds a frame or a count amiss, and reads nothing of its buffer but those frames; and
over the whole run every object put is got exactly once, in order. -/
theorem get_many_contract (hM : 1 ≤ M) (h : PyRun S M N buffer recv moves q) :
    (∀ m ∈ moves, ∀ t caller current event outcome,
      m.label = .get t caller current event outcome →
      Shows S m.pre.world.shared m.post.world.shared caller.maxMessagesToGet outcome ∧
      m.post.lastError = m.pre.lastError ∧
      ∀ r, delivery event = some r → ∀ msgBuffer : Bytes,
        msgBuffer.take r.bytesRead = r.msgBuffer.take r.bytesRead →
        (finishGet S caller current { r with msgBuffer := msgBuffer }).outcome = outcome) ∧
    (∃ xs messages, q.world.shared.messages = some messages ∧
      List.Forall₂ S.Pickles xs messages ∧
      moves.flatMap (fun m => m.label.obtained) ++ xs =
        moves.flatMap (fun m => m.label.accepted)) ∧
    ((∀ m ∈ moves, m.label.PutsList) → q.lastError = none) := by
  refine ⟨?_, ?_, ?_⟩
  · intro m hm t caller current event outcome hlabel
    obtain ⟨f, xs, hstores, hturn⟩ := h.turn hM hm
    have hproper := h.proper m hm
    rw [hlabel] at hturn hproper
    obtain ⟨hshows, hfresh⟩ := hstores.shows hM hproper hturn
    exact ⟨hshows, hstores.lastError hM hproper trivial hturn, hfresh⟩
  · obtain ⟨f, xs, hstores, hfifo⟩ := h.stores hM
    exact ⟨xs, f.items, hstores.sound.represents.messages_eq, hstores.objects, hfifo⟩
  · intro hlists
    have hkept : ∀ m ∈ moves, m.post.lastError = m.pre.lastError := by
      intro m hm
      obtain ⟨f, xs, hstores, hturn⟩ := h.turn hM hm
      exact hstores.lastError hM (h.proper m hm) (hlists m hm) hturn
    refine h.trace.invariant (I := fun p => p.lastError = none) ?_ hkept rfl
    intro m hm _ hnone
    exact hm.trans hnone

end Runs

/-- Bytes are their own pickles. -/
def plainSerializer : Serializer Bytes where
  dumps := some
  loads := some

/-- A batch of three, taken by two calls with different limits. -/
def plainSchedule (producer consumer : T) : List (PyAction T Bytes) :=
  let clock : Clock := ⟨⟨0, 0⟩, ⟨0, 0⟩⟩
  [.putMany producer ⟨.list [[1], [2, 3], []], true, defaultTimeout⟩ clock none,
    .getMany consumer (getArgs true defaultTimeout) clock none,
    .getMany consumer ⟨true, defaultTimeout, 5⟩ clock none]

theorem plain_run :
    ∃ (moves : List (Move (PySystem (Fin 2) Bytes) (PyEvent (Fin 2) Bytes)))
      (q : PySystem (Fin 2) Bytes),
      PyRun plainSerializer 40 5 (List.replicate 40 0) (fun _ => none) moves q ∧
      (∀ m ∈ moves, m.label.PutsList) ∧ q.world.shared.messages = some [] ∧
      moves.flatMap (fun m => m.label.obtained) = [[1], [2, 3], []] := by
  have hrun : ((PySystem.init 40 5 (List.replicate 40 0) fun _ => none :
      PySystem (Fin 2) Bytes).run plainSerializer 40 (plainSchedule 0 1)).any (fun r => decide
        ((∀ m ∈ r.1, m.label.Proper plainSerializer) ∧ (∀ m ∈ r.1, m.label.PutsList) ∧
        r.2.world.shared.messages = some [] ∧
        r.1.flatMap (fun m => m.label.obtained) = [[1], [2, 3], []])) = true := by
    decide +kernel
  obtain ⟨moves, q, htrace, hany⟩ := pyReach_of_run hrun
  obtain ⟨hproper, hrest⟩ := of_decide_eq_true hany
  exact ⟨moves, q, ⟨by decide, rfl, htrace, hproper⟩, hrest⟩

theorem get_many_contract_plain :
    ∃ (moves : List (Move (PySystem (Fin 2) Bytes) (PyEvent (Fin 2) Bytes)))
      (q : PySystem (Fin 2) Bytes),
      PyRun plainSerializer 40 5 (List.replicate 40 0) (fun _ => none) moves q ∧
      (∀ m ∈ moves, ∀ t caller current event outcome,
        m.label = .get t caller current event outcome →
        Shows plainSerializer m.pre.world.shared m.post.world.shared caller.maxMessagesToGet
          outcome ∧
        m.post.lastError = m.pre.lastError ∧
        ∀ r, delivery event = some r → ∀ msgBuffer : Bytes,
          msgBuffer.take r.bytesRead = r.msgBuffer.take r.bytesRead →
          (finishGet plainSerializer caller current
            { r with msgBuffer := msgBuffer }).outcome = outcome) ∧
      moves.flatMap (fun m => m.label.obtained) = [[1], [2, 3], []] ∧
      moves.flatMap (fun m => m.label.accepted) = [[1], [2, 3], []] ∧ q.lastError = none := by
  obtain ⟨moves, q, hrun, hlists, hmessages, hobtained⟩ := plain_run
  obtain ⟨hshows, ⟨xs, messages, hstored, hobjects, hfifo⟩, herror⟩ :=
    get_many_contract (by decide) hrun
  rw [hmessages] at hstored
  cases hstored
  cases hobjects
  rw [hobtained] at hfifo
  exact ⟨moves, q, hrun, hshows, hobtained, hfifo.symm, herror hlists⟩

section Put
variable {buffer : Bytes} {moves : List (Move (System T) (Event T))} {w : System T}

/-- A `put_many` that raises after `queue_put` has returned was told that the queue is full. -/
theorem put_raises_full {w₀ w' : System T} (h : Trace (Step program) w₀ moves w)
    (h₀ : ∀ t, w₀.phase t = .idle) {t : T} {args : PutManyArgs α} {recv : Option Bytes}
    {start : Start Call Request} {clock : Clock} {o : Section} {pick : Option T} {e : PyEnd α}
    {error : PyError} (hstep : Step program w (.crit t start clock o pick) w')
    (hend : putEnd args recv o.exit = some e) (hraised : e.outcome = .raised error) :
    error = .full ∧
      Untouched .idle (callMoves t (moves ++ [⟨w, .crit t start clock o pick, w'⟩])) := by
  unfold putEnd at hend
  split at hend
  · cases hend
    cases hraised
  · rename_i status hx
    cases hend
    obtain ⟨a, hc, hsection⟩ := returned_put hstep.crit_inv.2.1 hx
    cases hsection with
    | commit hfit hwrite =>
        cases hx
        cases hraised
    | full hfit hstop =>
        cases hx
        cases hraised
        exact ⟨rfl, returned_put_untouched h h₀ hstep hc rfl (by decide)⟩
    | wait hfit hblock htimer => cases hx
  · cases hend

/-- `queue_put` commits its whole batch or nothing, and `put_many` that raises has put nothing. -/
theorem put_all_or_nothing (h : BoundedRun M N buffer moves w) {M' N' : ℕ} {buffer' : Bytes}
    {recv : T → Option Bytes} {pyMoves : List (Move (PySystem T α) (PyEvent T α))}
    {p : PySystem T α}
    (hpy : Trace (PyStep S X) (PySystem.init M' N' buffer' recv) pyMoves p) :
    (∀ t start a clock o pick w', startCall start = .put a →
      BoundedEvent (.crit t start clock o pick) → Step program w (.crit t start clock o pick) w' →
      (o.exit = .returned (.put .success) → Appends w.shared w'.shared a.msgs) ∧
      (o.exit = .returned (.put .full) →
        Untouched .idle (callMoves t (moves ++ [⟨w, .crit t start clock o pick, w'⟩])) ∧
        (M < w.shared.queue.size + total msgWeight a.msgs ∨
          N < w.shared.queue.numElem + a.msgs.length)) ∧
      (w.shared.queue.size + total msgWeight a.msgs ≤ M →
        w.shared.queue.numElem + a.msgs.length ≤ N → o.exit = .returned (.put .success))) ∧
    (∀ label q, PyStep S X p label q →
      (∀ t args e, label = .putRaise t args e → q.world = p.world) ∧
      (∀ t args event e, label = .put t args event (.raised e) → e = .full ∧
        Untouched .idle (callMoves t (pyMoves.flatMap worldMoves ++ [⟨p.world, event, q.world⟩])))) := by
  constructor
  · intro t start a clock o pick w' hc hb hstep
    obtain ⟨f, hf⟩ := h.sound
    obtain ⟨hphase, hbody, hshared, -⟩ := hstep.crit_inv
    have hbound := hf.start_call hphase hb
    rw [hshared]
    refine ⟨put_commits hf.represents hc hbound hbody, fun hx => ⟨?_, ?_⟩,
      put_accepted hf.represents hc hbound hbody⟩
    · exact returned_put_untouched h.trace (fun _ => rfl) hstep hc hx (by decide)
    · exact put_rejected hf.represents hc hbound hbody hx
  · intro label q hstep
    have htrace := python_trace hpy
    constructor
    · rintro t args e rfl
      cases hstep
      rfl
    · intro t args event e hlabel
      cases hstep with
      | putRaise hidle hprepare => cases hlabel
      | putEnter hidle hprepare hstep hend =>
          obtain ⟨rfl, rfl, rfl, hraised⟩ := PyEvent.put.inj hlabel
          exact put_raises_full htrace (fun _ => rfl) hstep hend hraised
      | putResume hputting hstep hend =>
          obtain ⟨rfl, rfl, rfl, hraised⟩ := PyEvent.put.inj hlabel
          exact put_raises_full htrace (fun _ => rfl) hstep hend hraised
      | getEnter hidle hstep hend => cases hlabel
      | getRetry hretrying hargs hstep hend => cases hlabel
      | getResume hgetting hstep hend => cases hlabel
      | wake hstep => cases hlabel

/-- A producer takes 19 of 24 bytes, and another one waits for as many until it wakes. -/
def refusedSchedule (early late : T) : List (Action T Call Clock) :=
  let clock : Clock := ⟨⟨0, 0⟩, ⟨0, 0⟩⟩
  let call := Call.put ⟨[[1], [2, 3]], true, 1000000⟩
  [.enter early call clock none, .enter late call clock none, .wake late]

theorem refused_run :
    ∃ (moves : List (Move (System (Fin 2)) (Event (Fin 2)))) (w w' : System (Fin 2)) (r : Request)
      (o : Section), BoundedRun 24 5 (List.replicate 24 0) moves w ∧
      Step program w (.crit 1 (.resume r) ⟨⟨1, 0⟩, ⟨1, 0⟩⟩ o none) w' ∧
      r.call = .put ⟨[[1], [2, 3]], true, 1000000⟩ ∧ o.exit = .returned (.put .full) := by
  have hrun : (program.run (System.init (Fin 2) 24 5 (List.replicate 24 0))
      (refusedSchedule 0 1)).any (fun r => decide (∀ m ∈ r.1, BoundedEvent m.label) &&
        (program.next r.2 (.resume 1 ⟨⟨1, 0⟩, ⟨1, 0⟩⟩ none)).any fun m =>
          match m.label with
          | .crit _ start _ o _ => decide
              (startCall start = .put ⟨[[1], [2, 3]], true, 1000000⟩ ∧
                o.exit = .returned (.put .full))
          | .wake _ => false) = true := by
    decide +kernel
  obtain ⟨moves, w, htrace, hw⟩ := reach_of_run hrun
  obtain ⟨hbounded, hnext⟩ := (Bool.and_eq_true _ _).mp hw
  obtain ⟨m, hm, hend⟩ := (Option.any_eq_true _ _).mp hnext
  obtain ⟨r, o, hlabel⟩ := next_resume hm
  obtain ⟨-, hstep⟩ := next_sound hm
  rw [hlabel] at hend hstep
  obtain ⟨hcall, hx⟩ := of_decide_eq_true hend
  exact ⟨moves, w, m.post, r, o, ⟨by decide, rfl, htrace, of_decide_eq_true hbounded⟩, hstep,
    hcall, hx⟩

theorem raising_run :
    ∃ (moves : List (Move (PySystem (Fin 2) Bytes) (PyEvent (Fin 2) Bytes)))
      (p q : PySystem (Fin 2) Bytes) (args : PutManyArgs Bytes) (event : Event (Fin 2)),
      Trace (PyStep plainSerializer 24) (PySystem.init 24 5 (List.replicate 24 0) fun _ => none)
        moves p ∧
      PyStep plainSerializer 24 p (.put 1 args event (.raised .full)) q := by
  have hrun : ((PySystem.init 24 5 (List.replicate 24 0) fun _ => none :
      PySystem (Fin 2) Bytes).run plainSerializer 24
        [.putMany 0 (putManyNowaitArgs (.list [[1], [2, 3]])) ⟨⟨0, 0⟩, ⟨0, 0⟩⟩ none]).any (fun r =>
          (r.2.next plainSerializer 24
            (.putMany 1 (putManyNowaitArgs (.list [[1], [2, 3]])) ⟨⟨0, 0⟩, ⟨0, 0⟩⟩ none)).any
              fun m => match m.label with
                | .put t _ _ outcome => decide (t = 1 ∧ outcome = .raised .full)
                | _ => false) = true := by
    decide +kernel
  obtain ⟨moves, p, htrace, hnext⟩ := pyReach_of_run hrun
  obtain ⟨m, hm, hend⟩ := (Option.any_eq_true _ _).mp hnext
  obtain ⟨rfl, hstep⟩ := pyNext_sound hm
  cases hlabel : m.label with
  | put t args event outcome =>
      rw [hlabel] at hend hstep
      obtain ⟨rfl, rfl⟩ := of_decide_eq_true hend
      exact ⟨moves, m.pre, m.post, args, event, htrace, hstep⟩
  | putRaise t args e =>
      rw [hlabel] at hend
      cases hend
  | get t caller current event outcome =>
      rw [hlabel] at hend
      cases hend
  | wake t =>
      rw [hlabel] at hend
      cases hend

/-- A batch stored in a new queue, one refused after a wait, and one that `put_many` raises for. -/
theorem put_all_or_nothing_plain :
    (∃ w' : System (Fin 2),
      Appends (System.init (Fin 2) 24 5 (List.replicate 24 0)).shared w'.shared [[1], []]) ∧
    (∃ (moves : List (Move (System (Fin 2)) (Event (Fin 2)))) (w w' : System (Fin 2)) (r : Request)
      (clock : Clock) (o : Section), BoundedRun 24 5 (List.replicate 24 0) moves w ∧
      Step program w (.crit 1 (.resume r) clock o none) w' ∧ o.exit = .returned (.put .full) ∧
      Untouched .idle (callMoves 1 (moves ++ [⟨w, .crit 1 (.resume r) clock o none, w'⟩])) ∧
      (24 < w.shared.queue.size + total msgWeight [[1], [2, 3]] ∨
        5 < w.shared.queue.numElem + 2)) ∧
    ∃ (pyMoves : List (Move (PySystem (Fin 2) Bytes) (PyEvent (Fin 2) Bytes)))
      (p q : PySystem (Fin 2) Bytes) (args : PutManyArgs Bytes) (event : Event (Fin 2)),
      Trace (PyStep plainSerializer 24) (PySystem.init 24 5 (List.replicate 24 0) fun _ => none)
        pyMoves p ∧
      PyStep plainSerializer 24 p (.put 1 args event (.raised .full)) q ∧
      Untouched .idle (callMoves 1 (pyMoves.flatMap worldMoves ++ [⟨p.world, event, q.world⟩])) := by
  have hnew : BoundedRun 24 5 (List.replicate 24 0) []
      (System.init (Fin 2) 24 5 (List.replicate 24 0)) :=
    ⟨by decide, rfl, .nil, fun m hm => absurd hm List.not_mem_nil⟩
  obtain ⟨pyMoves, p, q, args, event, hpy, hraising⟩ := raising_run
  refine ⟨?_, ?_, ?_⟩
  · obtain ⟨hput, -⟩ := put_all_or_nothing hnew hpy
    have hnext : (program.next (System.init (Fin 2) 24 5 (List.replicate 24 0))
        (.enter 0 (.put ⟨[[1], []], false, 0⟩) ⟨⟨0, 0⟩, ⟨0, 0⟩⟩ none)).isSome = true := by
      decide +kernel
    obtain ⟨m, hm⟩ := Option.isSome_iff_exists.mp hnext
    obtain ⟨o, hlabel⟩ := next_enter hm
    obtain ⟨-, hstep⟩ := next_sound hm
    rw [hlabel] at hstep
    have hbounded : (Call.put ⟨[[1], []], false, 0⟩).Bounded := by decide
    obtain ⟨hsuccess, -, haccepted⟩ := hput 0 (.enter _) _ _ o none m.post rfl hbounded hstep
    exact ⟨m.post, hsuccess (haccepted (by decide) (by decide))⟩
  · obtain ⟨moves, w, w', r, o, hrun, hstep, hcall, hx⟩ := refused_run
    obtain ⟨hput, -⟩ := put_all_or_nothing hrun hpy
    obtain ⟨-, hfull, -⟩ := hput 1 (.resume r) _ _ o none w' hcall trivial hstep
    obtain ⟨huntouched, hroom⟩ := hfull hx
    exact ⟨moves, w, w', r, _, o, hrun, hstep, hx, huntouched, hroom⟩
  · obtain ⟨-, hraises⟩ := put_all_or_nothing hnew hpy
    obtain ⟨-, huntouched⟩ := (hraises _ q hraising).2 1 args event .full rfl
    exact ⟨pyMoves, p, q, args, event, hpy, hraising, huntouched⟩

end Put
end FasterFifo
