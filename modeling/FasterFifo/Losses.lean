import FasterFifo.Retries

/-! Where the objects go, whatever `dumps` and `loads` do and whatever limits a call is given: every
section of a method accounts for the messages it moves. -/
namespace FasterFifo
open Transition Monitor
open BoundedFifo (Store)

variable {T α : Type} {S : Serializer α} {X M N : ℕ}

/-- The object is pickled to the message. -/
def Serializer.Dumps (S : Serializer α) (x : α) (m : Bytes) : Prop := S.dumps x = some m

theorem dumpsAll_dumps {xs : List α} {ms : List Bytes} (h : dumpsAll S xs = .ok ms) :
    List.Forall₂ S.Dumps xs ms := by
  induction xs generalizing ms with
  | nil =>
      cases h
      exact .nil
  | cons x xs ih =>
      rw [dumpsAll] at h
      split at h
      · cases h
      · rename_i m hm
        cases hrest : dumpsAll S xs with
        | error e =>
            rw [hrest] at h
            cases h
        | ok rest =>
            rw [hrest] at h
            cases h
            exact .cons hm (ih hrest)

theorem prepare_dumps {xs : PutMessages α} {ms : List Bytes} (h : prepare S xs = .ok ms) :
    List.Forall₂ S.Dumps xs.objects ms := by
  cases xs with
  | list xs => exact dumpsAll_dumps h
  | tuple xs => exact dumpsAll_dumps h
  | other typeName => cases h

/-- The `QueueError` of a `get_many` that has read nothing. -/
def nothingRead (messagesRead bytesRead : ℕ) : PyError :=
  .queueError
    s!"Expected to read at least 1 message, but got {messagesRead} messages and {bytesRead} bytes"

/-- The messages that a section of `get_many` took out of the ring. -/
def PyEvent.popped : PyEvent T α → List Bytes
  | .get _ _ _ event _ => delivered event
  | _ => []

/-- The messages that a section of `put_many` brought into the ring. -/
def PyEvent.stored : PyEvent T α → List Bytes
  | .put _ _ event _ => committed event
  | _ => []

/-- What a step of the queue did to the ring, and what its caller was told. -/
inductive Accounts (S : Serializer α) (X : ℕ) (pre post : Shared) : PyEvent T α → Prop
  | unprepared {t : T} {args : PutManyArgs α} {e : PyError} (hsame : post = pre)
      (hfails : prepare S args.xs = .error e) : Accounts S X pre post (.putRaise t args e)
  | stored {t : T} {args : PutManyArgs α} {event : Event T}
      (hobjects : List.Forall₂ S.Dumps args.xs.objects (committed event)) :
      Accounts S X pre post (.put t args event .returned)
  | notStored {t : T} {args : PutManyArgs α} {event : Event T} {outcome : PyOutcome α}
      (hsame : SameRing pre post) (hnone : committed event = [])
      (hshown : outcome = .pending ∨ outcome = .raised .full) :
      Accounts S X pre post (.put t args event outcome)
  | handed {t : T} {caller current : GetManyArgs} {event : Event T} {xs : List α}
      (hne : xs ≠ []) (hobjects : List.Forall₂ S.Loads xs (delivered event)) :
      Accounts S X pre post (.get t caller current event (.got xs))
  | lost {t : T} {caller current : GetManyArgs} {event : Event T}
      (hbad : ∃ m ∈ delivered event, S.loads m = none) :
      Accounts S X pre post (.get t caller current event (.raised .loadsFailed))
  | pending {t : T} {caller current : GetManyArgs} {event : Event T} (hsame : SameRing pre post)
      (hnone : delivered event = []) : Accounts S X pre post (.get t caller current event .pending)
  | empty {t : T} {caller current : GetManyArgs} {event : Event T} (hsame : SameRing pre post)
      (hnone : delivered event = []) (hsize : pre.queue.size = 0) :
      Accounts S X pre post (.get t caller current event (.raised .empty))
  | unwanted {t : T} {caller current : GetManyArgs} {event : Event T} (hsame : SameRing pre post)
      (hnone : delivered event = []) (hsize : 0 < pre.queue.size)
      (hlimit : caller.maxMessagesToGet = 0 ∨ X = 0) :
      Accounts S X pre post (.get t caller current event (.raised (nothingRead 0 0)))
  | woken {t : T} (hsame : post = pre) : Accounts S X pre post (.wake t)

section Sections
variable {s : Shared} {f : MessageStore M N} {a : GetArgs} {caller current : GetManyArgs}

theorem finishGet_unwanted {r : GetResult} (hstatus : r.status = .success)
    (hread : r.messagesRead = 0) (hbytes : r.bytesRead = 0) :
    (finishGet S caller current r).outcome = .raised (nothingRead 0 0) := by
  have hsmall : ¬(r.status = .msgBufferTooSmall ∧ r.messagesRead ≤ 0) := by
    rw [hstatus]
    simp
  rw [finishGet, if_neg hsmall, if_pos (.inl hstatus)]
  simp only [hread, hbytes, le_refl, true_or, if_true]
  rfl

theorem finishGet_none (caller current : GetManyArgs) (hne : f.items ≠ [])
    (hk : a.serves (a.start s) f.items = 0) :
    (finishGet S caller current ((a.start s).served a f.items).result).outcome = .pending ∨
      (finishGet S caller current ((a.start s).served a f.items).result).outcome =
        .raised (nothingRead 0 0) ∧ (a.maxMessagesToGet = 0 ∨ a.maxBytesToGet = 0) := by
  have hresult := served_result a s f.items
  rw [hk, List.take_zero] at hresult
  by_cases hr : a.refuses (a.start s) f.items
  · rw [if_pos hr] at hresult
    refine .inl (finishGet_retry ?_ ?_) <;> rw [hresult]
  · rw [if_neg hr] at hresult
    refine .inr ⟨finishGet_unwanted ?_ ?_ ?_, ?_⟩
    · rw [hresult]
    · rw [hresult]
    · rw [hresult]
      rfl
    · by_contra hwants
      exact hr (refuses_of_serves_none hne (by omega) (by omega) hk)

/-- Every section of `get_many` accounts for what it popped. -/
theorem get_accounts {start : Start Call Request} {clock : Clock} {o : Section}
    {recv : Option Bytes} {e : PyEnd α} (hf : Represents s f) (hc : startCall start = .get a)
    (hlimits : a.maxMessagesToGet = caller.maxMessagesToGet ∧ a.maxBytesToGet = X)
    (hbody : program.body start clock s = .ok o)
    (hend : getEnd S caller current recv o.exit = some e) (t : T) (pick : Option T) :
    Accounts S X s o.shared (.get t caller current (.crit t start clock o pick) e.outcome) := by
  have hstart := hf.startShared start
  have hring := SameRing.startShared start s
  have hdelivered : delivered (.crit t start clock o pick) =
      ((delivery (.crit t start clock o pick)).bind GetResult.messages).getD [] := rfl
  simp only [delivery, hc] at hdelivered
  rw [body_eq, hc] at hbody
  cases queueGetWait_cases hbody with
  | empty hsize hstop =>
      cases hend
      rw [startShared_size] at hsize
      exact .empty hring hdelivered hsize
  | wait hsize hblock htimer =>
      cases hend
      exact .pending (hring.trans (.addWaiter _ _ _)) hdelivered
  | read hsize hloop =>
      cases hend
      obtain ⟨hne, rfl, -⟩ := read_spec hstart hsize hloop
      rw [Option.bind_some, served_messages hstart, Option.getD_some] at hdelivered
      rcases Nat.eq_zero_or_pos (a.serves (a.start (startShared start s)) f.items) with hk | hk
      · rw [hk, List.take_zero] at hdelivered
        have hkept := served_none hstart hne hk
        rcases finishGet_none caller current hne hk with hout | ⟨hout, hlimit⟩
        · rw [hout]
          exact .pending (by rw [hkept]; exact hring) hdelivered
        · rw [hout]
          rw [hlimits.1, hlimits.2] at hlimit
          rw [startShared_size] at hsize
          exact .unwanted (by rw [hkept]; exact hring) hdelivered hsize hlimit
      · have hholds := served_holds (a := a) hstart hk.ne'
        obtain ⟨-, hends⟩ := finishGet_ends S caller current hholds
        rcases hends with ⟨xs, hxs, hout⟩ | ⟨hbad, hout⟩
        · rw [hout]
          refine .handed ?_ (by rw [hdelivered]; exact hxs)
          rintro rfl
          exact hholds.ne_nil (List.forall₂_nil_left_iff.mp hxs)
        · rw [hout]
          exact .lost (by rw [hdelivered]; exact hbad)

theorem put_accounts {start : Start Call Request} {clock : Clock} {o : Section}
    {recv : Option Bytes} {e : PyEnd α} {args : PutManyArgs α} {msgs : List Bytes}
    (hprepare : prepare S args.xs = .ok msgs) (hc : startCall start = args.call msgs)
    (hbody : program.body start clock s = .ok o) (hend : putEnd args recv o.exit = some e) (t : T)
    (pick : Option T) :
    Accounts S X s o.shared (.put t args (.crit t start clock o pick) e.outcome) := by
  have hput : startCall start = .put ⟨msgs, args.block, args.timeout⟩ := hc
  have hring := SameRing.startShared start s
  rw [body_eq, hput] at hbody
  cases queuePutLoop_cases hbody with
  | commit hfit hwrite =>
      cases hend
      refine .stored ?_
      simp only [committed, hput]
      exact prepare_dumps hprepare
  | full hfit hstop =>
      cases hend
      exact .notStored hring (by simp only [committed, hput]) (.inr rfl)
  | wait hfit hblock htimer =>
      cases hend
      exact .notStored (hring.trans (.addWaiter _ _ _)) (by simp [committed, hput, beginWait])
        (.inl rfl)

end Sections

section Runs
variable [DecidableEq T] {p q : PySystem T α} {label : PyEvent T α} {buffer : Bytes}
  {recv : T → Option Bytes} {moves : List (Move (PySystem T α) (PyEvent T α))}

theorem turn_accounts {f : MessageStore M N} (hf : Represents p.world.shared f)
    (hturn : Turn S X p label q) :
    Accounts S X p.world.shared q.world.shared label := by
  cases hturn with
  | putRaise hprepare => exact .unprepared rfl hprepare
  | @put t args msgs start clock o pick w e hprepare hcall hstep hend =>
      obtain ⟨-, hbody, hshared, -⟩ := hstep.crit_inv
      have haccounts := put_accounts (X := X) hprepare hcall hbody hend t pick
      rw [← hshared] at haccounts
      exact haccounts
  | @get t caller current msgBuffer recv start clock o pick w e hlimit hcall hstep hend =>
      obtain ⟨-, hbody, hshared, -⟩ := hstep.crit_inv
      have haccounts := get_accounts hf hcall ⟨hlimit, rfl⟩ hbody hend t pick
      rw [← hshared] at haccounts
      exact haccounts
  | wake hstep => exact .woken hstep.wake_inv.1

/-- What a step pops leaves the ring in front, what it stores goes behind. -/
theorem turn_conserves {f : MessageStore M N} (hf : Admissible Call.Addressable p.world f)
    (haddr : label.Addressable) (hturn : Turn S X p label q) :
    ∃ g : MessageStore M N, Admissible Call.Addressable q.world g ∧
      label.popped ++ g.items = f.items ++ label.stored := by
  cases hturn with
  | putRaise hprepare => exact ⟨f, ⟨hf.represents, hf.pending⟩, (List.append_nil _).symm⟩
  | @put t args msgs start clock o pick w e hprepare hcall hstep hend =>
      have hput : startCall start = .put ⟨msgs, args.block, args.timeout⟩ := hcall
      obtain ⟨g, hg, hitems⟩ := hf.step_items (fun _ => id) haddr hstep
      have hnone : delivered (.crit t start clock o pick) = [] := by
        simp only [delivered, delivery, hput]
        rfl
      rw [hnone] at hitems
      exact ⟨g, hg, hitems⟩
  | @get t caller current msgBuffer recv start clock o pick w e hlimit hcall hstep hend =>
      have hget : startCall start = .get ⟨msgBuffer, current.maxMessagesToGet, X, current.block,
        current.timeout⟩ := hcall
      have henters : Enters Call.Addressable (.crit t start clock o pick) := by
        cases start with
        | enter c =>
            rw [show c = _ from hget]
            trivial
        | resume r => trivial
      obtain ⟨g, hg, hitems⟩ := hf.step_items (fun _ => id) henters hstep
      have hnone : committed (.crit t start clock o pick) = [] := by
        simp only [committed, hget]
      rw [hnone] at hitems
      exact ⟨g, hg, hitems⟩
  | @wake t w hstep =>
      have henters : Enters Call.Addressable (.wake t : Event T) := trivial
      obtain ⟨g, hg, hitems⟩ := hf.step_items (fun _ => id) henters hstep
      exact ⟨g, hg, hitems⟩

theorem MemoryRun.conserved (h : MemoryRun S X M N buffer recv moves q) :
    ∃ f : MessageStore M N, Admissible Call.Addressable q.world f ∧
      moves.flatMap (fun m => m.label.popped) ++ f.items =
        moves.flatMap (fun m => m.label.stored) := by
  obtain ⟨hcapacity, hlength, hinitial, htrace, haddr⟩ := h
  induction htrace with
  | nil =>
      refine ⟨Store.empty, ⟨.init hcapacity hlength, ?_⟩, rfl⟩
      rintro t r (hr | hr) <;> cases hr
  | @snoc p q moves label htrace hstep ih =>
      have hbefore := fun m hm => haddr m (List.mem_append_left _ hm)
      have hlast : label.Addressable := haddr _ (List.mem_append_right _ List.mem_cons_self)
      have hrun : MemoryRun S X M N buffer recv moves p :=
        ⟨hcapacity, hlength, hinitial, htrace, hbefore⟩
      obtain ⟨f, hf, hfifo⟩ := ih hbefore
      obtain ⟨g, hg, hitems⟩ := turn_conserves hf hlast (hrun.consistent.turn hstep)
      refine ⟨g, hg, ?_⟩
      rw [List.flatMap_append, List.flatMap_append, List.flatMap_singleton,
        List.flatMap_singleton, ← hfifo, List.append_assoc, List.append_assoc, hitems]

/-- Whatever the serializer does and whatever is asked for: in every run each step accounts for the
messages it moves, and what was popped, followed by what is queued, is what was stored. -/
theorem objects_accounted (h : MemoryRun S X M N buffer recv moves q) :
    (∀ m ∈ moves, Accounts S X m.pre.world.shared m.post.world.shared m.label) ∧
      ∃ queued, q.world.shared.messages = some queued ∧
        moves.flatMap (fun m => m.label.popped) ++ queued =
          moves.flatMap (fun m => m.label.stored) := by
  constructor
  · intro m hm
    obtain ⟨before, after, he⟩ := List.append_of_mem hm
    obtain ⟨hbefore, hstep⟩ := h.before he
    obtain ⟨f, hf⟩ := hbefore.store
    exact turn_accounts hf.represents (hbefore.consistent.turn hstep)
  · obtain ⟨f, hf, hfifo⟩ := h.conserved
    exact ⟨f.items, hf.represents.messages_eq, hfifo⟩

/-- Bytes are their own pickles, but a single zero cannot be read back. -/
def brittleSerializer : Serializer Bytes where
  dumps := some
  loads m := if m = [0] then none else some m

/-- A request for no message, then a request that meets the message that cannot be read. -/
def brittleSchedule (producer consumer : T) : List (PyAction T Bytes) :=
  let clock : Clock := ⟨⟨0, 0⟩, ⟨0, 0⟩⟩
  [.putMany producer ⟨.list [[1], [0], [2]], true, defaultTimeout⟩ clock none,
    .getMany consumer (getManyNowaitArgs 0) clock none,
    .getMany consumer (getManyNowaitArgs 5) clock none]

theorem objects_accounted_brittle :
    ∃ (moves : List (Move (PySystem (Fin 2) Bytes) (PyEvent (Fin 2) Bytes)))
      (q : PySystem (Fin 2) Bytes),
      MemoryRun brittleSerializer 40 40 5 (List.replicate 40 0) (fun _ => none) moves q ∧
      (∀ m ∈ moves, Accounts brittleSerializer 40 m.pre.world.shared m.post.world.shared m.label) ∧
      q.world.shared.messages = some [] ∧ moves.flatMap (fun m => m.label.obtained) = [] ∧
      moves.flatMap (fun m => m.label.popped) = [[1], [0], [2]] ∧
      moves.flatMap (fun m => m.label.stored) = [[1], [0], [2]] := by
  have hrun : ((PySystem.init 40 5 (List.replicate 40 0) fun _ => none :
      PySystem (Fin 2) Bytes).run brittleSerializer 40 (brittleSchedule 0 1)).any (fun r => decide
        ((∀ m ∈ r.1, m.label.Addressable) ∧ r.1.flatMap (fun m => m.label.obtained) = [] ∧
        r.1.flatMap (fun m => m.label.popped) = [[1], [0], [2]] ∧
        r.2.world.shared.messages = some [])) = true := by decide +kernel
  obtain ⟨moves, q, htrace, hany⟩ := pyReach_of_run hrun
  obtain ⟨haddr, hobtained, hpopped, hempty⟩ := of_decide_eq_true hany
  have hmemory : MemoryRun brittleSerializer 40 40 5 (List.replicate 40 0) (fun _ => none)
      moves q := ⟨by decide, List.length_replicate, nofun, htrace, haddr⟩
  obtain ⟨haccounts, queued, hqueued, hfifo⟩ := objects_accounted hmemory
  rw [hempty] at hqueued
  cases hqueued
  rw [List.append_nil, hpopped] at hfifo
  exact ⟨moves, q, hmemory, haccounts, hempty, hobtained, hpopped, hfifo.symm⟩

end Runs
end FasterFifo
