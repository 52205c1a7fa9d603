import FasterFifo.Draining
import FasterFifo.Library.Linearizability

/-! `ObjectQueue` says what `put_many` and `get_many` may answer in front of a list of queued
objects. It explains every run: a method takes effect in its last section, and a retry is part of
its call. -/
namespace FasterFifo
open Transition Monitor Linearizability
open BoundedFifo (Store total total_cons)

variable {T α : Type} {S : Serializer α} {X M N : ℕ}

inductive PyCall (α : Type) where
  | putMany (args : PutManyArgs α)
  | getMany (args : GetManyArgs)

/-- The bytes of the ring that an object takes. -/
def Serializer.weight (S : Serializer α) (x : α) : ℕ := (S.dumps x).elim 0 msgWeight

/-- The queue as a list of objects. A failing preparation changes nothing; a batch is stored whole
if there is room for it and refused if there is none; a get takes objects off the front, at least
one and at most as many as asked for, and it raises `Empty` if there are none. -/
inductive ObjectQueue (S : Serializer α) (M N : ℕ) :
    List α → PyCall α → PyOutcome α → List α → Prop
  | refused {xs : List α} {args : PutManyArgs α} {e : PyError}
      (hprepare : prepare S args.xs = .error e) :
      ObjectQueue S M N xs (.putMany args) (.raised e) xs
  | stored {xs : List α} {args : PutManyArgs α} {msgs : List Bytes}
      (hprepare : prepare S args.xs = .ok msgs)
      (hbytes : total S.weight xs + total S.weight args.xs.objects ≤ M)
      (hcount : xs.length + args.xs.objects.length ≤ N) :
      ObjectQueue S M N xs (.putMany args) .returned (xs ++ args.xs.objects)
  | full {xs : List α} {args : PutManyArgs α} {msgs : List Bytes}
      (hprepare : prepare S args.xs = .ok msgs)
      (hfull : M < total S.weight xs + total S.weight args.xs.objects ∨
        N < xs.length + args.xs.objects.length) :
      ObjectQueue S M N xs (.putMany args) (.raised .full) xs
  | got {out rest : List α} {args : GetManyArgs} (hne : out ≠ [])
      (hlimit : out.length ≤ args.maxMessagesToGet) :
      ObjectQueue S M N (out ++ rest) (.getMany args) (.got out) rest
  | empty {args : GetManyArgs} : ObjectQueue S M N [] (.getMany args) (.raised .empty) []

section Histories

/-- The method that a thread is in; a retry belongs to the call that it was made for. -/
def Activity.method : Activity α → Option (PyCall α)
  | .idle => none
  | .putting args => some (.putMany args)
  | .getting caller _ => some (.getMany caller)
  | .retrying caller _ => some (.getMany caller)

def methodsOf (p : PySystem T α) (t : T) : Option (PyCall α) := (p.activity t).method

def PyOutcome.reply : PyOutcome α → Option (PyOutcome α)
  | .pending => none
  | outcome => some outcome

/-- A section of a method begins it if its thread was in none, and may end it. -/
def methodShown (t : T) (c : PyCall α) (before : Option (PyCall α)) (outcome : PyOutcome α) :
    List (Occurrence T (PyCall α) (PyOutcome α)) :=
  (if before.isNone then [.called t c] else []) ++ outcome.reply.toList.map (.answered t)

/-- What is seen of the methods in a step. -/
def methodOccurrences (m : Move (PySystem T α) (PyEvent T α)) :
    List (Occurrence T (PyCall α) (PyOutcome α)) :=
  match m.label with
  | .putRaise t args e => [.called t (.putMany args), .answered t (.raised e)]
  | .put t args _ outcome => methodShown t (.putMany args) (methodsOf m.pre t) outcome
  | .get t caller _ _ outcome => methodShown t (.getMany caller) (methodsOf m.pre t) outcome
  | .wake _ => []

def methodHistory (moves : List (Move (PySystem T α) (PyEvent T α))) :
    List (Occurrence T (PyCall α) (PyOutcome α)) := moves.flatMap methodOccurrences

def PyEvent.answers : PyEvent T α → List (PyCall α × PyOutcome α)
  | .putRaise _ args e => [(.putMany args, .raised e)]
  | .put _ args _ outcome => outcome.reply.toList.map (PyCall.putMany args, ·)
  | .get _ caller _ _ outcome => outcome.reply.toList.map (PyCall.getMany caller, ·)
  | .wake _ => []

variable [DecidableEq T] {p q : PySystem T α} {label : PyEvent T α} {t : T}

theorem methodsOf_after (p : PySystem T α) (t : T) (w : System T) (e : PyEnd α) :
    methodsOf (p.after t w e) = Function.update (methodsOf p) t e.activity.method := by
  funext u
  rw [methodsOf]
  rcases eq_or_ne u t with rfl | hne
  · rw [after_activity_self, Function.update_self]
  · rw [after_activity_of_ne hne, Function.update_of_ne hne, methodsOf]

omit [DecidableEq T] in
theorem reply_of_ne {outcome : PyOutcome α} (h : outcome ≠ .pending) :
    outcome.reply = some outcome := by
  cases outcome with
  | pending => exact absurd rfl h
  | returned => rfl
  | got messages => rfl
  | raised e => rfl

/-- A section of a method shows its caller nothing exactly if the method goes on. -/
theorem emits_method {c : PyCall α} {w : System T} {e : PyEnd α}
    (hbefore : methodsOf p t = none ∨ methodsOf p t = some c)
    (hafter : e.outcome = .pending ∧ e.activity.method = some c ∨
      e.outcome ≠ .pending ∧ e.activity.method = none) :
    Emits (methodsOf p) (methodShown t c (methodsOf p t) e.outcome)
      (e.outcome.reply.toList.map (c, ·)) (methodsOf (p.after t w e)) := by
  rw [methodsOf_after, methodShown]
  rcases hbefore with hnone | hsome <;> rcases hafter with ⟨hpending, hon⟩ | ⟨hshown, hoff⟩
  · rw [hnone, hpending, hon]
    exact .called t c hnone
  · rw [hnone, reply_of_ne hshown, hoff, Function.update_eq_self_iff.mpr hnone.symm]
    exact .atOnce t c e.outcome hnone
  · rw [hsome, hpending, hon, Function.update_eq_self_iff.mpr hsome.symm]
    exact .silent
  · rw [hsome, reply_of_ne hshown, hoff]
    exact .answered t c e.outcome hsome

omit [DecidableEq T] in
theorem putEnd_exit {args : PutManyArgs α} {msgBuffer : Option Bytes} {x : Exit Request Result}
    {e : PyEnd α} (h : putEnd args msgBuffer x = some e) :
    e.outcome = .pending ∧ e.activity.method = some (.putMany args) ∨
      e.outcome ≠ .pending ∧ e.activity.method = none := by
  unfold putEnd at h
  split at h
  · cases h
    exact .inl ⟨rfl, rfl⟩
  · rename_i status
    cases h
    right
    cases status with
    | success => exact ⟨by simp [finishPut], rfl⟩
    | empty => exact ⟨by simp [finishPut], rfl⟩
    | full => exact ⟨by simp [finishPut], rfl⟩
    | msgBufferTooSmall => exact ⟨by simp [finishPut], rfl⟩
  · cases h

omit [DecidableEq T] in
theorem getEnd_method {caller current : GetManyArgs} {msgBuffer : Option Bytes}
    {x : Exit Request Result} {e : PyEnd α} (h : getEnd S caller current msgBuffer x = some e) :
    e.outcome = .pending ∧ e.activity.method = some (.getMany caller) ∨
      e.outcome ≠ .pending ∧ e.activity.method = none := by
  rcases getEnd_exit h with ⟨hpending, hon | hon⟩ | ⟨hshown, hidle⟩
  · exact .inl ⟨hpending, by rw [hon]; rfl⟩
  · exact .inl ⟨hpending, by rw [hon]; rfl⟩
  · exact .inr ⟨hshown, by rw [hidle]; rfl⟩

theorem emits_pyStep (hstep : PyStep S X p label q) :
    Emits (methodsOf p) (methodOccurrences ⟨p, label, q⟩) label.answers (methodsOf q) := by
  cases hstep with
  | putRaise hidle hprepare => exact .atOnce _ _ _ (congrArg Activity.method hidle)
  | putEnter hidle hprepare hstep hend =>
      exact emits_method (.inl (congrArg Activity.method hidle)) (putEnd_exit hend)
  | putResume hputting hstep hend =>
      exact emits_method (.inr (congrArg Activity.method hputting)) (putEnd_exit hend)
  | getEnter hidle hstep hend =>
      exact emits_method (.inl (congrArg Activity.method hidle)) (getEnd_method hend)
  | getRetry hretrying hargs hstep hend =>
      exact emits_method (.inr (congrArg Activity.method hretrying)) (getEnd_method hend)
  | getResume hgetting hstep hend =>
      exact emits_method (.inr (congrArg Activity.method hgetting)) (getEnd_method hend)
  | wake hstep => exact .silent

end Histories

section Answers

theorem weight_of_pickles {x : α} {m : Bytes} (h : S.Pickles x m) : S.weight x = msgWeight m := by
  rw [Serializer.weight, h.1]
  rfl

theorem total_weight {xs : List α} {ms : List Bytes} (h : List.Forall₂ S.Pickles xs ms) :
    total S.weight xs = total msgWeight ms := by
  induction h with
  | nil => rfl
  | cons hfirst _ ih => rw [total_cons, total_cons, weight_of_pickles hfirst, ih]

theorem fits_objects {f : MessageStore M N} {xs ys : List α} {msgs : List Bytes}
    (hxs : List.Forall₂ S.Pickles xs f.items) (hys : List.Forall₂ S.Pickles ys msgs) :
    f.Fits msgs ↔ total S.weight xs + total S.weight ys ≤ M ∧ xs.length + ys.length ≤ N := by
  rw [Store.Fits, total_weight hxs, total_weight hys, hxs.length_eq, hys.length_eq]

variable [DecidableEq T] {p q : PySystem T α} {label : PyEvent T α} {f : MessageStore M N}
  {xs : List α}

/-- Every step answers as the list of objects does, or leaves it alone. -/
theorem Stores.answers (h : Stores S M p f xs) (hM : 1 ≤ M) (hproper : label.Proper S)
    (hstep : PyStep S M p label q) :
    ∃ (g : MessageStore M N) (ys : List α), Stores S M q g ys ∧
      Allows (ObjectQueue S M N) xs label.answers ys := by
  have hturn := h.consistent.turn hstep
  obtain ⟨g, ys, hstores, hfifo⟩ := h.step hM hproper hturn
  refine ⟨g, ys, hstores, ?_⟩
  cases label with
  | wake t =>
      have hsame : ys = xs := hfifo.trans (List.append_nil xs)
      rw [hsame]
      exact .nil
  | putRaise t args e =>
      have hsame : ys = xs := hfifo.trans (List.append_nil xs)
      cases hturn with
      | putRaise hprepare =>
          rw [hsame]
          exact .single (.refused hprepare)
  | put t args event outcome =>
      obtain ⟨msgs, hprepare, hbound⟩ := h.put_bounded hproper.1 hturn
      have hanswer := put_answer h.sound.represents hprepare hbound hturn
      have hroom := fits_objects h.objects (prepare_pickles hproper.2 hprepare)
      rcases hanswer with rfl | ⟨rfl, hfits⟩ | ⟨rfl, hno⟩
      · have hsame : ys = xs := hfifo.trans (List.append_nil xs)
        rw [hsame]
        exact .nil
      · have hmore : ys = xs ++ args.xs.objects := hfifo
        obtain ⟨hbytes, hcount⟩ := hroom.mp hfits
        rw [hmore]
        exact .single (.stored hprepare hbytes hcount)
      · have hsame : ys = xs := hfifo.trans (List.append_nil xs)
        rw [hroom, not_and_or, not_le, not_le] at hno
        rw [hsame]
        exact .single (.full hprepare hno)
  | get t caller current event outcome =>
      cases (h.shows hM hproper hturn).1 with
      | pending hkept =>
          have hsame : ys = xs := hfifo.trans (List.append_nil xs)
          rw [hsame]
          exact .nil
      | empty hkept =>
          have hsame : ys = xs := hfifo.trans (List.append_nil xs)
          rw [hsame, h.empty_of_raised hturn]
          exact .single .empty
      | @got out _ _ hne hlimit hpre hpost hobjects =>
          have hsplit : out ++ ys = xs := hfifo.trans (List.append_nil xs)
          rw [← hsplit]
          exact .single (.got hne hlimit)

/-- The objects in the queue, which is in order. -/
def Holds (S : Serializer α) (M N : ℕ) (p : PySystem T α) (xs : List α) : Prop :=
  ∃ f : MessageStore M N, Stores S M p f xs

/-- The Python methods are linearizable: in every run the answered calls of `put_many` and
`get_many`, in an order that respects real time, are answered as by a list of objects, and the list
ends with the objects whose pickles are in the ring. -/
theorem methods_linearizable {buffer : Bytes} {recv : T → Option Bytes}
    {moves : List (Move (PySystem T α) (PyEvent T α))} (h : PyRun S M N buffer recv moves q)
    (hM : 1 ≤ M) :
    ∃ ops xs messages, q.world.shared.messages = some messages ∧
      List.Forall₂ S.Pickles xs messages ∧
      Explains (ObjectQueue S M N) [] (methodHistory moves) ops xs := by
  have hinit : Holds S M N (PySystem.init M N buffer recv : PySystem T α) [] :=
    ⟨.empty, .init, .init h.capacity h.length_buffer, .nil⟩
  have hemits : ∀ m : Move (PySystem T α) (PyEvent T α), m.label.Proper S →
      PyStep S M m.pre m.label m.post →
      Emits (methodsOf m.pre) (methodOccurrences m) m.label.answers (methodsOf m.post) :=
    fun m _ hstep => emits_pyStep hstep
  have hact : ∀ m : Move (PySystem T α) (PyEvent T α), m.label.Proper S →
      PyStep S M m.pre m.label m.post → ∀ xs, Holds S M N m.pre xs →
      ∃ ys, Holds S M N m.post ys ∧ Allows (ObjectQueue S M N) xs m.label.answers ys := by
    rintro m hproper hstep xs ⟨f, hf⟩
    obtain ⟨g, ys, hg, hallows⟩ := hf.answers hM hproper hstep
    exact ⟨ys, ⟨g, hg⟩, hallows⟩
  obtain ⟨ops, xs, ⟨f, hf⟩, hexplains⟩ :=
    exists_explanation hemits hact h.trace h.proper (fun _ => rfl) hinit
  exact ⟨ops, xs, f.items, hf.sound.represents.messages_eq, hf.objects, hexplains⟩

theorem methods_linearizable_plain :
    ∃ (moves : List (Move (PySystem (Fin 2) Bytes) (PyEvent (Fin 2) Bytes)))
      (q : PySystem (Fin 2) Bytes)
      (ops : List (Operation (Fin 2) (PyCall Bytes) (PyOutcome Bytes))),
      PyRun plainSerializer 40 5 (List.replicate 40 0) (fun _ => none) moves q ∧
      moves.flatMap (fun m => m.label.obtained) = [[1], [2, 3], []] ∧
      q.world.shared.messages = some [] ∧
      Explains (ObjectQueue plainSerializer 40 5) [] (methodHistory moves) ops [] := by
  obtain ⟨moves, q, hrun, -, hmessages, hobtained⟩ := plain_run
  obtain ⟨ops, xs, messages, hqueued, hobjects, hexplains⟩ :=
    methods_linearizable hrun (by decide)
  rw [hmessages] at hqueued
  cases hqueued
  cases hobjects
  exact ⟨moves, q, ops, hrun, hobtained, hmessages, hexplains⟩

end Answers
end FasterFifo
