import FasterFifo.Observers
import FasterFifo.LoneSleepers

/-! What a thread without a rival has read of the queue before a call: the others only add to what
the only consumer has seen, and only take from what the only producer has seen. -/
namespace FasterFifo
open Transition Monitor
open BoundedFifo (total total_append total_cons total_nil)

variable {T : Type} {M N : ℕ}

/-- The calls that do not wait on the condition are puts. -/
def Cond.othersPut : Cond → Bool
  | .notEmpty => true
  | .notFull => false

/-- The section does not do what the calls that wait on the condition are for. -/
def Spares : Cond → Section → Prop
  | .notEmpty, o => ∀ r, o.exit = .returned (.get r) → r.messagesRead = 0
  | .notFull, o => o.exit ≠ .returned (.put .success)

/-- The sections that `x` ends spare the queue. -/
def SparesTick (k : Cond) (x : T) : FineEvent T → Prop
  | .unlock t _ _ o _ => t = x → Spares k o
  | _ => True

/-- The thread is not in a section, so it may be looking at the queue. -/
def Outside (x : T) (w : FineSystem T) : Prop := ∀ h, w.holder = some h → h.thread ≠ x

section Sections
variable {s : Shared} {f g : MessageStore M N} {k : Cond} {t : T} {start : Start Call Request}
  {clock : Clock} {o : Section} {pick : Option T}

theorem puts_of_cond_ne (h : (startCall start).cond ≠ k) (clock : Clock) :
    (Point.locked start clock).puts = k.othersPut := by
  simp only [Point.puts]
  cases hc : startCall start with
  | put a =>
      cases k with
      | notEmpty => rfl
      | notFull => exact absurd (congrArg Call.cond hc) h
  | get a =>
      cases k with
      | notEmpty => exact absurd (congrArg Call.cond hc) h
      | notFull => rfl

theorem delivered_of_spares (h : Spares .notEmpty o) :
    delivered (.crit t start clock o pick : Event T) = [] := by
  rw [delivered, delivery]
  split
  · rename_i r hc hx
    have hnone := h r hx
    rw [Option.bind_some, GetResult.messages, hnone]
    cases r.msgBuffer.take r.bytesRead <;> rfl
  · rfl

theorem committed_of_spares (h : Spares .notFull o) :
    committed (.crit t start clock o pick : Event T) = [] := by
  rw [committed]
  split
  · rename_i hc hx
    exact absurd hx h
  · rfl

theorem below_of_items {s' : Shared} (h : Represents s f) (h' : Represents s' g)
    (less more : List Bytes) (hitems : g.items = less ++ f.items ++ more) : Below s s' := by
  constructor
  · rw [h.size_eq, h'.size_eq, hitems, total_append, total_append]
    omega
  · rw [h.numElem_eq, h'.numElem_eq, hitems, List.length_append, List.length_append]
    omega

theorem along_of_spares (h : Represents s f) (h' : Represents o.shared g)
    (hitems : delivered (.crit t start clock o pick : Event T) ++ g.items =
      f.items ++ committed (.crit t start clock o pick : Event T))
    (hspares : Spares k o) : Along k.othersPut s o.shared := by
  cases k with
  | notEmpty =>
      rw [delivered_of_spares hspares, List.nil_append] at hitems
      exact below_of_items h h' [] _ hitems
  | notFull =>
      rw [committed_of_spares hspares, List.append_nil] at hitems
      refine below_of_items h' h (delivered (.crit t start clock o pick)) [] ?_
      rw [List.append_nil]
      exact hitems.symm

end Sections

section Watching
variable [DecidableEq T] {k : Cond} {x : T} {seen : Set Shared} {buffer : Bytes}
  {v : System T} {w w' : FineSystem T} {moves : List (Move (System T) (Event T))} {e : FineEvent T}

/-- The queue between sections, while `x` alone makes the calls that wait on `k`. -/
structure Followed (M N : ℕ) (k : Cond) (x : T) (v : System T) (w : FineSystem T) : Prop where
  observed : Observed M N v w
  keeps : w.Keeps startCall (Sole k x)
  puts : ∀ h, w.holder = some h → h.point.puts = (Point.locked h.start h.clock).puts

theorem Followed.step (h : Followed M N k x v w) (hrun : BoundedRun M N buffer moves v)
    (he : BoundedTick e) (hroles : e.Keeps (Sole k x)) (hstep : FineStep code w e w') :
    ∃ last v', BoundedRun M N buffer (moves ++ last) v' ∧ Followed M N k x v' w' ∧
      (w'.holder ≠ none → v'.shared = v.shared) := by
  obtain ⟨last, v', hrun', -, hobserved, hsame⟩ := h.observed.step hrun he hstep
  have hkeeps := h.keeps.step belongs_startCall code_implements h.observed.mirrors hroles hstep
  refine ⟨last, v', hrun', ⟨hobserved, hkeeps, ?_⟩, hsame⟩
  cases hstep with
  | lock hfree hphase =>
      rintro h' ⟨⟩
      rfl
  | @advance holder l s hholds hmore =>
      rintro h' ⟨⟩
      obtain ⟨-, hready, -⟩ := h.observed.held holder hholds
      exact (ready_more hready hmore).2.1.trans (h.puts holder hholds)
  | @signal holder k l pick g hholds hsignal hwakes =>
      rintro h' ⟨⟩
      obtain ⟨-, hready, -⟩ := h.observed.held holder hholds
      exact (ready_signal hready hsignal).2.trans (h.puts holder hholds)
  | unlock hholds hrelease => rintro h' ⟨⟩
  | wake hasleep => exact h.puts

theorem Followed.others (h : Followed M N k x v w) {holder : Holder T Call Request Clock Point}
    (hholds : w.holder = some holder) (hne : holder.thread ≠ x) :
    holder.point.puts = k.othersPut := by
  have hcond : (startCall holder.start).cond ≠ k :=
    fun hk => hne (h.keeps.held holder hholds hk)
  rw [h.puts holder hholds, puts_of_cond_ne hcond]

/-- Since `x` saw a state, the queue has moved only the way of the others; while `x` is in a
section, this is about the queue that its section found. -/
structure Watched (M N : ℕ) (k : Cond) (x : T) (seen : Set Shared) (v : System T)
    (w : FineSystem T) : Prop extends Followed M N k x v w where
  inside : ∀ h, w.holder = some h → h.thread = x → ∀ s ∈ seen, Along k.othersPut s v.shared
  outside : Outside x w → ∀ s ∈ seen, Along k.othersPut s w.shared

theorem Followed.unseen (h : Followed M N k x v w) : Watched M N k x ∅ v w where
  toFollowed := h
  inside := by rintro _ _ _ s ⟨⟩
  outside := by rintro _ s ⟨⟩

theorem Watched.look (h : Watched M N k x seen v w) (hout : Outside x w) :
    Watched M N k x (insert w.shared seen) v w where
  toFollowed := h.toFollowed
  inside := by
    intro holder hholds hx
    exact absurd hx (hout holder hholds)
  outside := by
    rintro - s (rfl | hs)
    · exact Along.refl _ _
    · exact h.outside hout s hs

theorem Watched.keeps_seen (h : Watched M N k x seen v w) (hrun : BoundedRun M N buffer moves v)
    (hspares : SparesTick k x e) (hstep : FineStep code w e w') (hout : Outside x w') {s₀ : Shared}
    (hs₀ : s₀ ∈ seen) : Along k.othersPut s₀ w'.shared := by
  cases hstep with
  | lock hfree hphase =>
      refine h.outside ?_ s₀ hs₀
      rw [Outside, hfree]
      rintro _ ⟨⟩
  | wake hasleep => exact h.outside hout s₀ hs₀
  | @advance holder l s hholds hmore =>
      have hne : holder.thread ≠ x := hout { holder with point := l } rfl
      have hbefore : Outside x w := by
        intro holder' hholds'
        cases hholds.symm.trans hholds'
        exact hne
      obtain ⟨-, hready, -⟩ := h.observed.held holder hholds
      have halong := (ready_more hready hmore).2.2
      rw [h.toFollowed.others hholds hne] at halong
      exact (h.outside hbefore s₀ hs₀).trans halong
  | @signal holder k' l pick g hholds hsignal hwakes =>
      refine h.outside ?_ s₀ hs₀
      intro holder' hholds'
      cases hholds.symm.trans hholds'
      exact hout { holder with point := l, pick := pick } rfl
  | @unlock holder o hholds hrelease =>
      by_cases hx : holder.thread = x
      · have hsection := h.observed.mirrors.unlock code_implements hholds hrelease
        have hevent : BoundedEvent (.crit holder.thread holder.start holder.clock o holder.pick) :=
          boundedEvent_of_call (h.observed.held holder hholds).1
        obtain ⟨f, hf⟩ := hrun.sound
        obtain ⟨g', hg', hitems⟩ := hf.step_items hevent hsection
        exact (h.inside holder hholds hx s₀ hs₀).trans
          (along_of_spares hf.represents hg'.represents hitems (hspares hx))
      · have hbefore : Outside x w := by
          intro holder' hholds'
          cases hholds.symm.trans hholds'
          exact hx
        dsimp only
        rw [release_shared hrelease]
        exact h.outside hbefore s₀ hs₀

theorem Watched.step (h : Watched M N k x seen v w) (hrun : BoundedRun M N buffer moves v)
    (he : BoundedTick e) (hroles : e.Keeps (Sole k x)) (hspares : SparesTick k x e)
    (hstep : FineStep code w e w') :
    ∃ last v', BoundedRun M N buffer (moves ++ last) v' ∧ Watched M N k x seen v' w' := by
  obtain ⟨last, v', hrun', hfollowed, hsame⟩ := h.toFollowed.step hrun he hroles hstep
  refine ⟨last, v', hrun', hfollowed, ?_, fun hout _ => h.keeps_seen hrun hspares hstep hout⟩
  intro holder' hholds' hx s₀ hs₀
  rw [hsame (by rw [hholds']; exact Option.some_ne_none _)]
  cases hstep with
  | lock hfree hphase =>
      rw [(h.observed.mirrors.free hfree).2]
      refine h.outside ?_ s₀ hs₀
      rw [Outside, hfree]
      rintro _ ⟨⟩
  | @advance holder l s hholds hmore =>
      cases hholds'
      exact h.inside holder hholds hx s₀ hs₀
  | @signal holder k' l pick g hholds hsignal hwakes =>
      cases hholds'
      exact h.inside holder hholds hx s₀ hs₀
  | unlock hholds hrelease => cases hholds'
  | wake hasleep => exact h.inside holder' hholds' hx s₀ hs₀

end Watching

section Runs
variable [DecidableEq T] {buffer : Bytes}
  {ticks more later : List (Move (FineSystem T) (FineEvent T))} {first second third w : FineSystem T}
  {k : Cond} {x : T} {start : Start Call Request} {clock : Clock} {o : Section} {pick : Option T}

/-- The steps of a run in which `x` alone makes the calls that wait on `k`. -/
def SoleTick (k : Cond) (x : T) (e : FineEvent T) : Prop := BoundedTick e ∧ e.Keeps (Sole k x)

theorem FineRun.followed (h : FineRun M N buffer ticks w)
    (hticks : ∀ m ∈ ticks, SoleTick k x m.label) :
    ∃ moves v, BoundedRun M N buffer moves v ∧ Followed M N k x v w := by
  obtain ⟨hcapacity, hlength, htrace, -⟩ := h
  induction htrace with
  | nil =>
      refine ⟨[], _, boundedRun_nil hcapacity hlength, observed_unlocked _, ⟨?_, ?_⟩, ?_⟩
      · rintro t p (ht | ht) <;> cases ht
      · rintro h ⟨⟩
      · rintro h ⟨⟩
  | @snoc w w' ticks e htrace hstep ih =>
      obtain ⟨moves, v, hrun, hfollowed⟩ := ih fun m hm => hticks m (List.mem_append_left _ hm)
      obtain ⟨hbounded, hroles⟩ : SoleTick k x e :=
        hticks _ (List.mem_append_right _ List.mem_cons_self)
      obtain ⟨last, v', hrun', hfollowed', -⟩ := hfollowed.step hrun hbounded hroles hstep
      exact ⟨_, v', hrun', hfollowed'⟩

theorem FineRun.watched (h : FineRun M N buffer ticks w)
    (hticks : ∀ m ∈ ticks, SoleTick k x m.label) (hout : Outside x w) :
    ∃ moves v, BoundedRun M N buffer moves v ∧ Watched M N k x {w.shared} v w := by
  obtain ⟨moves, v, hrun, hfollowed⟩ := h.followed hticks
  refine ⟨moves, v, hrun, ?_⟩
  rw [← insert_empty_eq]
  exact hfollowed.unseen.look hout

/-- What `x` has seen bounds the queue until `x` itself takes from it, or adds to it. -/
theorem Watched.trace {v : System T} {moves : List (Move (System T) (Event T))} {seen : Set Shared}
    (h : Watched M N k x seen v first) (hrun : BoundedRun M N buffer moves v)
    (htrace : Trace (FineStep code) first more w)
    (hmore : ∀ m ∈ more, SoleTick k x m.label ∧ SparesTick k x m.label) :
    ∃ moves v, BoundedRun M N buffer moves v ∧ Watched M N k x seen v w := by
  induction htrace with
  | nil => exact ⟨moves, v, hrun, h⟩
  | @snoc w w' more e htrace hstep ih =>
      obtain ⟨moves', v', hrun', hwatched⟩ := ih fun m hm => hmore m (List.mem_append_left _ hm)
      obtain ⟨⟨hbounded, hroles⟩, hspares⟩ : SoleTick k x e ∧ SparesTick k x e :=
        hmore _ (List.mem_append_right _ List.mem_cons_self)
      obtain ⟨last, v'', hrun'', hwatched'⟩ := hwatched.step hrun' hbounded hroles hspares hstep
      exact ⟨_, v'', hrun'', hwatched'⟩

/-- The section that `x` ends found the queue beyond what `x` had seen. -/
theorem Watched.section_found {v : System T} {seen : Set Shared}
    (h : Watched M N k x seen v second)
    (hunlock : FineStep code second (.unlock x start clock o pick) third) :
    (∀ s ∈ seen, Along k.othersPut s v.shared) ∧ (startCall start).Bounded ∧
      program.body start clock v.shared = .ok o := by
  cases hunlock with
  | unlock hholds hrelease =>
      have hsection := h.observed.mirrors.unlock code_implements hholds hrelease
      exact ⟨h.inside _ hholds rfl, (h.observed.held _ hholds).1, hsection.crit_inv.2.1⟩

/-- The only consumer sees that the queue is not empty, even in the middle of a put. Its next get
does not wait and does not find the queue empty, whatever the producers do: it takes at least as
many messages as the consumer has seen, unless its own limits or its receive buffer stop it. -/
theorem sole_consumer_gets_seen (h : FineRun M N buffer ticks first)
    (hticks : ∀ m ∈ ticks, SoleTick .notEmpty x m.label) (hout : Outside x first)
    (hseen : empty first.shared = false) (htrace : Trace (FineStep code) first more second)
    (hmore : ∀ m ∈ more, SoleTick .notEmpty x m.label ∧ SparesTick .notEmpty x m.label)
    (hunlock : FineStep code second (.unlock x start clock o pick) third) {a : GetArgs}
    (hget : startCall start = .get a) :
    ∃ r, o.exit = .returned (.get r) ∧
      (r.status = .success ∧ (a.maxMessagesToGet ≤ r.messagesRead ∨
          a.maxBytesToGet ≤ r.bytesRead ∨ getQueueSize first.shared ≤ r.messagesRead) ∨
        r.status = .msgBufferTooSmall ∧ a.msgBufferSize < r.messagesSize) := by
  obtain ⟨_, _, hfirst, hlook⟩ := h.watched hticks hout
  obtain ⟨moves, v, hrun, hwatched⟩ := hlook.trace hfirst htrace hmore
  obtain ⟨halong, -, hbody⟩ := hwatched.section_found hunlock
  obtain ⟨f, hf⟩ := hrun.sound
  have hcount : first.shared.queue.numElem ≤ f.items.length := by
    rw [← hf.represents.numElem_eq]
    exact Below.numElem (halong _ rfl)
  have hpos : 0 < first.shared.queue.numElem := Nat.pos_of_ne_zero (of_decide_eq_false hseen)
  have hne : f.items ≠ [] := List.ne_nil_of_length_pos (hpos.trans_le hcount)
  cases hbody.symm.trans (get_section_eq hf.represents hne hget clock)
  refine ⟨_, rfl, ?_⟩
  have hstop := (serves_isLeast a (startShared start v.shared) f.items).1
  have hrefuses := refuses_iff a (startShared start v.shared) f.items
  rw [served_result]
  by_cases hr : a.refuses (a.start (startShared start v.shared)) f.items
  · simp only [if_pos hr]
    exact .inr ⟨trivial, (hrefuses.mp hr).2.2.2⟩
  · simp only [if_neg hr]
    refine .inl ⟨trivial, ?_⟩
    simp only [Set.mem_ofPred_eq] at hstop
    rw [hrefuses] at hr
    rw [getQueueSize]
    omega

/-- The only producer reads `size` and later `num_elem`, even in the middle of gets. A batch that
has room by these numbers is stored whole by its next put, whatever the consumers do. -/
theorem sole_producer_puts_seen (h : FineRun M N buffer ticks first)
    (hticks : ∀ m ∈ ticks, SoleTick .notFull x m.label) (hfirst : Outside x first)
    (htrace : Trace (FineStep code) first more second)
    (hmore : ∀ m ∈ more, SoleTick .notFull x m.label ∧ SparesTick .notFull x m.label)
    (hsecond : Outside x second) (htrace' : Trace (FineStep code) second later third)
    (hlater : ∀ m ∈ later, SoleTick .notFull x m.label ∧ SparesTick .notFull x m.label)
    (hunlock : FineStep code third (.unlock x start clock o pick) w) {a : PutArgs}
    (hput : startCall start = .put a) :
    (getDataSize first.shared + total msgWeight a.msgs ≤ M →
        getQueueSize second.shared + a.msgs.length ≤ N → o.exit = .returned (.put .success)) ∧
      (full first.shared second.shared = false → ∀ m, a.msgs = [m] → m.length ≤ 1 →
        o.exit = .returned (.put .success)) := by
  have hlast : FineRun M N buffer (ticks ++ more) second :=
    h.append htrace fun m hm => (hmore m hm).1.1
  obtain ⟨_, _, hrun₁, hlook₁⟩ := h.watched hticks hfirst
  obtain ⟨_, _, hrun₂, hlook₂⟩ := hlook₁.trace hrun₁ htrace hmore
  obtain ⟨moves, v, hrun, hwatched⟩ := (hlook₂.look hsecond).trace hrun₂ htrace' hlater
  obtain ⟨halong, hbound, hbody⟩ := hwatched.section_found hunlock
  obtain ⟨f, hf⟩ := hrun.sound
  have hsize : v.shared.queue.size ≤ first.shared.queue.size :=
    Below.size (halong _ (Set.mem_insert_of_mem _ rfl))
  have hnum : v.shared.queue.numElem ≤ second.shared.queue.numElem :=
    Below.numElem (halong _ (Set.mem_insert _ _))
  have hstores : getDataSize first.shared + total msgWeight a.msgs ≤ M →
      getQueueSize second.shared + a.msgs.length ≤ N → o.exit = .returned (.put .success) := by
    intro hbytes helems
    rw [getDataSize] at hbytes
    rw [getQueueSize] at helems
    rw [body_eq, hput] at hbody
    rw [hput] at hbound
    have hstart := hf.represents.startShared start
    have hroom := (canFit_iff hf.represents hbound).mpr
      ((fits_iff hf.represents a.msgs).mpr (by omega))
    rw [← startShared_canFit start] at hroom
    cases queuePutLoop_cases hbody with
    | commit hfit hwrite => rfl
    | full hfit hstop => exact absurd (hroom.symm.trans hfit) (by decide)
    | wait hfit hblock htimer => exact absurd (hroom.symm.trans hfit) (by decide)
  refine ⟨hstores, ?_⟩
  intro hfull m hm hlen
  have hnot : ¬(M < first.shared.queue.size + 9 ∨ N < second.shared.queue.numElem + 1) := by
    rw [← h.full_between hlast, hfull]
    decide
  rw [not_or, not_lt, not_lt] at hnot
  refine hstores ?_ ?_
  · rw [hm, total_cons, total_nil, msgWeight, sizeofSizeT, getDataSize]
    omega
  · rw [hm, List.length_singleton, getQueueSize]
    exact hnot.2

/-- A section, a look by `x` part of the way through it, and a section of `x`. -/
def lookingAt (s : Shared) (c c' : Call) (clock : Clock) (n n' n'' : ℕ) (p : Shared → Bool) : Bool :=
  (code.advances n (.locked (.enter c) clock) s).any fun r =>
    p r.2 && (code.ends n' r.1 r.2).any fun o =>
      (code.ends n'' (.locked (.enter c') clock) o.shared).isSome

theorem looks_between {t : T} {c c' : Call} {n n' n'' : ℕ} {p : Shared → Bool} (hM : M ≤ 2 ^ 63)
    (hlen : buffer.length = M) (hne : t ≠ x) (hc : c.Bounded) (hsole : Sole k x t c)
    (hc' : c'.Bounded)
    (h : lookingAt (System.init T M N buffer).shared c c' clock n n' n'' p = true) :
    ∃ ticks first more second third o, FineRun M N buffer ticks first ∧ p first.shared = true ∧
      (∀ m ∈ ticks, SoleTick k x m.label) ∧ Outside x first ∧
      Trace (FineStep code) first more second ∧
      (∀ m ∈ more, SoleTick k x m.label ∧ SparesTick k x m.label) ∧
      FineStep code second (.unlock x (.enter c') clock o none) third := by
  obtain ⟨⟨l, s⟩, hfirst, hlater⟩ := (Option.any_eq_true _ _).mp h
  obtain ⟨hp, hsections⟩ := (Bool.and_eq_true _ _).mp hlater
  obtain ⟨o, hrest, hafter⟩ := (Option.any_eq_true _ _).mp hsections
  obtain ⟨o', hsecond⟩ := Option.isSome_iff_exists.mp hafter
  obtain ⟨ticks, hticks, hlabels⟩ :=
    enters_section (t := t) (f := fun _ => .idle) rfl hfirst
  have hroles : ∀ m ∈ ticks, SoleTick k x m.label := by
    intro m hm
    rcases hlabels m hm with he | he
    · rw [he]
      exact ⟨hc, hsole⟩
    · rw [he]
      exact ⟨trivial, trivial⟩
  obtain ⟨l₁, s₁, hadvances₁, hrelease₁⟩ := advances_of_ends hrest
  obtain ⟨rest, hrun, hrests⟩ : ∃ rest : List (Move (FineSystem T) (FineEvent T)),
      Trace (FineStep code) ⟨s, fun _ => .idle, some ⟨t, .enter c, clock, l, none⟩⟩ rest
        ⟨s₁, fun _ => .idle, some ⟨t, .enter c, clock, l₁, none⟩⟩ ∧ ∀ m ∈ rest, m.label = .advance t :=
    trace_of_advances hadvances₁
  have hleave : FineStep code
      (⟨s₁, fun _ => .idle, some ⟨t, .enter c, clock, l₁, none⟩⟩ : FineSystem T)
      (.unlock t (.enter c) clock o none)
      ⟨o.shared, Function.update (fun _ => .idle) t o.exit.phase, none⟩ :=
    .unlock (h := ⟨t, .enter c, clock, l₁, none⟩) rfl hrelease₁
  obtain ⟨l₂, s₂, hadvances₂, hrelease₂⟩ := advances_of_ends hsecond
  have hphase : Function.update (fun _ : T => (.idle : Phase Request)) t o.exit.phase x = .idle :=
    Function.update_of_ne hne.symm _ _
  obtain ⟨own, hrun', howns⟩ := enters_section hphase hadvances₂
  have hleave' : FineStep code (⟨s₂, Function.update (fun _ => .idle) t o.exit.phase,
      some ⟨x, .enter c', clock, l₂, none⟩⟩ : FineSystem T)
      (.unlock x (.enter c') clock o' none) _ :=
    .unlock (h := ⟨x, .enter c', clock, l₂, none⟩) rfl hrelease₂
  refine ⟨ticks, _, _, _, _, o', ⟨hM, hlen, hticks, fun m hm => (hroles m hm).1⟩, hp, hroles, ?_,
    (hrun.snoc hleave).append hrun', ?_, hleave'⟩
  · rintro _ ⟨⟩
    exact hne
  · intro m hm
    simp only [List.mem_append, List.mem_singleton] at hm
    rcases hm with (hm | rfl) | hm
    · rw [hrests m hm]
      exact ⟨⟨trivial, trivial⟩, trivial⟩
    · exact ⟨⟨trivial, trivial⟩, fun he => absurd he hne⟩
    · rcases howns m hm with he | he
      · rw [he]
        exact ⟨⟨hc', fun _ => rfl⟩, trivial⟩
      · rw [he]
        exact ⟨⟨trivial, trivial⟩, trivial⟩

end Runs

theorem sole_consumer_gets_seen_midway :
    ∃ (ticks more : List (Move (FineSystem (Fin 2)) (FineEvent (Fin 2))))
      (first second third : FineSystem (Fin 2)) (o : Section) (r : GetResult),
      FineRun 24 5 (List.replicate 24 0) ticks first ∧ getQueueSize first.shared = 1 ∧
      empty first.shared = false ∧ Trace (FineStep code) first more second ∧
      FineStep code second (.unlock 1 (.enter (.get ⟨List.replicate 32 0, 5, 1000, false, 0⟩))
        ⟨⟨0, 0⟩, ⟨0, 0⟩⟩ o none) third ∧ o.exit = .returned (.get r) ∧
      (r.status = .success ∧ (5 ≤ r.messagesRead ∨ 1000 ≤ r.bytesRead ∨ 1 ≤ r.messagesRead) ∨
        r.status = .msgBufferTooSmall ∧ 32 < r.messagesSize) := by
  let put : PutArgs := ⟨[[1], [2, 3]], true, 0⟩
  let get : GetArgs := ⟨List.replicate 32 0, 5, 1000, false, 0⟩
  have hrun : lookingAt (System.init (Fin 2) 24 5 (List.replicate 24 0)).shared (.put put)
      (.get get) ⟨⟨0, 0⟩, ⟨0, 0⟩⟩ 6 3 13 (fun s => decide (s.queue.numElem = 1)) = true := by
    decide +kernel
  have hput : (Call.put put).Bounded := by decide
  have hget : (Call.get get).Bounded := trivial
  have hsole : Sole .notEmpty (1 : Fin 2) 0 (.put put) := by decide
  obtain ⟨ticks, first, more, second, third, o, hfine, hone, hticks, hout, htrace, hmore, hunlock⟩ :=
    looks_between (M := 24) (by decide) rfl (by decide) hput hsole hget hrun
  have hcount : getQueueSize first.shared = 1 := of_decide_eq_true hone
  have hseen : empty first.shared = false := by rw [empty, hcount]; decide
  obtain ⟨r, hx, hr⟩ := sole_consumer_gets_seen hfine hticks hout hseen htrace hmore hunlock rfl
  rw [hcount] at hr
  exact ⟨ticks, more, first, second, third, o, r, hfine, hcount, hseen, htrace, hunlock, hx, hr⟩

theorem sole_producer_puts_seen_midway :
    ∃ (ticks more : List (Move (FineSystem (Fin 2)) (FineEvent (Fin 2))))
      (first second third : FineSystem (Fin 2)) (o : Section),
      FineRun 24 5 (List.replicate 24 0) ticks first ∧ full first.shared first.shared = false ∧
      Trace (FineStep code) first more second ∧
      FineStep code second (.unlock 1 (.enter (.put ⟨[[1]], true, 0⟩)) ⟨⟨0, 0⟩, ⟨0, 0⟩⟩ o none)
        third ∧ o.exit = .returned (.put .success) := by
  let put : PutArgs := ⟨[[1]], true, 0⟩
  let get : GetArgs := ⟨List.replicate 32 0, 5, 1000, false, 0⟩
  have hrun : lookingAt (System.init (Fin 2) 24 5 (List.replicate 24 0)).shared (.get get)
      (.put put) ⟨⟨0, 0⟩, ⟨0, 0⟩⟩ 1 1 6 (fun s => decide (full s s = false)) = true := by
    decide +kernel
  have hput : (Call.put put).Bounded := by decide
  have hget : (Call.get get).Bounded := trivial
  have hsole : Sole .notFull (1 : Fin 2) 0 (.get get) := by decide
  obtain ⟨ticks, first, more, second, third, o, hfine, hnot, hticks, hout, htrace, hmore, hunlock⟩ :=
    looks_between (M := 24) (by decide) rfl (by decide) hget hsole hput hrun
  have hfull : full first.shared first.shared = false := of_decide_eq_true hnot
  have hputs := sole_producer_puts_seen hfine hticks hout .nil
    (fun _ hm => absurd hm List.not_mem_nil) hout htrace hmore hunlock rfl
  exact ⟨ticks, more, first, second, third, o, hfine, hfull, htrace, hunlock,
    hputs.2 hfull [1] rfl (by decide)⟩

end FasterFifo
