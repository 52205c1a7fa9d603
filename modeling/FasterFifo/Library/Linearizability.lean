import FasterFifo.Library.Roles

/-! The history of a run shows calls and answers. A run is linearizable if a sequential object gives
the same answers in some order that respects real time; in a monitor, that of the returning
sections. -/
namespace Linearizability
open Transition Monitor Function

variable {T ι ρ α : Type*}

/-- What is seen of a thread from outside. -/
inductive Occurrence (T ι ρ : Type*) where
  | called (t : T) (c : ι)
  | answered (t : T) (r : ρ)

def Occurrence.thread : Occurrence T ι ρ → T
  | .called t _ => t
  | .answered t _ => t

/-- A call with its answer, and the places of both in the history. -/
structure Operation (T ι ρ : Type*) where
  thread : T
  call : ι
  reply : ρ
  start : ℕ
  finish : ℕ

/-- The call made at `start` has not been answered. -/
structure Open (h : List (Occurrence T ι ρ)) (t : T) (c : ι) (start : ℕ) : Prop where
  called : h[start]? = some (.called t c)
  silent : ∀ i x, start < i → h[i]? = some x → x.thread ≠ t

/-- The call made at `start` is answered at `finish`, before anything else of its thread. -/
structure Completed (h : List (Occurrence T ι ρ)) (o : Operation T ι ρ) : Prop where
  called : h[o.start]? = some (.called o.thread o.call)
  answered : h[o.finish]? = some (.answered o.thread o.reply)
  lt : o.start < o.finish
  silent : ∀ i x, o.start < i → i < o.finish → h[i]? = some x → x.thread ≠ o.thread

/-- What the object answers to a list of calls, one after the other, and where it ends. -/
def replay (apply : α → ι → α × ρ) : α → List ι → α × List ρ
  | a, [] => (a, [])
  | a, c :: cs =>
      ((replay apply (apply a c).1 cs).1, (apply a c).2 :: (replay apply (apply a c).1 cs).2)

/-- The completed calls of the history, each of them once, in an order that the object
accepts and that contradicts no order in real time. -/
structure Linearizes (apply : α → ι → α × ρ) (a : α) (h : List (Occurrence T ι ρ))
    (ops : List (Operation T ι ρ)) (b : α) : Prop where
  complete : ∀ o, o ∈ ops ↔ Completed h o
  once : ops.Nodup
  ordered : ops.Pairwise fun x y => ¬y.finish < x.start
  legal : replay apply a (ops.map Operation.call) = (b, ops.map Operation.reply)

/-- The answers that an object with a choice may give, one after the other. -/
inductive Allows (spec : α → ι → ρ → α → Prop) : α → List (ι × ρ) → α → Prop
  | nil {a : α} : Allows spec a [] a
  | cons {a b d : α} {c : ι} {r : ρ} {rest : List (ι × ρ)} (hone : spec a c r b)
      (hrest : Allows spec b rest d) : Allows spec a ((c, r) :: rest) d

/-- As `Linearizes`, for an object with a choice. -/
structure Explains (spec : α → ι → ρ → α → Prop) (a : α) (h : List (Occurrence T ι ρ))
    (ops : List (Operation T ι ρ)) (b : α) : Prop where
  complete : ∀ o, o ∈ ops ↔ Completed h o
  once : ops.Nodup
  ordered : ops.Pairwise fun x y => ¬y.finish < x.start
  legal : Allows spec a (ops.map fun o => (o.call, o.reply)) b

section Objects
variable {spec : α → ι → ρ → α → Prop} {apply : α → ι → α × ρ} {a b d : α} {xs ys : List (ι × ρ)}

theorem Allows.append (h : Allows spec a xs b) (k : Allows spec b ys d) :
    Allows spec a (xs ++ ys) d := by
  induction h with
  | nil => exact k
  | cons hone _ ih => exact .cons hone (ih k)

theorem Allows.single {c : ι} {r : ρ} (h : spec a c r b) : Allows spec a [(c, r)] b :=
  .cons h .nil

theorem allows_iff_replay : Allows (fun a c r b => apply a c = (b, r)) a xs b ↔
    replay apply a (xs.map Prod.fst) = (b, xs.map Prod.snd) := by
  induction xs generalizing a with
  | nil =>
      constructor
      · intro h
        cases h
        rfl
      · intro h
        cases h
        exact .nil
  | cons x xs ih =>
      obtain ⟨c, r⟩ := x
      rw [List.map_cons, List.map_cons, replay, Prod.mk.injEq, List.cons.injEq]
      constructor
      · intro h
        cases h with
        | cons hone hrest =>
            rw [hone, ih.mp hrest]
            exact ⟨rfl, rfl, rfl⟩
      · rintro ⟨hend, hreply, hrest⟩
        exact .cons (Prod.ext rfl hreply) (ih.mpr (Prod.ext hend hrest))

theorem Explains.linearizes {h : List (Occurrence T ι ρ)} {ops : List (Operation T ι ρ)}
    (he : Explains (fun a c r b => apply a c = (b, r)) a h ops b) : Linearizes apply a h ops b where
  complete := he.complete
  once := he.once
  ordered := he.ordered
  legal := by
    have hlegal := allows_iff_replay.mp he.legal
    rwa [List.map_map, List.map_map] at hlegal

end Objects

section History
variable {h : List (Occurrence T ι ρ)} {ops : List (Operation T ι ρ)} {x : Occurrence T ι ρ}
  {t u : T} {c : ι} {i : ℕ}

theorem getElem?_of_append {j : ℕ} {y : Occurrence T ι ρ} (hj : h[j]? = some y) :
    (h ++ [x])[j]? = some y := by
  have hlt := (List.getElem?_eq_some_iff.mp hj).1
  rw [List.getElem?_append_left hlt, hj]

theorem getElem?_append_inv {j : ℕ} {y : Occurrence T ι ρ} (hj : (h ++ [x])[j]? = some y) :
    h[j]? = some y ∨ j = h.length ∧ y = x := by
  rcases lt_or_ge j h.length with hlt | hge
  · rw [List.getElem?_append_left hlt] at hj
    exact .inl hj
  · rw [List.getElem?_append_right hge, List.getElem?_singleton] at hj
    split at hj
    · cases hj
      exact .inr ⟨by omega, rfl⟩
    · cases hj

theorem lt_length {j : ℕ} {y : Occurrence T ι ρ} (hj : h[j]? = some y) : j < h.length :=
  (List.getElem?_eq_some_iff.mp hj).1

theorem Open.append (ho : Open h t c i) (hx : x.thread ≠ t) : Open (h ++ [x]) t c i where
  called := getElem?_of_append ho.called
  silent := by
    intro j y hj hy
    rcases getElem?_append_inv hy with hold | ⟨-, rfl⟩
    · exact ho.silent j y hj hold
    · exact hx

theorem Open.called_last (h : List (Occurrence T ι ρ)) (t : T) (c : ι) :
    Open (h ++ [.called t c]) t c h.length where
  called := List.getElem?_concat_length
  silent := by
    intro j y hj hy
    have hlt := lt_length hy
    rw [List.length_append, List.length_singleton] at hlt
    omega

theorem Open.start_unique {d : ι} {j : ℕ} (ho : Open h t c i) (hd : Open h t d j) : i = j := by
  rcases lt_trichotomy i j with hlt | heq | hlt
  · exact absurd rfl (ho.silent j _ hlt hd.called)
  · exact heq
  · exact absurd rfl (hd.silent i _ hlt ho.called)

theorem Completed.append {o : Operation T ι ρ} (ho : Completed h o) : Completed (h ++ [x]) o where
  called := getElem?_of_append ho.called
  answered := getElem?_of_append ho.answered
  lt := ho.lt
  silent := by
    intro j y hj hlt hy
    rcases getElem?_append_inv hy with hold | ⟨rfl, rfl⟩
    · exact ho.silent j y hj hlt hold
    · exact absurd (lt_length ho.answered) hlt.asymm

theorem Completed.of_append {o : Operation T ι ρ} (ho : Completed (h ++ [x]) o) :
    Completed h o ∨
      x = .answered o.thread o.reply ∧ o.finish = h.length ∧ Open h o.thread o.call o.start := by
  have hcalled : h[o.start]? = some (.called o.thread o.call) := by
    rcases getElem?_append_inv ho.called with hold | ⟨hstart, -⟩
    · exact hold
    · have hlt := lt_length ho.answered
      have hstrict := ho.lt
      rw [List.length_append, List.length_singleton] at hlt
      omega
  rcases getElem?_append_inv ho.answered with hold | ⟨hfinish, hx⟩
  · refine .inl ⟨hcalled, hold, ho.lt, ?_⟩
    intro j y hj hlt hy
    exact ho.silent j y hj hlt (getElem?_of_append hy)
  · refine .inr ⟨hx.symm, hfinish, hcalled, ?_⟩
    intro j y hj hy
    have hlt := lt_length hy
    exact ho.silent j y hj (by omega) (getElem?_of_append hy)

/-- The completed calls of the history, in the order of their answers. -/
structure Ledger (h : List (Occurrence T ι ρ)) (ops : List (Operation T ι ρ)) : Prop where
  complete : ∀ o, o ∈ ops ↔ Completed h o
  ordered : ops.Pairwise fun x y => x.finish < y.finish

theorem Ledger.nil : Ledger ([] : List (Occurrence T ι ρ)) [] where
  complete := by
    intro o
    refine iff_of_false List.not_mem_nil ?_
    intro ho
    cases ho.called
  ordered := .nil

theorem Ledger.called (hl : Ledger h ops) (t : T) (c : ι) :
    Ledger (h ++ [.called t c]) ops where
  complete := by
    intro o
    rw [hl.complete]
    constructor
    · exact Completed.append
    · intro ho
      rcases ho.of_append with hold | ⟨hx, -⟩
      · exact hold
      · cases hx
  ordered := hl.ordered

theorem Ledger.answered (hl : Ledger h ops) (ho : Open h t c i) (r : ρ) :
    Ledger (h ++ [.answered t r]) (ops ++ [⟨t, c, r, i, h.length⟩]) where
  complete := by
    intro o
    rw [List.mem_append, List.mem_singleton, hl.complete]
    constructor
    · rintro (hold | rfl)
      · exact hold.append
      · refine ⟨getElem?_of_append ho.called, List.getElem?_concat_length, lt_length ho.called, ?_⟩
        intro j y hj hlt hy
        rcases getElem?_append_inv hy with hold | ⟨rfl, -⟩
        · exact ho.silent j y hj hold
        · exact absurd hlt (lt_irrefl _)
    · intro hnew
      rcases hnew.of_append with hold | ⟨hx, hfinish, hopen⟩
      · exact .inl hold
      · obtain ⟨u, d, r', j, k⟩ := o
        cases hx
        obtain rfl : k = h.length := hfinish
        obtain rfl := ho.start_unique hopen
        cases ho.called.symm.trans hopen.called
        exact .inr rfl
  ordered := by
    refine List.pairwise_append.mpr ⟨hl.ordered, List.pairwise_singleton _ _, ?_⟩
    intro x hx y hy
    rw [List.mem_singleton.mp hy]
    exact lt_length ((hl.complete x).mp hx).answered

/-- The order of the answers contradicts no order in real time. -/
theorem Ledger.explains {spec : α → ι → ρ → α → Prop} {a b : α} (hl : Ledger h ops)
    (hlegal : Allows spec a (ops.map fun o => (o.call, o.reply)) b) : Explains spec a h ops b where
  complete := hl.complete
  once := hl.ordered.imp fun hxy he => absurd (congrArg Operation.finish he) hxy.ne
  ordered := by
    refine hl.ordered.imp_of_mem ?_
    intro x y hx _ hxy hyx
    have hlt := ((hl.complete x).mp hx).lt
    omega
  legal := hlegal

end History

section Calls
variable [DecidableEq T] {f g : T → Option ι} {occ : List (Occurrence T ι ρ)} {ans : List (ι × ρ)}

/-- What a step shows, and which calls it answers: `f` has the calls that the threads are in
before it. -/
inductive Emits (f : T → Option ι) :
    List (Occurrence T ι ρ) → List (ι × ρ) → (T → Option ι) → Prop
  | silent : Emits f [] [] f
  | called (t : T) (c : ι) (h : f t = none) : Emits f [.called t c] [] (update f t (some c))
  | answered (t : T) (c : ι) (r : ρ) (h : f t = some c) :
      Emits f [.answered t r] [(c, r)] (update f t none)
  | atOnce (t : T) (c : ι) (r : ρ) (h : f t = none) :
      Emits f [.called t c, .answered t r] [(c, r)] f

/-- The calls that the threads are in are open. -/
def Recorded (f : T → Option ι) (h : List (Occurrence T ι ρ)) : Prop :=
  ∀ t c, f t = some c → ∃ i, Open h t c i

omit [DecidableEq T] in
theorem Recorded.append {h : List (Occurrence T ι ρ)} {x : Occurrence T ι ρ} {u : T} {c : ι}
    (hr : Recorded f h) (hu : f u = some c) (hne : u ≠ x.thread) :
    ∃ i, Open (h ++ [x]) u c i := by
  obtain ⟨i, ho⟩ := hr u c hu
  exact ⟨i, ho.append hne.symm⟩

theorem Ledger.emits {h : List (Occurrence T ι ρ)} {ops : List (Operation T ι ρ)}
    (hl : Ledger h ops) (hr : Recorded f h) (he : Emits f occ ans g) :
    ∃ more : List (Operation T ι ρ), Ledger (h ++ occ) (ops ++ more) ∧
      more.map (fun o => (o.call, o.reply)) = ans ∧ Recorded g (h ++ occ) := by
  cases he with
  | silent =>
      rw [List.append_nil]
      exact ⟨[], by rwa [List.append_nil], rfl, hr⟩
  | called t c ht =>
      refine ⟨[], by rw [List.append_nil]; exact hl.called t c, rfl, ?_⟩
      intro u d hu
      rcases eq_or_ne u t with rfl | hne
      · rw [update_self] at hu
        cases hu
        exact ⟨_, .called_last h u c⟩
      · rw [update_of_ne hne] at hu
        exact hr.append hu hne
  | answered t c r ht =>
      obtain ⟨i, ho⟩ := hr t c ht
      refine ⟨[_], hl.answered ho r, rfl, ?_⟩
      intro u d hu
      rcases eq_or_ne u t with rfl | hne
      · rw [update_self] at hu
        cases hu
      · rw [update_of_ne hne] at hu
        exact hr.append hu hne
  | atOnce t c r ht =>
      rw [List.append_cons]
      refine ⟨[_], (hl.called t c).answered (.called_last h t c) r, rfl, ?_⟩
      intro u d hu
      have hne : u ≠ t := by
        rintro rfl
        rw [ht] at hu
        cases hu
      obtain ⟨i, ho⟩ := hr.append (x := .called t c) hu hne
      exact ⟨i, ho.append hne.symm⟩

variable {σ ℓ : Type*} {step : σ → ℓ → σ → Prop} {calls : σ → T → Option ι}
  {shown : Move σ ℓ → List (Occurrence T ι ρ)} {answered : Move σ ℓ → List (ι × ρ)}
  {Good : Move σ ℓ → Prop} {s t : σ} {moves : List (Move σ ℓ)}

/-- The answered calls of a run, in the order of the steps that answer them. -/
theorem exists_ledger
    (hemits : ∀ m, Good m → step m.pre m.label m.post →
      Emits (calls m.pre) (shown m) (answered m) (calls m.post))
    (htrace : Trace step s moves t) (good : ∀ m ∈ moves, Good m) (h₀ : ∀ u, calls s u = none) :
    ∃ ops, Ledger (moves.flatMap shown) ops ∧
      ops.map (fun o => (o.call, o.reply)) = moves.flatMap answered ∧
      Recorded (calls t) (moves.flatMap shown) := by
  induction htrace with
  | nil =>
      refine ⟨[], .nil, rfl, ?_⟩
      intro u c hu
      rw [h₀] at hu
      cases hu
  | snoc _ hstep ih =>
      obtain ⟨ops, hl, hops, hr⟩ := ih fun m hm => good m (List.mem_append_left _ hm)
      have hlast := good _ (List.mem_append_right _ (List.mem_singleton.mpr rfl))
      obtain ⟨more, hl', hmore, hr'⟩ := hl.emits hr (hemits ⟨_, _, _⟩ hlast hstep)
      simp only [List.flatMap_append, List.flatMap_singleton]
      refine ⟨ops ++ more, hl', ?_, hr'⟩
      rw [List.map_append, hops, hmore]

/-- A run whose answers are, step by step, answers of the object is explained by it: the steps
that answer are the linearization points. -/
theorem exists_explanation {spec : α → ι → ρ → α → Prop} {R : σ → α → Prop}
    (hemits : ∀ m, Good m → step m.pre m.label m.post →
      Emits (calls m.pre) (shown m) (answered m) (calls m.post))
    (hact : ∀ m, Good m → step m.pre m.label m.post → ∀ a, R m.pre a →
      ∃ b, R m.post b ∧ Allows spec a (answered m) b)
    (htrace : Trace step s moves t) (good : ∀ m ∈ moves, Good m) (h₀ : ∀ u, calls s u = none)
    {a : α} (ha : R s a) : ∃ ops b, R t b ∧ Explains spec a (moves.flatMap shown) ops b := by
  obtain ⟨ops, hl, hops, -⟩ := exists_ledger hemits htrace good h₀
  suffices hlegal : ∃ b, R t b ∧ Allows spec a (moves.flatMap answered) b by
    obtain ⟨b, hb, hallows⟩ := hlegal
    exact ⟨ops, b, hb, hl.explains (by rwa [hops])⟩
  clear hl hops ops
  induction htrace with
  | nil => exact ⟨a, ha, .nil⟩
  | snoc _ hstep ih =>
      obtain ⟨b, hb, hallows⟩ := ih fun m hm => good m (List.mem_append_left _ hm)
      have hlast := good _ (List.mem_append_right _ (List.mem_singleton.mpr rfl))
      obtain ⟨d, hd, hmore⟩ := hact ⟨_, _, _⟩ hlast hstep b hb
      simp only [List.flatMap_append, List.flatMap_singleton]
      exact ⟨d, hd, hallows.append hmore⟩

end Calls

section Monitor
variable {σ κ π γ ε : Type*}

def Start.occurrences (t : T) : Start ι π → List (Occurrence T ι ρ)
  | .enter c => [.called t c]
  | .resume _ => []

def Exit.occurrences (t : T) : Exit π ρ → List (Occurrence T ι ρ)
  | .returned r => [.answered t r]
  | .waiting _ => []

def occurrences : Label T ι γ σ κ π ρ → List (Occurrence T ι ρ)
  | .crit t start _ o _ => Start.occurrences t start ++ Exit.occurrences t o.exit
  | .wake _ => []

def history (moves : List (Move (World T σ π) (Label T ι γ σ κ π ρ))) : List (Occurrence T ι ρ) :=
  moves.flatMap fun m => occurrences m.label

/-- The call that a section answers, if it answers one, with the answer. -/
def answers (call : Start ι π → ι) : Label T ι γ σ κ π ρ → List (ι × ρ)
  | .crit _ start _ o _ =>
      match o.exit with
      | .returned r => [(call start, r)]
      | .waiting _ => []
  | .wake _ => []

/-- The call that a thread in this phase is in. -/
def phaseCall (call : Start ι π → ι) : Phase π → Option ι
  | .idle => none
  | .asleep p => some (call (.resume p))
  | .woken p => some (call (.resume p))

/-- The calls that the threads are in. -/
def callsOf (call : Start ι π → ι) (w : World T σ π) (t : T) : Option ι := phaseCall call (w.phase t)

variable [DecidableEq T] {P : Program σ κ ι π γ ρ ε} {call : Start ι π → ι}
  {moves : List (Move (World T σ π) (Label T ι γ σ κ π ρ))} {w₀ w w' : World T σ π} {t : T}
  {start : Start ι π} {clock : γ} {o : Outcome σ κ π ρ} {pick : Option T}

theorem phaseCall_signals {cond : π → κ} {f g : T → Phase π} {k : Option κ} {pick : Option T}
    (h : Signals cond f k pick g) (u : T) : phaseCall call (g u) = phaseCall call (f u) := by
  cases h with
  | silent => rfl
  | lost k hk => rfl
  | wakes t p ht =>
      rcases eq_or_ne u t with rfl | hne
      · rw [update_self, ht]
        rfl
      · rw [update_of_ne hne]

theorem callsOf_section (hstep : Step P w (.crit t start clock o pick) w') :
    callsOf call w' = update (callsOf call w) t (phaseCall call o.exit.phase) := by
  obtain ⟨g, hsignal, hg⟩ := hstep.others
  funext u
  rcases eq_or_ne u t with rfl | hne
  · rw [update_self, callsOf, hstep.crit_inv.2.2.2]
  · rw [update_of_ne hne, callsOf, callsOf, hg u hne, phaseCall_signals hsignal]

theorem callsOf_wake (hstep : Step P w (.wake t) w') : callsOf call w' = callsOf call w := by
  obtain ⟨-, p, ht, hw⟩ := hstep.wake_inv
  funext u
  rw [callsOf, callsOf, hw]
  rcases eq_or_ne u t with rfl | hne
  · rw [update_self, ht]
    rfl
  · rw [update_of_ne hne]

theorem emits_step (hcall : Belongs P call) {e : Label T ι γ σ κ π ρ} (hstep : Step P w e w') :
    Emits (callsOf call w) (occurrences e) (answers call e) (callsOf call w') := by
  cases e with
  | wake t =>
      rw [callsOf_wake hstep]
      exact .silent
  | crit t start clock o pick =>
      obtain ⟨hphase, hbody, -⟩ := hstep.crit_inv
      have hbefore : callsOf call w t = phaseCall call start.phase := congrArg _ hphase
      rw [callsOf_section hstep]
      cases start with
      | enter c =>
          cases hx : o.exit with
          | returned r =>
              have hsame : phaseCall call (Exit.returned r : Exit π ρ).phase = callsOf call w t :=
                hbefore.symm
              rw [update_eq_self_iff.mpr hsame]
              simp only [occurrences, answers, hx, hcall.enter]
              exact .atOnce t c r hbefore
          | waiting p =>
              have hkept : call (.resume p) = c := (hcall.waiting hbody hx).trans (hcall.enter c)
              simp only [occurrences, answers, hx, Exit.phase, phaseCall, hkept]
              exact .called t c hbefore
      | resume p =>
          cases hx : o.exit with
          | returned r =>
              simp only [occurrences, answers, hx]
              exact .answered t (call (.resume p)) r hbefore
          | waiting q =>
              have hsame : phaseCall call (Exit.waiting q : Exit π ρ).phase = callsOf call w t := by
                rw [hbefore]
                exact congrArg some (hcall.waiting hbody hx)
              rw [update_eq_self_iff.mpr hsame]
              simp only [occurrences, answers, hx]
              exact .silent

variable {apply : α → ι → α × ρ} {R : World T σ π → α → Prop}
  {Good : Move (World T σ π) (Label T ι γ σ κ π ρ) → Prop}

/-- The step acts on the object as the call that it answers, if any. -/
def Acts (call : Start ι π → ι) (apply : α → ι → α × ρ) (R : World T σ π → α → Prop)
    (m : Move (World T σ π) (Label T ι γ σ κ π ρ)) (a : α) : Prop :=
  ∃ b, R m.post b ∧ replay apply a ((answers call m.label).map Prod.fst) =
    (b, (answers call m.label).map Prod.snd)

/-- A monitor whose answering sections act as the object and whose other steps leave it alone
is linearizable. -/
theorem exists_linearization (hcall : Belongs P call)
    (hact : ∀ m, Good m → Step P m.pre m.label m.post → ∀ a, R m.pre a → Acts call apply R m a)
    (htrace : Trace (Step P) w₀ moves w) (h₀ : ∀ t, w₀.phase t = .idle)
    (good : ∀ m ∈ moves, Good m) {a : α} (ha : R w₀ a) :
    ∃ ops b, R w b ∧ Linearizes apply a (history moves) ops b := by
  have hemits : ∀ m : Move (World T σ π) (Label T ι γ σ κ π ρ), Good m →
      Step P m.pre m.label m.post → Emits (callsOf call m.pre) (occurrences m.label)
        (answers call m.label) (callsOf call m.post) := fun m _ hstep => emits_step hcall hstep
  have hnone : ∀ u, callsOf call w₀ u = none := by
    intro u
    rw [callsOf, h₀]
    rfl
  have hallows : ∀ m : Move (World T σ π) (Label T ι γ σ κ π ρ), Good m →
      Step P m.pre m.label m.post → ∀ a, R m.pre a →
      ∃ b, R m.post b ∧ Allows (fun a c r b => apply a c = (b, r)) a (answers call m.label) b := by
    intro m hm hstep a ha
    obtain ⟨b, hb, hreplay⟩ := hact m hm hstep a ha
    exact ⟨b, hb, allows_iff_replay.mpr hreplay⟩
  obtain ⟨ops, b, hb, hexplains⟩ := exists_explanation hemits hallows htrace good hnone ha
  exact ⟨ops, b, hb, hexplains.linearizes⟩

end Monitor
end Linearizability
